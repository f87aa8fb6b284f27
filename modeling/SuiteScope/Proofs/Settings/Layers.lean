import SuiteScope.Proofs.Files.Location
import SuiteScope.Proofs.Settings.Readable
import SuiteScope.Proofs.Text.Utf8
import SuiteScope.Proofs.Toml.Paths
import SuiteScope.Settings.Load

/-!
# What the layers of settings give

The settings of a project come from a file of the user, a file of the project and the environment.
`Layered` says of every setting which layer it is taken from, in terms of the values that the two
documents give at the path of the setting (`Value.at?`).

`load_of_documents` : where each file is missing or holds a document that can be read as settings on
its own (`Sound`), loading gives the layered settings if they have no problems, and all their
problems otherwise.

The documents are laid over each other before defaults are filled in. What is then read off the
result comes from the layers in turn (`layered_of_readFrom`).
-/

namespace SuiteScope

namespace Settings

open SuiteScope.Toml

variable {fs : FileSystem} {userFile : Option Path} {root : Path} {overrides : Overrides}
  {user project : Option Value} {v : Value}

/-- The value of the document of a text. -/
def document? (text : String) : Option Value :=
  (read? text).bind (untag? <| .table ·)

/-- What a settings file gives : nothing if it is missing, and else the value of its document. -/
inductive Gives (fs : FileSystem) (file? : Option Path) : Option Value → Prop
  | missing (h : ∀ file, file? = some file → fs.isFile file = false) : Gives fs file? none
  | document {file : Path} {text : String} {v : Value} (named : file? = some file)
    (isFile : fs.isFile file = true) (content : fs.readText file = .ok text)
    (parse : document? text = some v) : Gives fs file? (some v)

/-- A document that can be read as settings on its own, and gives tables for groups. -/
structure Sound (v : Value) : Prop where
  decodes : ∃ conv, (decode? conv v).isSome = true
  groups : ∀ path ∈ [["runner"], ["mining"], ["mining", "aliases"]],
    (v.at? path).all Value.isTable = true

/-! ## Where settings come from -/

/-- The text that a document gives at a path. -/
def textAt? (v : Option Value) (path : List String) : Option String :=
  (v.bind (·.at? path)).bind (text? .layered)

/-- The list of texts that a document gives at a path. -/
def textsAt? (v : Option Value) (path : List String) : Option (List String) :=
  (v.bind (·.at? path)).bind (texts? .layered)

/-- The truth value that a document gives at a path. -/
def truthAt? (v : Option Value) (path : List String) : Option Bool :=
  (v.bind (·.at? path)).bind truth?

/-- The texts given at a path by the project, or else by the user, or else by default. -/
def textsOr (user project : Option Value) (path : List String) (default : List String) :
    List String :=
  ((textsAt? project path).or (textsAt? user path)).getD default

/-- Aliases are the default if no document gives any. Otherwise they are those of the user, each
replaced by the one that the project gives, and those that the project adds. -/
structure LayeredAliases (user project : Option Value) (aliases : List (String × String)) :
    Prop where
  default : user.bind (·.at? ["mining", "aliases"]) = none →
    project.bind (·.at? ["mining", "aliases"]) = none → aliases = ({} : MiningSettings).aliases
  lookup : (user.bind (·.at? ["mining", "aliases"])).isSome = true ∨
      (project.bind (·.at? ["mining", "aliases"])).isSome = true →
    (aliases.map Prod.fst).Pairwise (· < ·) ∧
      ∀ key, aliases.lookup key = (textAt? project ["mining", "aliases", key]).or
        (textAt? user ["mining", "aliases", key])

/-- Each setting is taken from the environment, the document of the project, that of the user, or
the defaults, in this order. -/
structure Layered (overrides : Overrides) (user project : Option Value) (s : Settings) : Prop where
  projectName : s.projectName = (overrides.projectName.or
    ((textAt? project ["project_name"]).or (textAt? user ["project_name"]))).getD
      ({} : Settings).projectName
  testCommand : s.runner.testCommand = (overrides.testCommand.or
    ((textAt? project ["runner", "test_command"]).or
      (textAt? user ["runner", "test_command"]))).getD ({} : RunnerSettings).testCommand
  coverage : s.runner.coverage = ((truthAt? project ["runner", "coverage"]).or
    (truthAt? user ["runner", "coverage"])).getD ({} : RunnerSettings).coverage
  testDirs : s.mining.testDirs =
    textsOr user project ["mining", "test_dirs"] ({} : MiningSettings).testDirs
  testSuffixes : s.mining.testSuffixes =
    textsOr user project ["mining", "test_suffixes"] ({} : MiningSettings).testSuffixes
  extensions : s.mining.extensions =
    textsOr user project ["mining", "extensions"] ({} : MiningSettings).extensions
  ignoreDirs : s.mining.ignoreDirs =
    textsOr user project ["mining", "ignore_dirs"] ({} : MiningSettings).ignoreDirs
  aliases : LayeredAliases user project s.mining.aliases

/-! ## Values at paths -/

theorem bind_at?_nil (v : Option Value) : v.bind (·.at? []) = v := by
  cases v <;> rfl

theorem bind_at?_cons (v : Option Value) (key : String) (path : List String) :
    v.bind (·.at? (key :: path)) = ((entriesOf v).lookup key).bind (·.at? path) := by
  cases v with
  | none => rfl
  | some v => cases v <;> rfl

/-- A name at the top of a document is looked up in its entries. -/
theorem bind_at?_name (v : Option Value) (name : String) :
    v.bind (·.at? [name]) = (entriesOf v).lookup name := by
  rw [bind_at?_cons, bind_at?_nil]

/-- A member is looked up in the group of its name. -/
theorem bind_at?_member (v : Option Value) (name member : String) :
    v.bind (·.at? [name, member]) = (group (entriesOf v) name).lookup member := by
  rw [bind_at?_cons, bind_at?_name]
  rfl

/-- So is a member of a group in a group. -/
theorem bind_at?_submember (v : Option Value) (name member key : String) :
    v.bind (·.at? [name, member, key]) =
      (group (group (entriesOf v) name) member).lookup key := by
  rw [bind_at?_cons, bind_at?_member]
  rfl

/-! ## One document -/

/-- Where a table may stand, there is a group. -/
theorem isGroup_of_at? {name : String} {v : Option Value}
    (h : (v.bind (·.at? [name])).all Value.isTable = true) : IsGroup (entriesOf v) name := by
  intro w hw
  rw [bind_at?_name, hw] at h
  exact h

theorem Sound.eq_table (h : Sound v) : v = .table (entriesOf (some v)) := by
  obtain ⟨conv, hs⟩ := h.decodes
  cases v with
  | table => rfl
  | _ => cases hs

/-- The entries of a sound document. -/
theorem Sound.readable (h : Sound v) (hdistinct : v.Distinct) : Readable (entriesOf (some v)) := by
  obtain ⟨conv, hs⟩ := h.decodes
  obtain ⟨s, hs⟩ := Option.isSome_iff_exists.mp hs
  cases v with
  | table entries =>
    have hrunner : IsGroup entries "runner" :=
      isGroup_of_at? (v := some (.table entries)) (h.groups _ (by simp))
    have hmining : IsGroup entries "mining" :=
      isGroup_of_at? (v := some (.table entries)) (h.groups _ (by simp))
    have haliases : IsGroup (group entries "mining") "aliases" :=
      isGroup_of_at? (v := entries.lookup "mining") (h.groups ["mining", "aliases"] (by simp))
    rw [decode?_table hrunner hmining, runner?_table, mining?_table] at hs
    simp only [Option.bind_eq_some_iff] at hs
    obtain ⟨_, hname, _, ⟨_, hcommand, _, hcoverage, -⟩, _, ⟨_, hdirs, _, hsuffixes, _, hextensions,
      aliases, hread, _, hignored, -⟩, -⟩ := hs
    change Readable entries
    constructor
    · exact hdistinct
    · exact hrunner
    · exact hmining
    · exact haliases
    · exact fun w hw => isSome_text?_layered (reads_of_member? hname w hw)
    · exact fun w hw => isSome_text?_layered (reads_of_member? hcommand w hw)
    · exact reads_of_member? hcoverage
    · simp only [List.forall_mem_cons]
      refine ⟨fun w hw => isSome_texts?_layered (reads_of_member? hdirs w hw),
        fun w hw => isSome_texts?_layered (reads_of_member? hsuffixes w hw),
        fun w hw => isSome_texts?_layered (reads_of_member? hextensions w hw),
        fun w hw => isSome_texts?_layered (reads_of_member? hignored w hw), nofun⟩
    · intro key w hw
      rcases haliases.lookup_eq with ⟨-, hnil⟩ | hlookup
      · rw [hnil] at hw
        cases hw
      · rw [member?, hlookup] at hread
        exact isSome_text?_layered (reads_of_textTable? hread key w hw)
  | _ => cases hs

/-- A document that is sound can be read. -/
theorem Gives.readable {file? : Option Path} {v : Option Value} (h : Gives fs file? v)
    (hsound : ∀ w, v = some w → Sound w) : Readable (entriesOf v) := by
  cases h with
  | missing => exact readable_nil
  | document named isFile content parse =>
    obtain ⟨entries, hentries, huntag⟩ := Option.bind_eq_some_iff.mp parse
    exact (hsound _ rfl).readable ((distinct_read? hentries).untag? huntag)

/-! ## Two documents -/

/-- A file adds the entries of its document to the table of the layers below. -/
theorem addLayer_of_gives {file : Path} {v : Option Value} (h : Gives fs (some file) v)
    (hsound : ∀ w, v = some w → Sound w) (below : Entries) :
    addLayer fs (.table below) file = .ok (.table (mergeEntries below (entriesOf v))) := by
  unfold addLayer
  cases h with
  | missing hmissing =>
    rw [if_neg (by simp [hmissing file rfl])]
    rfl
  | document named isFile content parse =>
    cases named
    rw [if_pos isFile, content]
    dsimp only
    rw [← document?, parse]
    dsimp only
    rw [(hsound _ rfl).eq_table, merge_table]
    rfl

/-- The layers of two files. -/
theorem layers_of_gives (hu : Gives fs userFile user)
    (hp : Gives fs (some (projectFile root)) project) (husound : ∀ w, user = some w → Sound w)
    (hpsound : ∀ w, project = some w → Sound w) :
    layers fs (userFile.toList ++ [projectFile root]) =
      .ok (.table (mergeEntries (entriesOf user) (entriesOf project))) := by
  have hproject := addLayer_of_gives hp hpsound
  unfold layers
  cases userFile with
  | none =>
    have hnone : entriesOf user = [] := by
      cases hu with
      | missing => rfl
      | document named => cases named
    rw [hnone]
    change (addLayer fs (.table []) (projectFile root) >>= fun v => pure v) = _
    rw [hproject]
    rfl
  | some file =>
    have huser := addLayer_of_gives hu husound []
    rw [mergeEntries_nil_left (keys_of_distinct (hu.readable husound).distinct)] at huser
    change (addLayer fs (.table []) file >>= fun v =>
      addLayer fs v (projectFile root) >>= fun v => pure v) = _
    rw [huser]
    change (addLayer fs (.table (entriesOf user)) (projectFile root) >>= fun v => pure v) = _
    rw [hproject]
    rfl

/-- Aliases are those of both documents, and where both have one, that of the project. -/
theorem layeredAliases_of_readFrom {s : Settings} (hu : Readable (entriesOf user))
    (hp : Readable (entriesOf project))
    (h : ReadFrom (mergeEntries (entriesOf user) (entriesOf project)) s) :
    LayeredAliases user project s.mining.aliases := by
  have hdistinct := distinct_group hp.distinct "mining"
  have hkeys := keys_of_distinct hdistinct
  have hsubkeys := keys_of_distinct (distinct_group hdistinct "aliases")
  have hmining := group_mergeEntries hu.mining hp.mining (keys_of_distinct hp.distinct) hkeys
  have haliases := group_mergeEntries hu.aliases hp.aliases hkeys hsubkeys
  have hgiven := lookup_mergeEntries_group hu.aliases hp.aliases hkeys hsubkeys
  rw [← hmining] at hgiven
  constructor
  · intro hnone hnone'
    rw [bind_at?_member] at hnone hnone'
    refine h.default ?_
    rw [hmining, lookup_mergeEntries hkeys, hnone, hnone']
    rfl
  · intro hsome
    rw [bind_at?_member, bind_at?_member] at hsome
    rcases hgiven with ⟨-, hnone, hnone'⟩ | hgiven
    · rw [hnone, hnone'] at hsome
      simp at hsome
    · obtain ⟨hsorted, hlookup⟩ := h.aliases (by rw [hgiven]; rfl)
      refine ⟨hsorted, fun key => ?_⟩
      rw [hlookup, hmining, haliases, lookup_mergeEntries_bind (readsLeaves_text? .layered) hsubkeys
        (hp.aliasTexts key), textAt?, textAt?, bind_at?_submember, bind_at?_submember]

/-- What is read off a document laid over another one comes from the layers in turn. -/
theorem layered_of_readFrom {s : Settings} (overrides : Overrides)
    (hu : Readable (entriesOf user)) (hp : Readable (entriesOf project))
    (h : ReadFrom (mergeEntries (entriesOf user) (entriesOf project)) s) :
    Layered overrides user project (s.withOverrides overrides) := by
  have hkeys := keys_of_distinct hp.distinct
  have hgroup := fun name => keys_of_distinct (distinct_group hp.distinct name)
  have hrunner := group_mergeEntries hu.runner hp.runner hkeys (hgroup _)
  have hmining := group_mergeEntries hu.mining hp.mining hkeys (hgroup _)
  have htext := readsLeaves_text? .layered
  have hlist : ∀ name ∈ ["test_dirs", "test_suffixes", "extensions", "ignore_dirs"], ∀ default,
      (((group (mergeEntries (entriesOf user) (entriesOf project)) "mining").lookup name).bind
        (texts? .layered)).getD default = textsOr user project ["mining", name] default := by
    intro name hname default
    rw [hmining, lookup_mergeEntries_bind (readsLeaves_texts? .layered) (hgroup _)
      (hp.lists name hname), textsOr, textsAt?, textsAt?, bind_at?_member, bind_at?_member]
  constructor
  · have hname : s.projectName = ((textAt? project ["project_name"]).or
        (textAt? user ["project_name"])).getD ({} : Settings).projectName := by
      rw [h.projectName, lookup_mergeEntries_bind htext hkeys hp.projectName, textAt?, textAt?,
        bind_at?_name, bind_at?_name]
    rw [Option.getD_or, ← hname]
    rfl
  · have hcommand : s.runner.testCommand = ((textAt? project ["runner", "test_command"]).or
        (textAt? user ["runner", "test_command"])).getD ({} : RunnerSettings).testCommand := by
      rw [h.testCommand, hrunner, lookup_mergeEntries_bind htext (hgroup _) hp.testCommand, textAt?,
        textAt?, bind_at?_member, bind_at?_member]
    rw [Option.getD_or, ← hcommand]
    rfl
  · rw [truthAt?, truthAt?, bind_at?_member, bind_at?_member,
      ← lookup_mergeEntries_bind readsLeaves_truth? (hgroup _) hp.coverage, ← hrunner]
    exact h.coverage
  · rw [← hlist "test_dirs" (by simp)]
    exact h.testDirs
  · rw [← hlist "test_suffixes" (by simp)]
    exact h.testSuffixes
  · rw [← hlist "extensions" (by simp)]
    exact h.extensions
  · rw [← hlist "ignore_dirs" (by simp)]
    exact h.ignoreDirs
  · have haliases := layeredAliases_of_readFrom hu hp h
    exact haliases

/-- Loading settings from documents that can each be read as settings gives the layered settings,
or all their problems. -/
theorem load_of_documents (overrides : Overrides) (hu : Gives fs userFile user)
    (hp : Gives fs (some (projectFile root)) project) (husound : ∀ w, user = some w → Sound w)
    (hpsound : ∀ w, project = some w → Sound w) :
    ∃ s, Layered overrides user project s ∧
      (s.problems = [] → load fs userFile root overrides = .ok s) ∧
      (s.problems ≠ [] →
        load fs userFile root overrides = .error (.invalidSettings s.problems)) := by
  have hureadable := hu.readable husound
  have hpreadable := hp.readable hpsound
  obtain ⟨s, hs, hread⟩ := exists_decode? (hureadable.mergeEntries hpreadable)
  have hload : load fs userFile root overrides = checked (s.withOverrides overrides) := by
    rw [load, layers_of_gives hu hp husound hpsound]
    dsimp only
    rw [hs]
  refine ⟨s.withOverrides overrides, layered_of_readFrom overrides hureadable hpreadable hread,
    fun hnone => ?_, fun hsome => ?_⟩
  · rw [hload, checked, hnone]
    rfl
  · rw [hload, checked, if_neg (by simpa using hsome)]

/-- A document of the user. -/
def userText : String :=
  "project_name = 'U'\n[runner]\ncoverage = true\n[mining.aliases]\n'a/' = 'one'\n'b/' = 'two'\n"

/-- A document of a project. -/
def projectText : String :=
  "[runner]\ntest_command = 't'\n[mining.aliases]\n'b/' = 'three'\n"

/-- The file system with both documents. -/
def twoFiles : FileSystem :=
  ⟨.directory none [("u", .file (Text.encode userText) 0),
    ("tdd.toml", .file (Text.encode projectText) 0)], []⟩

/-- A file with the text of a document gives its value. -/
theorem gives_document? {p : Path} {place : List FileName} {text : String} {time : Nat}
    (hplace : fs.place p = .ok place)
    (hat : fs.top.at? place = some (.file (Text.encode text) time))
    (hdocument : (document? text).isSome = true) : Gives fs (some p) (document? text) := by
  obtain ⟨v, hv⟩ := Option.isSome_iff_exists.mp hdocument
  have hnode := FileSystem.node_eq_ok_iff.mpr ⟨place, hplace, hat⟩
  rw [hv]
  refine .document rfl ?_ ?_ hv
  · rw [FileSystem.isFile, hnode]
    rfl
  · rw [FileSystem.readText, hnode]
    dsimp only
    rw [Text.decode?_encode]

/-- Whether a value is a sound document. -/
def isSound (v : Value) : Bool :=
  (decode? .layered v).isSome &&
    [["runner"], ["mining"], ["mining", "aliases"]].all fun path =>
      (v.at? path).all Value.isTable

/-- Whether a document is sound can be computed. -/
theorem sound_of_isSound {text : String} (h : (document? text).all isSound = true) :
    ∀ v, document? text = some v → Sound v := by
  intro v hv
  rw [hv, Option.all_some, isSound, Bool.and_eq_true, List.all_eq_true] at h
  exact ⟨⟨.layered, h.1⟩, h.2⟩

/-- The user names the project and asks for coverage, the project gives the command, and both give
aliases. -/
theorem load_of_two_files :
    ∃ s, load twoFiles (some (.ofString "/u")) (.ofString "/") {} = .ok s ∧
      s.projectName = "U" ∧ s.runner.testCommand = "t" ∧ s.runner.coverage = true ∧
      s.mining.aliases.lookup "a/" = some "one" ∧ s.mining.aliases.lookup "b/" = some "three" := by
  have huser : (document? userText).isSome = true ∧ (document? userText).all isSound = true := by
    decide +kernel
  have hproject : (document? projectText).isSome = true ∧
      (document? projectText).all isSound = true := by
    decide +kernel
  have hvalues : textAt? (document? projectText) ["project_name"] = none ∧
      textAt? (document? userText) ["project_name"] = some "U" ∧
      textAt? (document? projectText) ["runner", "test_command"] = some "t" ∧
      truthAt? (document? projectText) ["runner", "coverage"] = none ∧
      truthAt? (document? userText) ["runner", "coverage"] = some true ∧
      textAt? (document? projectText) ["mining", "aliases", "a/"] = none ∧
      textAt? (document? userText) ["mining", "aliases", "a/"] = some "one" ∧
      textAt? (document? projectText) ["mining", "aliases", "b/"] = some "three" ∧
      (textsAt? (document? projectText) ["mining", "extensions"]).or
        (textsAt? (document? userText) ["mining", "extensions"]) = none ∧
      (textsAt? (document? projectText) ["mining", "test_suffixes"]).or
        (textsAt? (document? userText) ["mining", "test_suffixes"]) = none ∧
      ((document? userText).bind (·.at? ["mining", "aliases"])).isSome = true := by
    decide +kernel
  obtain ⟨hname, hname', hcommand, hcoverage, hcoverage', ha, ha', hb, hextensions, hsuffixes,
    haliases⟩ := hvalues
  have hgives : Gives twoFiles (some (.ofString "/u")) (document? userText) :=
    gives_document? (by rfl) rfl huser.1
  have hgives' : Gives twoFiles (some (projectFile (.ofString "/"))) (document? projectText) :=
    gives_document? (by rfl) rfl hproject.1
  obtain ⟨s, hs, hload, -⟩ := load_of_documents {} hgives hgives' (sound_of_isSound huser.2)
    (sound_of_isSound hproject.2)
  have hprojectName : s.projectName = "U" := by
    rw [hs.projectName, hname, hname']
    rfl
  have htestCommand : s.runner.testCommand = "t" := by
    rw [hs.testCommand, hcommand]
    rfl
  have hproblems : s.problems = [] := by
    rw [problems, hprojectName, htestCommand, hs.extensions, hs.testSuffixes, textsOr,
      textsOr, hextensions, hsuffixes]
    decide +kernel
  obtain ⟨-, hlookup⟩ := hs.aliases.lookup (.inl haliases)
  refine ⟨s, hload hproblems, hprojectName, htestCommand, ?_, ?_, ?_⟩
  · rw [hs.coverage, hcoverage, hcoverage']
    rfl
  · rw [hlookup, ha, ha']
    rfl
  · rw [hlookup, hb]
    rfl

end Settings

end SuiteScope
