import SuiteScope.Proofs.Settings.Members

/-!
# Settings that can be read off a document

`Readable` says, of the entries of a document, that every setting can be read off them. This is kept
when the entries of one document are laid over those of another (`Readable.mergeEntries`), and the
settings that are read have the values that the entries give, or else their defaults
(`exists_decode?`).
-/

namespace SuiteScope.Settings

open SuiteScope.Toml

variable {entries below above : Entries} {conv : Conventions}

/-! ## Entries of documents -/

/-- The entries of a document have no key twice. -/
theorem distinct_entriesOf {v : Option Value} (h : ∀ w, v = some w → w.Distinct) :
    (Value.table (entriesOf v)).Distinct := by
  cases v with
  | none => exact .table List.nodup_nil nofun
  | some v =>
    cases v with
    | table entries => exact h _ rfl
    | _ => exact .table List.nodup_nil nofun

/-- Neither have those of a group. -/
theorem distinct_group (h : (Value.table entries).Distinct) (name : String) :
    (Value.table (group entries name)).Distinct :=
  distinct_entriesOf fun _ hv => distinct_of_mem h (mem_of_lookup_eq_some hv)

/-- Every setting can be read off these entries, and no key is there twice. -/
structure Readable (entries : Entries) : Prop where
  distinct : (Value.table entries).Distinct
  runner : IsGroup entries "runner"
  mining : IsGroup entries "mining"
  aliases : IsGroup (group entries "mining") "aliases"
  projectName : Reads (text? .layered) entries "project_name"
  testCommand : Reads (text? .layered) (group entries "runner") "test_command"
  coverage : Reads truth? (group entries "runner") "coverage"
  lists : ∀ name ∈ ["test_dirs", "test_suffixes", "extensions", "ignore_dirs"],
    Reads (texts? .layered) (group entries "mining") name
  aliasTexts : ∀ key, Reads (text? .layered) (group (group entries "mining") "aliases") key

/-- Nothing is there that could not be read. -/
theorem readable_nil : Readable [] where
  distinct := .table List.nodup_nil nofun
  runner := nofun
  mining := nofun
  aliases := nofun
  projectName := nofun
  testCommand := nofun
  coverage := nofun
  lists := fun _ _ => nofun
  aliasTexts := fun _ => nofun

/-- What can be read off two documents can be read off the one laid over the other. -/
theorem Readable.mergeEntries (hbelow : Readable below) (habove : Readable above) :
    Readable (mergeEntries below above) := by
  have hkeys := keys_of_distinct habove.distinct
  have hgroup := fun name => distinct_group habove.distinct name
  have hrunner := group_mergeEntries hbelow.runner habove.runner hkeys
    (keys_of_distinct (hgroup _))
  have hmining := group_mergeEntries hbelow.mining habove.mining hkeys
    (keys_of_distinct (hgroup _))
  have haliases := group_mergeEntries hbelow.aliases habove.aliases (keys_of_distinct (hgroup _))
    (keys_of_distinct (distinct_group (hgroup _) _))
  have htext := readsLeaves_text? .layered
  constructor
  · rw [← merge_table]
    exact hbelow.distinct.merge habove.distinct
  · exact hbelow.runner.mergeEntries habove.runner hkeys (keys_of_distinct (hgroup _))
  · exact hbelow.mining.mergeEntries habove.mining hkeys (keys_of_distinct (hgroup _))
  · rw [hmining]
    exact hbelow.aliases.mergeEntries habove.aliases (keys_of_distinct (hgroup _))
      (keys_of_distinct (distinct_group (hgroup _) _))
  · exact hbelow.projectName.mergeEntries htext hkeys habove.projectName
  · rw [hrunner]
    exact hbelow.testCommand.mergeEntries htext (keys_of_distinct (hgroup _)) habove.testCommand
  · rw [hrunner]
    exact hbelow.coverage.mergeEntries readsLeaves_truth? (keys_of_distinct (hgroup _))
      habove.coverage
  · intro name hname
    rw [hmining]
    exact (hbelow.lists name hname).mergeEntries (readsLeaves_texts? .layered)
      (keys_of_distinct (hgroup _)) (habove.lists name hname)
  · intro key
    rw [hmining, haliases]
    exact (hbelow.aliasTexts key).mergeEntries htext
      (keys_of_distinct (distinct_group (hgroup _) _)) (habove.aliasTexts key)

/-! ## Reading settings -/

/-- The settings of the runner are read member by member. -/
theorem runner?_table (conv : Conventions) (members : Entries) :
    runner? conv (.table members) =
      (member? members "test_command" (text? conv) ({} : RunnerSettings).testCommand).bind
        fun testCommand =>
      (member? members "coverage" truth? ({} : RunnerSettings).coverage).bind fun coverage =>
        some { testCommand, coverage } :=
  rfl

/-- So are those of mining. -/
theorem mining?_table (conv : Conventions) (members : Entries) :
    mining? conv (.table members) =
      (member? members "test_dirs" (texts? conv) ({} : MiningSettings).testDirs).bind
        fun testDirs =>
      (member? members "test_suffixes" (texts? conv) ({} : MiningSettings).testSuffixes).bind
        fun testSuffixes =>
      (member? members "extensions" (texts? conv) ({} : MiningSettings).extensions).bind
        fun extensions =>
      (member? members "aliases" (textTable? conv) ({} : MiningSettings).aliases).bind
        fun aliases =>
      (member? members "ignore_dirs" (texts? conv) ({} : MiningSettings).ignoreDirs).bind
        fun ignoreDirs =>
        some { testDirs, testSuffixes, extensions, aliases, ignoreDirs } :=
  rfl

/-- A document with tables for groups is read group by group. -/
theorem decode?_table (hrunner : IsGroup entries "runner") (hmining : IsGroup entries "mining") :
    decode? conv (.table entries) =
      (member? entries "project_name" (text? conv) ({} : Settings).projectName).bind
        fun projectName =>
      (runner? conv (.table (group entries "runner"))).bind fun runner =>
      (mining? conv (.table (group entries "mining"))).bind fun mining =>
        some { projectName, runner, mining } := by
  have hdefault : runner? conv (.table []) = some ({} : Settings).runner := rfl
  have hdefault' : mining? conv (.table []) = some ({} : Settings).mining := rfl
  rw [← member?_group hrunner hdefault, ← member?_group hmining hdefault']
  rfl

/-- The settings have the values that the entries of a document give, or their defaults. -/
structure ReadFrom (entries : Entries) (s : Settings) : Prop where
  projectName : s.projectName =
    ((entries.lookup "project_name").bind (text? .layered)).getD ({} : Settings).projectName
  testCommand : s.runner.testCommand =
    (((group entries "runner").lookup "test_command").bind (text? .layered)).getD
      ({} : RunnerSettings).testCommand
  coverage : s.runner.coverage =
    (((group entries "runner").lookup "coverage").bind truth?).getD
      ({} : RunnerSettings).coverage
  testDirs : s.mining.testDirs =
    (((group entries "mining").lookup "test_dirs").bind (texts? .layered)).getD
      ({} : MiningSettings).testDirs
  testSuffixes : s.mining.testSuffixes =
    (((group entries "mining").lookup "test_suffixes").bind (texts? .layered)).getD
      ({} : MiningSettings).testSuffixes
  extensions : s.mining.extensions =
    (((group entries "mining").lookup "extensions").bind (texts? .layered)).getD
      ({} : MiningSettings).extensions
  ignoreDirs : s.mining.ignoreDirs =
    (((group entries "mining").lookup "ignore_dirs").bind (texts? .layered)).getD
      ({} : MiningSettings).ignoreDirs
  default : (group entries "mining").lookup "aliases" = none →
    s.mining.aliases = ({} : MiningSettings).aliases
  aliases : ((group entries "mining").lookup "aliases").isSome = true →
    (s.mining.aliases.map Prod.fst).Pairwise (· < ·) ∧
      ∀ key, s.mining.aliases.lookup key =
        ((group (group entries "mining") "aliases").lookup key).bind (text? .layered)

/-- Aliases are read off the table that is given for them. -/
theorem exists_aliases (h : Readable entries) :
    ∃ aliases, member? (group entries "mining") "aliases" (textTable? .layered)
        ({} : MiningSettings).aliases = some aliases ∧
      ((group entries "mining").lookup "aliases" = none →
        aliases = ({} : MiningSettings).aliases) ∧
      (((group entries "mining").lookup "aliases").isSome = true →
        (aliases.map Prod.fst).Pairwise (· < ·) ∧
          ∀ key, aliases.lookup key =
            ((group (group entries "mining") "aliases").lookup key).bind (text? .layered)) := by
  unfold member?
  rcases h.aliases.lookup_eq with ⟨hlookup, -⟩ | hlookup
  · rw [hlookup]
    exact ⟨_, rfl, fun _ => rfl, nofun⟩
  · rw [hlookup]
    have hkeys := keys_of_distinct (distinct_group (distinct_group h.distinct "mining") "aliases")
    obtain ⟨aliases, haliases, hsorted, hget⟩ := exists_textTable? hkeys h.aliasTexts
    exact ⟨aliases, haliases, nofun, fun _ => ⟨hsorted, hget⟩⟩

/-- The settings that are read off the entries of a document. -/
theorem exists_decode? (h : Readable entries) :
    ∃ s, decode? .layered (.table entries) = some s ∧ ReadFrom entries s := by
  obtain ⟨aliases, haliases, hdefault, hget⟩ := exists_aliases h
  have hlist := fun name hname => member?_eq (h.lists name hname)
  rw [decode?_table h.runner h.mining, runner?_table, mining?_table, member?_eq h.projectName,
    member?_eq h.testCommand, member?_eq h.coverage, hlist "test_dirs" (by simp),
    hlist "test_suffixes" (by simp), hlist "extensions" (by simp), haliases,
    hlist "ignore_dirs" (by simp)]
  exact ⟨_, rfl, rfl, rfl, rfl, rfl, rfl, rfl, rfl, hdefault, hget⟩

end SuiteScope.Settings
