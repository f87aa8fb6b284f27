import SuiteScope.Shell.Field

/-!
# What is cut into fields

Whatever may be cut in a chunk, its glyphs are read one by one : each comes into the open field, or
is a separator and is left out, and closes the field or does not (`Reads`). From this it follows once
for all chunks that fields have all text and lose nothing but separators
(`filter_flatten_fieldsOf`), and that what must not be cut stays in one field
(`exists_field_of_never`).

Text that is cut at separators has none of them left (`flatten_fieldsOf_of_atSeparators`), and white
space cuts off no empty field (`ne_nil_of_mem_fieldsOf`).
-/

namespace SuiteScope.Shell

variable {separators : Bytes} {f f' f'' : Cutting} {g : Glyph} {gs hs part : List Glyph} {c : Chunk}
  {chunks : List Chunk} {keeps keeps' : Glyph → Prop} {closes closes' : Cutting → Char → Prop}

/-- Whether a glyph is no separator. -/
def Glyph.isText (separators : Bytes) : Glyph → Bool
  | .mark => true
  | .char c _ => !isSeparator separators c

theorem isText_of_isSeparator {c : Char} (hc : isSeparator separators c = true) (isLiteral : Bool) :
    (Glyph.char c isLiteral).isText separators = false := by
  rw [Glyph.isText, hc, Bool.not_true]

namespace Cutting

/-- The cutting with one more glyph in the open field. -/
def push (f : Cutting) (g : Glyph) : Cutting :=
  { f with current := g :: f.current }

/-- All fields, the open one last. -/
def fields (f : Cutting) : List (List Glyph) :=
  f.complete.reverse ++ [f.current.reverse]

/-- All glyphs that are in fields. -/
def glyphs (f : Cutting) : List Glyph :=
  f.fields.flatten

@[simp] theorem glyphs_push (f : Cutting) (g : Glyph) : (f.push g).glyphs = f.glyphs ++ [g] := by
  simp [glyphs, fields, push]

@[simp] theorem glyphs_close (f : Cutting) : f.close.glyphs = f.glyphs := by
  simp [glyphs, fields, close]

end Cutting

/-! ## One glyph after another -/

/-- The cutting becomes another one as glyphs are read. A glyph comes into the open field only if
`keeps` allows it, and a separator closes the field only if `closes` does. -/
inductive Reads (separators : Bytes) (keeps : Glyph → Prop) (closes : Cutting → Char → Prop) :
    Cutting → List Glyph → Cutting → Prop
  | nil (f : Cutting) : Reads separators keeps closes f [] f
  | push {f f' : Cutting} {g : Glyph} {gs : List Glyph} : keeps g →
    Reads separators keeps closes (f.push g) gs f' → Reads separators keeps closes f (g :: gs) f'
  | skip {f f' : Cutting} {c : Char} {isLiteral : Bool} {gs : List Glyph} :
    isSeparator separators c = true → Reads separators keeps closes f gs f' →
    Reads separators keeps closes f (.char c isLiteral :: gs) f'
  | close {f f' : Cutting} {c : Char} {isLiteral : Bool} {gs : List Glyph} :
    isSeparator separators c = true → closes f c → Reads separators keeps closes f.close gs f' →
    Reads separators keeps closes f (.char c isLiteral :: gs) f'
  /-- What is known of the chunk changes. -/
  | note {f f' : Cutting} {gs : List Glyph} (isAfterValues : Bool) :
    Reads separators keeps closes { f with isAfterValues } gs f' →
    Reads separators keeps closes f gs f'

namespace Reads

/-- Glyphs may be read in two parts. -/
theorem trans (h : Reads separators keeps closes f gs f')
    (h' : Reads separators keeps closes f' hs f'') :
    Reads separators keeps closes f (gs ++ hs) f'' := by
  induction h with
  | nil => exact h'
  | push hg _ ih => exact .push hg (ih h')
  | skip hc _ ih => exact .skip hc (ih h')
  | close hc hclose _ ih => exact .close hc hclose (ih h')
  | note b _ ih => exact .note b (ih h')

/-- What is allowed may be forgotten. -/
theorem mono (hkeeps : ∀ g, keeps g → keeps' g) (hcloses : ∀ f c, closes f c → closes' f c)
    (h : Reads separators keeps closes f gs f') : Reads separators keeps' closes' f gs f' := by
  induction h with
  | nil => exact .nil _
  | push hg _ ih => exact .push (hkeeps _ hg) ih
  | skip hc _ ih => exact .skip hc ih
  | close hc hclose _ ih => exact .close hc (hcloses _ _ hclose) ih
  | note b _ ih => exact .note b ih

/-- Only separators are left out. -/
theorem filter_glyphs (h : Reads separators keeps closes f gs f') :
    f'.glyphs.filter (·.isText separators) =
      f.glyphs.filter (·.isText separators) ++ gs.filter (·.isText separators) := by
  induction h with
  | nil => simp
  | push _ _ ih =>
    rw [ih, Cutting.glyphs_push, List.filter_append, List.append_assoc, ← List.filter_append,
      List.singleton_append]
  | skip hc _ ih => simp [ih, isText_of_isSeparator hc]
  | close hc _ _ ih => simp [ih, isText_of_isSeparator hc]
  | note _ _ ih => exact ih

/-- What has come into one field stays together. -/
theorem stays_together (h : Reads separators keeps closes f gs f')
    (hpart : ∃ field ∈ f.fields, part <:+: field) : ∃ field ∈ f'.fields, part <:+: field := by
  induction h with
  | nil => exact hpart
  | @push f _ g _ _ _ ih =>
    refine ih ?_
    obtain ⟨field, hmem, hinfix⟩ := hpart
    rcases List.mem_append.mp hmem with hdone | hopen
    · exact ⟨field, List.mem_append_left _ hdone, hinfix⟩
    · obtain rfl := List.mem_singleton.mp hopen
      refine ⟨_, List.mem_append_right _ (List.mem_singleton_self _), hinfix.trans ?_⟩
      exact ⟨[], [g], by simp [Cutting.push]⟩
  | skip _ _ ih => exact ih hpart
  | close _ _ _ ih =>
    refine ih ?_
    obtain ⟨field, hmem, hinfix⟩ := hpart
    exact ⟨field, List.mem_append_left _ (by simpa [Cutting.fields, Cutting.close] using hmem), hinfix⟩
  | note _ _ ih => exact ih hpart

/-- Nothing comes into fields that may not. -/
theorem forall_mem_glyphs (h : Reads separators keeps closes f gs f')
    (hf : ∀ g ∈ f.glyphs, keeps g) : ∀ g ∈ f'.glyphs, keeps g := by
  induction h with
  | nil => exact hf
  | push hg _ ih =>
    refine ih fun d hd => ?_
    rcases List.mem_append.mp (Cutting.glyphs_push _ _ ▸ hd) with hmem | hmem
    · exact hf d hmem
    · exact List.mem_singleton.mp hmem ▸ hg
  | skip _ _ ih => exact ih hf
  | close _ _ _ ih => exact ih (by simpa using hf)
  | note _ _ ih => exact ih hf

/-- No empty field is completed if only fields are closed in which something stands. -/
theorem nil_not_mem_complete (h : Reads separators keeps closes f gs f')
    (hcloses : ∀ f c, isSeparator separators c = true → closes f c → f.current ≠ [])
    (hf : [] ∉ f.complete) : [] ∉ f'.complete := by
  induction h with
  | nil => exact hf
  | push _ _ ih | skip _ _ ih => exact ih hf
  | close hc hclose _ ih =>
    refine ih fun hmem => ?_
    rcases List.mem_cons.mp hmem with hnil | hmem
    · exact hcloses _ _ hc hclose (List.reverse_eq_nil_iff.mp hnil.symm)
    · exact hf hmem
  | note _ _ ih => exact ih hf

end Reads

/-! ## Chunks -/

/-- Glyphs that are not cut come into the open field all together. -/
theorem reads_append (hgs : ∀ g ∈ gs, keeps g) (f : Cutting) :
    Reads separators keeps closes f gs { f with current := gs.reverse ++ f.current } := by
  induction gs generalizing f with
  | nil => exact .nil f
  | cons g gs ih =>
    have hrest := ih (fun d hd => hgs d (List.mem_cons_of_mem g hd)) (f.push g)
    rw [List.reverse_cons, List.append_assoc]
    exact .push (hgs g List.mem_cons_self) hrest

/-- Glyphs that are cut everywhere are read, if only separators cut them. -/
theorem reads_cutEverywhere {isCut : Char → Bool}
    (hcut : ∀ c, isCut c = true → isSeparator separators c = true) (f : Cutting) (gs : List Glyph) :
    Reads separators (fun _ => True) (fun _ _ => True) f gs (cutEverywhere isCut f gs) := by
  induction gs generalizing f with
  | nil => exact .nil f
  | cons g gs ih =>
    cases g with
    | mark => exact .push trivial (ih _)
    | char c isLiteral =>
      have hstep : cutEverywhere isCut f (.char c isLiteral :: gs) =
          cutEverywhere isCut (if isCut c then f.close else f.push (.char c isLiteral)) gs := rfl
      rw [hstep]
      by_cases hc : isCut c = true
      · rw [if_pos hc]
        exact .close (hcut c hc) trivial (ih _)
      · rw [if_neg hc]
        exact .push trivial (ih _)

/-- Separators at the start of glyphs may be left out. -/
theorem Reads.of_dropSeparators (mayCut : Bool)
    (h : Reads separators keeps closes f (dropSeparators separators mayCut gs) f') :
    Reads separators keeps closes f gs f' := by
  induction gs generalizing mayCut with
  | nil => exact h
  | cons g gs ih =>
    cases g with
    | mark => exact h
    | char c isLiteral =>
      rw [dropSeparators] at h
      split at h
      · exact h
      case isFalse hc =>
        have hc : isSeparator separators c = true := by simpa using hc
        split at h
        · exact .skip hc (ih _ h)
        · split at h
          · exact .skip hc (ih _ h)
          · exact h

theorem length_dropSeparators_le (mayCut : Bool) (gs : List Glyph) :
    (dropSeparators separators mayCut gs).length ≤ gs.length := by
  induction gs generalizing mayCut with
  | nil => exact Nat.le_refl _
  | cons g gs ih =>
    cases g with
    | mark => exact Nat.le_refl _
    | char c isLiteral =>
      rw [dropSeparators]
      split
      · exact Nat.le_refl _
      · split
        · exact Nat.le_succ_of_le (ih _)
        · split
          · exact Nat.le_succ_of_le (ih _)
          · exact Nat.le_refl _

/-- Text comes into fields without its separators, and white space does not close an empty field. -/
theorem reads_cutAtSeparators (separators : Bytes) {fuel : Nat} (hfuel : gs.length < fuel)
    (f : Cutting) :
    Reads separators (·.isText separators = true)
      (fun f c => f.current ≠ [] ∨ isSpaceSeparator c = false) f gs
      (cutAtSeparators separators fuel f gs) := by
  induction fuel generalizing f gs with
  | zero => exact absurd hfuel (Nat.not_lt_zero _)
  | succ fuel ih =>
    cases gs with
    | nil => exact .nil f
    | cons g gs =>
      have hlength : gs.length < fuel := Nat.lt_of_succ_lt_succ hfuel
      cases g with
      | mark => exact .push rfl (ih hlength _)
      | char c isLiteral =>
        rw [cutAtSeparators]
        split
        case isTrue hc => exact .push hc (ih hlength _)
        case isFalse hc =>
          have hc : isSeparator separators c = true := by simpa using hc
          split
          case isTrue => exact .skip hc (ih hlength _)
          case isFalse hspace =>
            have hclose : f.current ≠ [] ∨ isSpaceSeparator c = false := by
              cases hcurrent : f.current <;> simp_all
            refine .close hc hclose (.of_dropSeparators _ (ih ?_ _))
            exact Nat.lt_of_le_of_lt (length_dropSeparators_le _ _) hlength

/-- A chunk is read glyph by glyph, however it may be cut. -/
theorem reads_cutChunk (f : Cutting) (c : Chunk) :
    Reads separators (fun _ => True) (fun _ _ => True) f c.glyphs (cutChunk separators f c) := by
  have note {f f' : Cutting} (b : Bool)
      (h : Reads separators (fun _ => True) (fun _ _ => True) f c.glyphs f') :
      Reads separators (fun _ => True) (fun _ _ => True) f c.glyphs { f' with isAfterValues := b } := by
    simpa using h.trans (.note b (.nil _))
  rw [cutChunk]
  split
  · exact reads_append (fun _ _ => trivial) f
  · split
    · exact note false (reads_cutEverywhere (fun _ hc => hc) f _)
    · refine note false ?_
      exact (reads_cutAtSeparators separators (Nat.lt_succ_self _) f).mono (fun _ _ => trivial)
        (fun _ _ _ => trivial)
  · refine note true (reads_cutEverywhere (fun d hd => ?_) f _)
    rw [isSeparator, hd, Bool.true_or]

/-- All chunks of a word are read one after another. -/
theorem reads_foldl_cutChunk (chunks : List Chunk) (f : Cutting) :
    Reads separators (fun _ => True) (fun _ _ => True) f (chunks.flatMap (·.glyphs))
      (chunks.foldl (cutChunk separators) f) := by
  induction chunks generalizing f with
  | nil => exact .nil f
  | cons c chunks ih => exact (reads_cutChunk f c).trans (ih _)

/-! ## Fields -/

/-- The fields of a word are those of its cutting, up to an empty last one. -/
theorem fieldsOf_eq (separators : Bytes) (chunks : List Chunk) :
    let f := chunks.foldl (cutChunk separators) {}
    fieldsOf separators chunks =
      if f.current.isEmpty && !f.isAfterValues then f.complete.reverse else f.fields := by
  simp only [fieldsOf]
  split <;> simp [Cutting.fields, Cutting.close]

/-- The last field is left out only if nothing is in it. -/
theorem flatten_fieldsOf (separators : Bytes) (chunks : List Chunk) :
    (fieldsOf separators chunks).flatten = (chunks.foldl (cutChunk separators) {}).glyphs := by
  rw [fieldsOf_eq]
  split <;> simp_all [Cutting.glyphs, Cutting.fields]

/-- Fields have all glyphs of the chunks, in order, up to separators. -/
theorem filter_flatten_fieldsOf (separators : Bytes) (chunks : List Chunk) :
    (fieldsOf separators chunks).flatten.filter (·.isText separators) =
      (chunks.flatMap (·.glyphs)).filter (·.isText separators) := by
  rw [flatten_fieldsOf, (reads_foldl_cutChunk chunks {}).filter_glyphs]
  rfl

/-- A field in which something stands is not left out. -/
theorem mem_fieldsOf {field : List Glyph}
    (h : field ∈ (chunks.foldl (cutChunk separators) {}).fields) (hne : field ≠ []) :
    field ∈ fieldsOf separators chunks := by
  rw [fieldsOf_eq]
  split
  case isFalse => exact h
  case isTrue hempty =>
    obtain ⟨hcurrent, -⟩ := by simpa using hempty
    rcases List.mem_append.mp h with hdone | hlast
    · exact hdone
    · exact absurd (List.mem_singleton.mp hlast) (by simpa [hcurrent] using hne)

/-- What must not be cut is found in one field as it is. -/
theorem exists_field_of_never (hmem : c ∈ chunks) (hcuts : c.cuts = .never) (hne : c.glyphs ≠ []) :
    ∃ field ∈ fieldsOf separators chunks, c.glyphs <:+: field := by
  obtain ⟨front, back, rfl⟩ := List.append_of_mem hmem
  have hopen (f : Cutting) : ∃ field ∈ (cutChunk separators f c).fields, c.glyphs <:+: field := by
    refine ⟨_, List.mem_append_right _ (List.mem_singleton_self _), ?_⟩
    simpa [cutChunk, hcuts] using (List.suffix_append _ _).isInfix
  obtain ⟨field, hfield, hinfix⟩ :
      ∃ field ∈ ((front ++ c :: back).foldl (cutChunk separators) {}).fields, c.glyphs <:+: field := by
    rw [List.foldl_append, List.foldl_cons]
    exact (reads_foldl_cutChunk back _).stays_together (hopen _)
  refine ⟨field, mem_fieldsOf hfield ?_, hinfix⟩
  rintro rfl
  exact hne (List.infix_nil.mp hinfix)

/-- Chunks that are all cut at separators are read as `cutAtSeparators` reads one. -/
theorem reads_foldl_of_atSeparators (separators : Bytes) (hcuts : ∀ c ∈ chunks, c.cuts = .atSeparators)
    (hf : f.isAfterValues = false) :
    Reads separators (·.isText separators = true)
      (fun f c => f.current ≠ [] ∨ isSpaceSeparator c = false) f (chunks.flatMap (·.glyphs))
      (chunks.foldl (cutChunk separators) f) ∧
    (chunks.foldl (cutChunk separators) f).isAfterValues = false := by
  induction chunks generalizing f with
  | nil => exact ⟨.nil f, hf⟩
  | cons c chunks ih =>
    have hchunk : cutChunk separators f c =
        { cutAtSeparators separators (c.glyphs.length + 1) f c.glyphs with isAfterValues := false } := by
      simp [cutChunk, hcuts c List.mem_cons_self, hf]
    obtain ⟨hreads, hflag⟩ := ih (f := cutChunk separators f c)
      (fun d hd => hcuts d (List.mem_cons_of_mem c hd)) (by rw [hchunk])
    refine ⟨?_, hflag⟩
    rw [hchunk] at hreads
    have hfirst := reads_cutAtSeparators separators (Nat.lt_succ_self c.glyphs.length) f
    simpa [hchunk] using hfirst.trans (.note false hreads)

/-- Text that may be cut comes into fields without any separator. -/
theorem flatten_fieldsOf_of_atSeparators (hcuts : ∀ c ∈ chunks, c.cuts = .atSeparators) :
    (fieldsOf separators chunks).flatten =
      (chunks.flatMap (·.glyphs)).filter (·.isText separators) := by
  rw [← filter_flatten_fieldsOf, flatten_fieldsOf, eq_comm, List.filter_eq_self]
  have hreads := (reads_foldl_of_atSeparators separators (f := {}) hcuts rfl).1
  exact hreads.forall_mem_glyphs (by simp [Cutting.glyphs, Cutting.fields])

/-- White space cuts off no empty field. -/
theorem ne_nil_of_mem_fieldsOf (hseparators : ∀ c ∈ separators, c ∈ defaultSeparators)
    (hcuts : ∀ c ∈ chunks, c.cuts = .atSeparators) : [] ∉ fieldsOf separators chunks := by
  obtain ⟨hreads, hflag⟩ := reads_foldl_of_atSeparators separators (f := {}) hcuts rfl
  have hspace {d : Char} (hd : isSeparator separators d = true) : isSpaceSeparator d = true := by
    simp only [isSeparator, isSpaceSeparator, Bool.or_eq_true, List.contains_eq_mem,
      decide_eq_true_eq] at hd ⊢
    exact hd.imp_right (hseparators d)
  have hcomplete := hreads.nil_not_mem_complete
    (fun _ d hd hclose => hclose.resolve_right fun h => Bool.false_ne_true (h.symm.trans (hspace hd)))
    List.not_mem_nil
  rw [fieldsOf_eq]
  split
  · simpa using hcomplete
  · rename_i hopen
    simp_all [Cutting.fields]

end SuiteScope.Shell
