import SuiteScope.Proofs.Files.Spelling
import SuiteScope.Proofs.Text.Utf8

/-!
# Paths and their bytes

The paths that come from bytes have no slash in a segment (`Path.Written`), and their bytes can be cut
into the same segments again (`Path.ofBytes_toBytes`).

The text of a path is another matter, as names need not be text. It is the text of a path whose names
are shown (`Path.shown`), with replacement characters for bytes that are no text, and that path is the
one read from it (`Path.ofString_toString`). It is the path itself exactly if that is the path of some
text (`Path.shown_eq_iff`). Dots and empty segments are shown as themselves, and nothing else is shown as
one of them (`FileName.shown_eq_ofString_iff`).
-/

namespace SuiteScope

/-! ## Names as they are shown -/

namespace FileName

/-- The name that is read from a name as it is shown. -/
def shown (n : FileName) : FileName :=
  .ofString n.toString

/-- Only the name of an ASCII text is shown as that text. -/
theorem shown_eq_ofString_iff {n : FileName} {s : String} (hs : ∀ c ∈ s.toList, c.toNat < 0x80) :
    n.shown = ofString s ↔ n = ofString s := by
  have hbytes : n.shown = ofString s ↔ n.toString = s := by
    rw [shown, FileName.ext_iff]
    exact Text.encode_injective.eq_iff
  rw [hbytes, FileName.ext_iff]
  exact Text.decodeLossy_eq_iff hs

/-- Only the empty name is shown as empty. -/
theorem shown_eq_empty_iff {n : FileName} : n.shown = .empty ↔ n = .empty :=
  shown_eq_ofString_iff (s := "") (by simp)

/-- Only a dot is shown as one. -/
theorem shown_eq_dot_iff {n : FileName} : n.shown = .dot ↔ n = .dot :=
  shown_eq_ofString_iff (s := ".") (by simp)

/-- Only two dots are shown as two dots. -/
theorem shown_eq_dots_iff {n : FileName} : n.shown = .dots ↔ n = .dots :=
  shown_eq_ofString_iff (s := "..") (by simp)

end FileName

namespace Path

variable {p q : Path}

/-! ## Cutting and joining -/

section

variable {α : Type} [DecidableEq α] {sep : α}

/-- A text has at least one piece. -/
theorem splitAt_ne_nil (sep : α) (s : List α) : splitAt sep s ≠ [] := by
  cases s with
  | nil => exact List.cons_ne_nil _ _
  | cons c s =>
    rw [splitAt]
    split
    · exact List.cons_ne_nil _ _
    · split <;> exact List.cons_ne_nil _ _

/-- No piece has the separator in it. -/
theorem not_mem_of_mem_splitAt {s piece : List α} (h : piece ∈ splitAt sep s) : sep ∉ piece := by
  induction s generalizing piece with
  | nil =>
    obtain rfl := List.mem_singleton.mp h
    exact List.not_mem_nil
  | cons c s ih =>
    rw [splitAt] at h
    split at h
    · rcases List.mem_cons.mp h with rfl | h
      · exact List.not_mem_nil
      · exact ih h
    next hc =>
      split at h
      next hnil => exact absurd hnil (splitAt_ne_nil sep s)
      next first pieces heq =>
        rw [heq] at ih
        rcases List.mem_cons.mp h with rfl | h
        · rw [List.mem_cons, not_or]
          exact ⟨Ne.symm hc, ih List.mem_cons_self⟩
        · exact ih (List.mem_cons_of_mem _ h)

/-- A piece without the separator is cut off at the first one. -/
theorem splitAt_append {piece : List α} (h : sep ∉ piece) (s : List α) :
    splitAt sep (piece ++ sep :: s) = piece :: splitAt sep s := by
  induction piece with
  | nil => rw [List.nil_append, splitAt, if_pos rfl]
  | cons c piece ih =>
    rw [List.mem_cons, not_or] at h
    rw [List.cons_append, splitAt, if_neg (Ne.symm h.1), ih h.2]

/-- A text without the separator is its only piece. -/
theorem splitAt_eq_singleton {piece : List α} (h : sep ∉ piece) : splitAt sep piece = [piece] := by
  induction piece with
  | nil => rfl
  | cons c piece ih =>
    rw [List.mem_cons, not_or] at h
    rw [splitAt, if_neg (Ne.symm h.1), ih h.2]

/-- What is added to a text changes its last piece only. -/
theorem splitAt_append_left (sep : α) (s t : List α) :
    ∃ init last, splitAt sep s = init ++ [last] ∧
      splitAt sep (s ++ t) = init ++ splitAt sep (last ++ t) := by
  induction s with
  | nil => exact ⟨[], [], rfl, rfl⟩
  | cons c s ih =>
    obtain ⟨init, last, hs, hst⟩ := ih
    rw [List.cons_append, splitAt, splitAt, hs, hst]
    split
    · exact ⟨[] :: init, last, rfl, rfl⟩
    next hc =>
      cases init with
      | nil =>
        refine ⟨[], c :: last, rfl, ?_⟩
        rw [List.nil_append, List.nil_append, List.cons_append, splitAt, if_neg hc]
      | cons piece init => exact ⟨(c :: piece) :: init, last, rfl, rfl⟩

/-- What stands in front of a text without a separator belongs to its first piece. -/
theorem splitAt_append_of_not_mem {a : List α} (h : sep ∉ a) {s first : List α}
    {others : List (List α)} (hs : splitAt sep s = first :: others) :
    splitAt sep (a ++ s) = (a ++ first) :: others := by
  induction a with
  | nil => exact hs
  | cons c a ih =>
    rw [List.mem_cons, not_or] at h
    rw [List.cons_append, splitAt, if_neg (Ne.symm h.1), ih h.2]
    rfl

end

/-! ## Written paths -/

/-- The segments of a path are the pieces of its bytes. -/
structure Written (p : Path) : Prop where
  ne_nil : p.segments ≠ []
  slash_not_mem : ∀ s ∈ p.segments, slash ∉ s.bytes

/-- A path that is read has no slash in a name. -/
theorem written_ofBytes (bytes : List UInt8) : (ofBytes bytes).Written := by
  refine ⟨?_, fun s hs => ?_⟩
  · rw [ofBytes, ne_eq, List.map_eq_nil_iff]
    exact splitAt_ne_nil slash bytes
  · obtain ⟨piece, hpiece, rfl⟩ := List.mem_map.mp hs
    exact not_mem_of_mem_splitAt hpiece

theorem written_ofString (s : String) : (ofString s).Written :=
  written_ofBytes _

/-- A path may be put behind names without slashes. -/
theorem Written.behind (hq : q.Written) {above : List FileName}
    (h : ∀ s ∈ above, slash ∉ s.bytes) : (⟨above ++ q.segments⟩ : Path).Written := by
  refine ⟨List.append_ne_nil_of_right_ne_nil above hq.ne_nil, fun s hs => ?_⟩
  rcases List.mem_append.mp hs with hs | hs
  · exact h s hs
  · exact hq.slash_not_mem s hs

/-- A path that is joined of two such paths is one as well. -/
theorem Written.join (hp : p.Written) (hq : q.Written) : (p.join q).Written := by
  unfold Path.join
  split
  · exact hq
  · split
    · exact hq.behind fun s hs => hp.slash_not_mem s (List.dropLast_subset _ hs)
    · exact hq.behind hp.slash_not_mem

/-- A path that is written as bytes is read back from them. -/
theorem ofBytes_toBytes (h : p.Written) : ofBytes p.toBytes = p := by
  obtain ⟨segments⟩ := p
  obtain ⟨hne, hslash⟩ := h
  suffices hsplit : splitAt slash (toBytes ⟨segments⟩) = segments.map (·.bytes) by
    rw [ofBytes, hsplit, List.map_map]
    exact congrArg Path.mk (List.map_id' segments)
  induction segments with
  | nil => exact absurd rfl hne
  | cons s segments ih =>
    obtain ⟨hs, hsegments⟩ := List.forall_mem_cons.mp hslash
    cases segments with
    | nil => rw [toBytes_singleton, splitAt_eq_singleton hs, List.map_singleton]
    | cons t segments =>
      rw [toBytes_cons_cons, splitAt_append hs, ih (List.cons_ne_nil _ _) hsegments,
        ← List.map_cons]

/-- Bytes are the bytes of their path. -/
theorem toBytes_ofBytes (bytes : List UInt8) : (ofBytes bytes).toBytes = bytes := by
  rw [ofBytes]
  induction bytes with
  | nil => rw [splitAt, List.map_singleton, toBytes_singleton]
  | cons c bytes ih =>
    obtain ⟨piece, pieces, heq⟩ := List.exists_cons_of_ne_nil (splitAt_ne_nil slash bytes)
    rw [splitAt]
    rw [heq] at ih ⊢
    split
    next hc =>
      rw [List.map_cons, List.map_cons, toBytes_cons_cons, ← List.map_cons, ih, hc, List.nil_append]
    next hc =>
      rw [← ih]
      cases pieces with
      | nil => simp only [List.map_cons, List.map_nil, toBytes_singleton]
      | cons next pieces => simp only [List.map_cons, toBytes_cons_cons, List.cons_append]

/-- A text is the text of its path. -/
theorem toString_ofString (s : String) : (ofString s).toString = s := by
  rw [toString, ofString, toBytes_ofBytes, Text.decodeLossy_encode]

/-- Apart from slashes, the bytes of a path are those of its segments. -/
theorem mem_toBytes {b : UInt8} (hb : b ≠ slash) :
    b ∈ p.toBytes ↔ ∃ s ∈ p.segments, b ∈ s.bytes := by
  obtain ⟨segments⟩ := p
  induction segments with
  | nil => simp [toBytes, List.intercalate]
  | cons s segments ih =>
    cases segments with
    | nil => simp [toBytes_singleton]
    | cons t segments =>
      rw [toBytes_cons_cons, List.mem_append, List.mem_cons, ih]
      simp [hb]

/-! ## Paths as they are shown -/

/-- The path whose names are shown. -/
def shown (p : Path) : Path :=
  ⟨p.segments.map FileName.shown⟩

/-- The bytes of a path as it is shown are those of its text. -/
theorem toBytes_shown (p : Path) : p.shown.toBytes = Text.encode p.toString := by
  obtain ⟨segments⟩ := p
  rw [shown, toString]
  induction segments with
  | nil => rfl
  | cons s segments ih =>
    cases segments with
    | nil =>
      rw [List.map_singleton, toBytes_singleton, toBytes_singleton]
      rfl
    | cons t segments =>
      simp only [List.map_cons] at ih ⊢
      rw [toBytes_cons_cons, ih, toBytes_cons_cons,
        Text.encode_decodeLossy_append_cons (by decide : slash.toNat < 0x80)]
      rfl

/-- No slash comes up when a path is shown. -/
theorem Written.shown (h : p.Written) : p.shown.Written := by
  refine ⟨fun hnil => h.ne_nil (List.map_eq_nil_iff.mp hnil), fun n hn hslash => ?_⟩
  obtain ⟨s, hs, rfl⟩ := List.mem_map.mp hn
  have hchar : '/' ∈ s.toString.toList := (Text.mem_encode_iff (by decide) _).mp hslash
  exact h.slash_not_mem s hs ((Text.mem_decodeLossy_iff (by decide) _).mp hchar)

/-- What is read from the text of a path is the path as it is shown. -/
theorem ofString_toString (h : p.Written) : ofString p.toString = p.shown := by
  rw [ofString, ← toBytes_shown, ofBytes_toBytes h.shown]

/-- A path is shown as it is exactly if it is the path of a text. -/
theorem shown_eq_iff (h : p.Written) : p.shown = p ↔ ∃ s, p = ofString s := by
  constructor
  · intro hshown
    exact ⟨p.toString, by rw [ofString_toString h, hshown]⟩
  · rintro ⟨s, rfl⟩
    rw [← ofString_toString (written_ofString s), toString_ofString]

end Path

end SuiteScope
