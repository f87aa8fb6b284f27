import SuiteScope.Proofs.Transcript.Block
import SuiteScope.Transcript.Report

/-!
# Coloured transcripts

A coloured transcript is plain text with complete escape sequences laid between its pieces
(`Piece`). `strip` gives back the plain text, wherever the sequences stand (`strip_colouredText`).
So colours do not show in a report, except in the text that it keeps as captured
(`Report.ofTranscript_colouredText`).

A sequence is read to its very end because its parts differ in kind : what ends a run of parameters
is no parameter (`afterControl?_append`), and what ends a command is no part of its text
(`afterCommand?_append`).
-/

namespace SuiteScope.Transcript

open SuiteScope.Text

/-! ## Sequences -/

/-- A sequence that sets colours or styles, without the two characters that open it. -/
structure ControlSequence where
  parameters : List Char
  intermediates : List Char
  final : Char
  parameters_spec : ∀ c ∈ parameters, c ∈ "0123456789;?".toList
  intermediates_spec : ∀ c ∈ intermediates, ' ' ≤ c ∧ c ≤ '/'
  final_spec : '@' ≤ final ∧ final ≤ '~'

/-- A command to the system that shows the transcript, without the two characters that open it. -/
structure SystemCommand where
  text : List Char
  /-- Whether a bell ends the command. Otherwise an escape and a backslash do. -/
  rings : Bool
  bell_not_mem : bell ∉ text
  escape_not_mem : escape ∉ text

/-- A piece of a coloured transcript. -/
inductive Piece
  | chunk (text : List Char) (escape_not_mem : escape ∉ text)
  | control (sequence : ControlSequence)
  | command (sequence : SystemCommand)

/-- What follows the opening of a control sequence. -/
def ControlSequence.body (q : ControlSequence) : List Char :=
  q.parameters ++ (q.intermediates ++ [q.final])

/-- What follows the opening of a command. -/
def SystemCommand.body (q : SystemCommand) : List Char :=
  q.text ++ if q.rings then [bell] else [escape, '\\']

/-- The text of a piece as it is captured. -/
def Piece.text : Piece → List Char
  | .chunk text _ => text
  | .control q => escape :: '[' :: q.body
  | .command q => escape :: ']' :: q.body

/-- What a reader sees of a piece. -/
def Piece.shown : Piece → List Char
  | .chunk text _ => text
  | .control _ | .command _ => []

/-- The transcript that is made of some pieces. -/
def colouredText (pieces : List Piece) : List Char :=
  pieces.flatMap Piece.text

/-- What a reader sees of the pieces : the chunks of text, one after another. -/
def plainText (pieces : List Piece) : List Char :=
  pieces.flatMap Piece.shown

/-! ## The end of a sequence -/

theorem ControlSequence.all_isParameter (q : ControlSequence) :
    q.parameters.all isParameter = true := by
  have hclass : "0123456789;?".toList.all isParameter = true := by decide
  exact List.all_eq_true.mpr fun c hc => List.all_eq_true.mp hclass c (q.parameters_spec c hc)

theorem ControlSequence.all_isIntermediate (q : ControlSequence) :
    q.intermediates.all isIntermediate = true := by
  refine List.all_eq_true.mpr fun c hc => ?_
  simpa [isIntermediate] using q.intermediates_spec c hc

theorem ControlSequence.isFinal_final (q : ControlSequence) : isFinal q.final = true := by
  simpa [isFinal] using q.final_spec

/-- The codes of intermediate characters end where those of the parameters start. -/
theorem isParameter_of_isIntermediate {c : Char} (h : isIntermediate c = true) :
    isParameter c = false := by
  simp only [isIntermediate, Bool.and_eq_true, decide_eq_true_eq, Char.le_def,
    UInt32.le_iff_toNat_le] at h
  obtain ⟨-, hslash⟩ := h
  rw [← Bool.not_eq_true]
  simp only [isParameter, Bool.or_eq_true, beq_iff_eq, Char.isDigit, Bool.and_eq_true,
    decide_eq_true_eq, ge_iff_le, UInt32.le_iff_toNat_le]
  rintro ((⟨hzero, -⟩ | rfl) | rfl)
  · have : '/'.val.toNat = 47 := rfl
    have : '0'.val.toNat = 48 := rfl
    omega
  · exact absurd hslash (by decide)
  · exact absurd hslash (by decide)

/-- A final character is of neither of the kinds that it may stand behind. -/
theorem not_inside_of_isFinal {c : Char} (h : isFinal c = true) :
    isParameter c = false ∧ isIntermediate c = false := by
  simp only [isFinal, Bool.and_eq_true, decide_eq_true_eq, Char.le_def,
    UInt32.le_iff_toNat_le] at h
  obtain ⟨hat, -⟩ := h
  have hval : '@'.val.toNat = 64 := rfl
  constructor <;> rw [← Bool.not_eq_true]
  · simp only [isParameter, Bool.or_eq_true, beq_iff_eq, Char.isDigit, Bool.and_eq_true,
      decide_eq_true_eq, UInt32.le_iff_toNat_le]
    rintro ((⟨-, hnine⟩ | rfl) | rfl)
    · have : '9'.val.toNat = 57 := rfl
      omega
    · exact absurd hat (by decide)
    · exact absurd hat (by decide)
  · simp only [isIntermediate, Bool.and_eq_true, decide_eq_true_eq, Char.le_def,
      UInt32.le_iff_toNat_le]
    rintro ⟨-, hslash⟩
    have : '/'.val.toNat = 47 := rfl
    omega

theorem afterControl?_append (q : ControlSequence) (s : List Char) :
    afterControl? (q.body ++ s) = some s := by
  obtain ⟨hparameter, hintermediate⟩ := not_inside_of_isFinal q.isFinal_final
  have hparameters : ∀ c ∈ (q.intermediates ++ q.final :: s).head?, isParameter c = false := by
    have hall := List.all_eq_true.mp q.all_isIntermediate
    cases hq : q.intermediates with
    | nil => simpa using hparameter
    | cons c l => simpa using isParameter_of_isIntermediate (hall c (by simp [hq]))
  have hbody : q.body ++ s = q.parameters ++ (q.intermediates ++ q.final :: s) := by
    simp [ControlSequence.body]
  rw [afterControl?, hbody, dropWhile_append_of_head q.all_isParameter hparameters,
    dropWhile_append_of_head q.all_isIntermediate (by simpa using hintermediate)]
  simp only [q.isFinal_final, if_true]

theorem afterCommand?_append (q : SystemCommand) (s : List Char) :
    afterCommand? (q.body ++ s) = some s := by
  have htext : q.text.all (fun c => c != bell && c != escape) = true := by
    refine List.all_eq_true.mpr fun c hc => ?_
    rw [Bool.and_eq_true, bne_iff_ne, bne_iff_ne]
    exact ⟨fun h => q.bell_not_mem (h ▸ hc), fun h => q.escape_not_mem (h ▸ hc)⟩
  rw [afterCommand?, SystemCommand.body, List.append_assoc]
  cases q.rings with
  | true => rw [dropWhile_append_of_head htext (by simp)]; simp
  | false =>
    have hne : escape ≠ bell := by decide
    rw [dropWhile_append_of_head htext (by simp)]
    simp [hne]

/-! ## Stripping piece by piece -/

theorem strip_of_afterEscape? {s rest : List Char} (h : afterEscape? s = some rest) :
    strip s = strip rest := by
  cases s with
  | nil => cases h
  | cons c s =>
    rw [strip]
    split
    next heq => rw [h] at heq; cases heq; rfl
    next heq => rw [h] at heq; cases heq

theorem strip_append {x : List Char} (h : escape ∉ x) (s : List Char) :
    strip (x ++ s) = x ++ strip s := by
  induction x with
  | nil => rfl
  | cons c x ih =>
    rw [List.mem_cons, not_or] at h
    have hnone : afterEscape? (c :: (x ++ s)) = none := by
      unfold afterEscape?
      split <;> simp_all [Ne.symm]
    rw [List.cons_append, strip]
    split
    next heq => rw [hnone] at heq; cases heq
    next => rw [ih h.2, List.cons_append]

/-- A piece leaves what is shown of it, whatever follows. -/
theorem Piece.strip_text_append (p : Piece) (s : List Char) :
    strip (p.text ++ s) = p.shown ++ strip s := by
  cases p with
  | chunk text h => exact strip_append h s
  | control q =>
    refine strip_of_afterEscape? ?_
    simp [Piece.text, afterEscape?, afterControl?_append]
  | command q =>
    refine strip_of_afterEscape? ?_
    simp [Piece.text, afterEscape?, afterCommand?_append]

theorem strip_colouredText (pieces : List Piece) :
    strip (colouredText pieces) = plainText pieces := by
  induction pieces with
  | nil => rw [colouredText, plainText, List.flatMap_nil, List.flatMap_nil, strip]
  | cons p pieces ih =>
    rw [colouredText, List.flatMap_cons, p.strip_text_append, ← colouredText, ih, plainText,
      plainText, List.flatMap_cons]

theorem escape_not_mem_plainText (pieces : List Piece) : escape ∉ plainText pieces := by
  rw [plainText, List.mem_flatMap]
  rintro ⟨p, -, hp⟩
  cases p with
  | chunk text h => exact h hp
  | control q => cases hp
  | command q => cases hp

/-- Escape sequences change nothing in a report but the text that it keeps as captured. -/
theorem Report.ofTranscript_colouredText (pieces : List Piece) :
    strip (colouredText pieces) = plainText pieces ∧
      ∀ (durationMs : Nat) (exitCode : Int),
        let captured := String.ofList (colouredText pieces)
        let coloured := Report.ofTranscript captured durationMs exitCode
        let plain := Report.ofTranscript (String.ofList (plainText pieces)) durationMs exitCode
        coloured.allPassed = plain.allPassed ∧ coloured.totals = plain.totals ∧
          coloured.failures = plain.failures ∧ coloured.rawText = captured := by
  have hstrip := strip_colouredText pieces
  refine ⟨hstrip, fun durationMs exitCode => ?_⟩
  have hsame : strip (String.ofList (colouredText pieces)).toList =
      strip (String.ofList (plainText pieces)).toList := by
    rw [String.toList_ofList, String.toList_ofList, hstrip,
      strip_eq_self (escape_not_mem_plainText pieces)]
  simp only [Report.ofTranscript, hsame, and_self]

/-- A failing line with its cross in red, behind a command that sets a title. -/
def colouredPieces : List Piece :=
  [.command ⟨"0;run".toList, true, by simp [bell], by simp [escape]⟩,
    .control ⟨"31;1".toList, [], 'm', by simp, by simp, by decide⟩,
    .chunk " ×".toList (by simp [escape]),
    .control ⟨[], [' ', '/'], '~', by simp, by simp, by decide⟩,
    .chunk " adds 7ms\n".toList (by simp [escape]), .control ⟨[], [], 'm', by simp, by simp, by decide⟩,
    .chunk "   → not 3\n".toList (by simp [escape]),
    .command ⟨[], false, by simp, by simp⟩]

/-- Two lines are read as one failure, with none of the colours in its name. -/
theorem ofTranscript_of_colouredPieces :
    let captured := String.ofList (colouredText colouredPieces)
    strip captured.toList = " × adds 7ms\n   → not 3\n".toList ∧
      (Report.ofTranscript captured 5 1).failures.map (·.testName) = ["adds"] ∧
      (Report.ofTranscript captured 5 1).rawText = captured := by
  intro captured
  obtain ⟨hstrip, hreports⟩ := Report.ofTranscript_colouredText colouredPieces
  obtain ⟨-, -, hfailures, hraw⟩ := hreports 5 1
  refine ⟨?_, ?_, hraw⟩
  · rw [String.toList_ofList, hstrip]
    decide
  · rw [hfailures]
    decide +kernel

end SuiteScope.Transcript
