import SuiteScope.Capture
import SuiteScope.Proofs.Shell.World

/-!
# Processes that are captured

A command is captured, or it is reported that it could not be started, and nothing else happens : once
its program has been found there is a result, however the process ends and whatever it does before
(`launchAt_eq_ok_iff`, `run_eq_ok_iff`). The program is the first one among the files that the command
may name (`firstProgram_toOption`).

The transcript has all that was written, in order of time, and what an output shows is a part of it in
the same order (`Captured.ofWorld_spec`).
-/

namespace SuiteScope

/-! ## What is kept of a process -/

namespace Shell.Part

variable {parts : List Part} {a b : Part}

theorem perm_inOrder (parts : List Part) : (inOrder parts).Perm parts :=
  (List.mergeSort_perm _ _).trans (List.reverse_perm parts)

theorem pairwise_inOrder (parts : List Part) : (inOrder parts).Pairwise (·.time ≤ ·.time) := by
  have h : (inOrder parts).Pairwise (fun a b => decide (a.time ≤ b.time) = true) :=
    List.pairwise_mergeSort (fun a b c => by simpa using Nat.le_trans)
      (fun a b => by simpa using Nat.le_total _ _) _
  simpa using h

/-- Parts keep the order in which they were written, unless their times tell otherwise. -/
theorem sublist_inOrder (htime : a.time ≤ b.time) (h : [b, a].Sublist parts) :
    [a, b].Sublist (inOrder parts) :=
  List.pair_sublist_mergeSort (fun a b c => by simpa using Nat.le_trans)
    (fun a b => by simpa using Nat.le_total _ _) (by simpa using htime) (by simpa using h.reverse)

theorem le_latest (time : Nat) (parts : List Part) : time ≤ latest time parts := by
  induction parts generalizing time with
  | nil => exact Nat.le_refl time
  | cons part parts ih => exact Nat.le_trans (Nat.le_max_left time part.time) (ih _)

/-- No part was written after the latest time. -/
theorem time_le_latest (time : Nat) (h : a ∈ parts) : a.time ≤ latest time parts := by
  induction parts generalizing time with
  | nil => cases h
  | cons part parts ih =>
    rcases List.mem_cons.mp h with rfl | hmem
    · exact Nat.le_trans (Nat.le_max_right time a.time) (le_latest _ parts)
    · exact ih _ hmem

end Shell.Part

open Shell

/-- The transcript is all that was written, in order of time, and where times are the same in the
order of writing. What an output shows is the part of it that was written there, and no part is later
than the end of the process. -/
theorem Captured.ofWorld_spec (w : World) (ended : Ended) :
    ∃ written : List Part, written.Perm w.captured ∧ written.Pairwise (·.time ≤ ·.time) ∧
      (∀ a b, a.time ≤ b.time → [b, a].Sublist w.captured → [a, b].Sublist written) ∧
      (ofWorld w ended).transcript = Text.readable (written.flatMap (·.bytes)) ∧
      (ofWorld w ended).shown = Text.readable ((written.filter (!·.isError)).flatMap (·.bytes)) ∧
      (ofWorld w ended).complaints = Text.readable ((written.filter (·.isError)).flatMap (·.bytes)) ∧
      ∀ part ∈ written, part.time / 1000 ≤ (ofWorld w ended).durationMs := by
  refine ⟨Part.inOrder w.captured, Part.perm_inOrder _, Part.pairwise_inOrder _,
    fun a b => Part.sublist_inOrder, rfl, rfl, rfl, fun part hpart => ?_⟩
  have hmem : part ∈ w.captured := (Part.perm_inOrder _).mem_iff.mp hpart
  exact Nat.div_le_div_right (Part.time_le_latest w.now hmem)

/-! ## Starting a process -/

namespace Capture

variable {s : Surroundings} {fs : FileSystem} {command : String} {args : List String} {dir : Path}
  {place : List FileName} {path : Bytes}

/-- Whether a file is a program. -/
def isProgram (fs : FileSystem) (path : Bytes) : Bool :=
  match fs.place (pathOf path) with
  | .ok place => (installed? place).isSome
  | .error _ => false

/-- Of the files that a command may name, the first that is a program is started. -/
theorem firstProgram_toOption (fs : FileSystem) (why : FileError) (paths : List Bytes) :
    (firstProgram fs why paths).toOption = paths.find? (isProgram fs) := by
  induction paths generalizing why with
  | nil => rfl
  | cons path paths ih =>
    rw [firstProgram, List.find?_cons]
    cases hplace : fs.place (pathOf path) with
    | error e => simp [isProgram, hplace, ih]
    | ok place =>
      by_cases hprogram : (installed? place).isSome
      · simp [isProgram, hplace, hprogram, Except.toOption]
      · simp [isProgram, hplace, hprogram, ih]

/-- A process that stops has ended as well. -/
theorem endedOf_bind_pure {α : Type} (m : Step α) (f : α → Ended) (state : State) :
    ∃ ended,
      endedOf ((do return .ok (f (← m)) : Step (Except FileError Ended)) state).1 = .ok ended := by
  rw [Step.bind_apply]
  rcases m state with ⟨stop | a, after⟩
  · cases stop <;> exact ⟨_, rfl⟩
  · exact ⟨f a, rfl⟩

/-- A process that becomes a program comes to an end. -/
theorem endedOf_startProgram (r : Runner) (words : List Bytes) (state : State)
    (h : isProgram ⟨state.world.top, state.process.here⟩ path = true) :
    ∃ ended, endedOf (Step.startProgram r path words state).1 = .ok ended := by
  have hfiles : Step.files state = (.ok ⟨state.world.top, state.process.here⟩, state) := rfl
  unfold isProgram at h
  cases hplace : FileSystem.place ⟨state.world.top, state.process.here⟩ (pathOf path) with
  | error e => simp [hplace] at h
  | ok place =>
    obtain ⟨program, hprogram⟩ := Option.isSome_iff_exists.mp (by simpa [hplace] using h)
    rw [Step.startProgram, Step.bind_apply, hfiles]
    simp only [hplace, hprogram]
    cases program? program with
    | some run => exact endedOf_bind_pure _ _ state
    | none => exact endedOf_bind_pure _ id state

/-- A command is captured in a directory exactly if one of the files that it may name is a program.
How the process ends does not matter. -/
theorem launchAt_eq_ok_iff : (∃ result, launchAt s command args place = .ok result) ↔
    ∃ all, paths s command = .ok all ∧
      ∃ path ∈ all, isProgram { s.files with here := place } path := by
  cases hall : paths s command with
  | error e => simp [launchAt, hall, bind, Except.bind]
  | ok all =>
    have hfirst := firstProgram_toOption { s.files with here := place } .notFound all
    cases hpath : firstProgram { s.files with here := place } .notFound all with
    | error e =>
      rw [hpath] at hfirst
      have hnone := List.find?_eq_none.mp hfirst.symm
      constructor
      · rintro ⟨result, h⟩
        simp [launchAt, hall, hpath, bind, Except.bind] at h
      · rintro ⟨_, ⟨⟩, path, hmem, hprogram⟩
        exact absurd hprogram (hnone path hmem)
    | ok path =>
      rw [hpath] at hfirst
      have hprogram := List.find?_some hfirst.symm
      obtain ⟨ended, hended⟩ := endedOf_startProgram Step.run ((command :: args).map Text.bytewise)
        (startState s command place) hprogram
      refine iff_of_true ?_ ⟨all, rfl, path, List.mem_of_find?_eq_some hfirst.symm, hprogram⟩
      rcases hrun : Step.startProgram Step.run path ((command :: args).map Text.bytewise)
        (startState s command place) with ⟨result, after⟩
      rw [hrun] at hended
      simp only [launchAt, hall, hpath, bind, Except.bind, hrun, hended]
      exact ⟨_, rfl⟩

/-- A command is captured exactly if there is no zero byte in its words or in the name of the
directory, the directory is there, and one of the files that the command may name is a program. -/
theorem run_eq_ok_iff : (∃ result, run s command args dir = .ok result) ↔
    (∀ word ∈ command :: dir.toString :: args, word.contains '\x00' = false) ∧
      ∃ place node, s.files.place dir = .ok place ∧ s.files.top.at? place = some node ∧
        node.isDirectory = true ∧ ∃ all, paths s command = .ok all ∧
          ∃ path ∈ all, isProgram { s.files with here := place } path := by
  have hrun : (∃ result, run s command args dir = .ok result) ↔
      ∃ result, launch s command args dir = .ok result := by
    rw [run]
    cases launch s command args dir <;> simp [Except.mapError]
  rw [hrun, launch]
  split
  case isTrue hzero =>
    obtain ⟨word, hword, hcontains⟩ := List.any_eq_true.mp hzero
    refine iff_of_false (by simp) fun ⟨hwords, _⟩ => ?_
    rw [hwords word hword] at hcontains
    exact Bool.false_ne_true hcontains
  case isFalse hzero =>
    have hwords : ∀ word ∈ command :: dir.toString :: args, word.contains '\x00' = false := by
      simpa using hzero
    rw [and_iff_right hwords]
    cases hplace : s.files.place dir with
    | error e => simp
    | ok place =>
      cases hnode : s.files.top.at? place with
      | none => simp [hnode]
      | some node =>
        cases node with
        | directory => simpa [hnode, Node.isDirectory] using launchAt_eq_ok_iff
        | file | device => simp [hnode, Node.isDirectory]

end Capture

end SuiteScope
