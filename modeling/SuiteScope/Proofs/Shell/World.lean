import SuiteScope.Proofs.Files.Update
import SuiteScope.Shell.Run.Fork

/-!
# What processes do to each other

Processes meet in their `World` only. What one of them writes to a file stands in the file from then
on (`content_write`), over what was there (`getElem?_overlay`) and without a change of any other file
(`at?_write_of_ne`), and writing in two parts is writing at once (`overlay_overlay`). A copy of a
process that runs to its end leaves the process itself as it was, whatever it carries out (`fork_eq`).
-/

namespace SuiteScope.Shell

namespace World

variable {w : World} {o : Opened} {writer number : Nat} {bytes : Bytes} {place away : List FileName}
  {node : Node}

/-! ## Bytes laid over others -/

section Overlay

variable {content front back : List UInt8} {offset i : Nat}

/-- A text grows if bytes are laid beyond its end, and never becomes shorter. -/
theorem length_overlay (content : List UInt8) (offset : Nat) (front : List UInt8) :
    (overlay content offset front).length = max content.length (offset + front.length) := by
  simp only [overlay, List.length_append, List.length_take, List.length_replicate, List.length_drop]
  omega

/-- In front of the offset stands what was there, and zeros where nothing was. -/
theorem length_take_append_replicate (content : List UInt8) (offset : Nat) :
    (content.take offset ++ List.replicate (offset - content.length) 0).length = offset := by
  rw [List.length_append, List.length_take, List.length_replicate]
  omega

/-- From the offset on the new bytes are found, and elsewhere the old ones. -/
theorem getElem?_overlay (content : List UInt8) (offset : Nat) (front : List UInt8) (i : Nat) :
    (overlay content offset front)[i]? =
      if i < offset then some (content[i]?.getD 0)
      else if i < offset + front.length then front[i - offset]?
      else content[i]? := by
  have hlength := length_take_append_replicate content offset
  rw [overlay]
  split
  case isTrue hi =>
    rw [List.append_assoc, List.getElem?_append_left (by omega)]
    by_cases hcontent : i < content.length
    · rw [List.getElem?_append_left (by rw [List.length_take]; omega), List.getElem?_take_of_lt hi,
        List.getElem?_eq_getElem hcontent]
      rfl
    · rw [List.getElem?_append_right (by rw [List.length_take]; omega),
        List.getElem?_eq_none (Nat.le_of_not_lt hcontent), List.getElem?_replicate,
        if_pos (by rw [List.length_take]; omega)]
      rfl
  case isFalse hi =>
    split
    case isTrue hfront =>
      rw [List.append_assoc, List.getElem?_append_right (by omega), hlength,
        List.getElem?_append_left (by omega)]
    case isFalse hfront =>
      rw [List.getElem?_append_right (by rw [List.length_append]; omega), List.length_append, hlength,
        List.getElem?_drop]
      congr 1
      omega

/-- Bytes behind the last one are added to it. -/
theorem overlay_length (content front : List UInt8) :
    overlay content content.length front = content ++ front := by
  simp [overlay]

/-- What is written in two parts, the second behind the first, is what is written at once. -/
theorem overlay_overlay (content : List UInt8) (offset : Nat) (front back : List UInt8) :
    overlay (overlay content offset front) (offset + front.length) back =
      overlay content offset (front ++ back) := by
  refine List.ext_getElem? fun i => ?_
  simp only [getElem?_overlay, List.length_append, ← Nat.add_assoc]
  rcases Nat.lt_or_ge i offset with hi | hi
  · simp [hi, show i < offset + front.length by omega]
  have hoffset : ¬i < offset := Nat.not_lt.mpr hi
  rcases Nat.lt_or_ge i (offset + front.length) with hfront | hfront
  · rw [if_pos hfront, if_neg hoffset, if_pos hfront, if_neg hoffset, if_pos (by omega),
      List.getElem?_append_left (by omega), List.getElem?_eq_getElem (by omega), Option.getD_some]
  · have hback : ¬i < offset + front.length := Nat.not_lt.mpr hfront
    simp only [if_neg hoffset, if_neg hback]
    rw [List.getElem?_append_right (by omega), Nat.sub_sub]

end Overlay

/-! ## Files -/

/-- What is put into a file is found there. -/
theorem content_putContent (w : World) (place : List FileName) (content : List UInt8) :
    (w.putContent place content).content place = content := by
  simp only [World.content, putContent, Node.at?_put]
  rfl

/-- What is written to an open file is found in the file. -/
theorem content_write (ho : w.opened[number]? = some o) (htarget : o.target = .file place)
    (writer : Nat) (bytes : Bytes) :
    (w.write writer number bytes).content place =
      overlay (w.content place) (if o.appends then (w.content place).length else o.offset)
        (Text.gather bytes) := by
  simp only [write, ho, htarget]
  exact content_putContent ..

/-- What a process writes to a file is not seen in any other file. -/
theorem at?_write_of_ne (ho : w.opened[number]? = some o) (htarget : o.target = .file place)
    (hplace : ∃ old, w.top.at? place = some old ∧ old.isDirectory = false)
    (haway : w.top.at? away = some node) (hkind : node.isDirectory = false) (hne : place ≠ away) :
    (w.write writer number bytes).top.at? away = some node := by
  obtain ⟨old, hold, hfile⟩ := hplace
  simp only [write, ho, htarget, putContent]
  refine (Node.at?_put_of_apart ?_ ?_ _).trans haway
  · exact Node.not_prefix_of_not_isDirectory hold hfile haway hne
  · exact Node.not_prefix_of_not_isDirectory haway hkind hold hne.symm

end World

/-! ## Copies of a process -/

namespace Step

/-- A step that goes on with another one, unless it stops. -/
theorem bind_apply {α β : Type} (m : Step α) (k : α → Step β) (state : State) :
    (m >>= k) state = match m state with
      | (.ok a, after) => k a after
      | (.error stop, after) => (.error stop, after) := by
  rcases h : m state with ⟨_ | _, _⟩ <;>
    simp [bind, ExceptT.bind, ExceptT.bindCont, ExceptT.mk, StateT.bind, h]
  rfl

/-- A process that runs a copy of itself goes on as it was, at the same time. Only the world has
changed, and one more process has been counted. -/
theorem fork_eq (r : Runner) (body : Step Unit) (s : State) :
    ∃ child w, fork r body s = (.ok child, { s with world := w }) ∧
      w.now = s.world.now ∧ child.number = s.world.lastProcess + 1 ∧ child.number ∉ w.living := by
  refine ⟨_, _, rfl, rfl, rfl, ?_⟩
  simp

end Step

end SuiteScope.Shell
