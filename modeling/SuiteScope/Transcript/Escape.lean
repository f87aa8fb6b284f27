/-!
# Terminal escapes

A transcript may hold complete escape sequences that set colours and styles or name the window.
`strip` removes them and keeps everything else, an escape character that starts no complete
sequence included.
-/

namespace SuiteScope.Transcript

/-- The character that starts a sequence. -/
def escape : Char := '\x1b'

/-- The character that rings the bell. -/
def bell : Char := '\x07'

/-- What a control sequence carries first : digits, semicolons and question marks. -/
def isParameter (c : Char) : Bool :=
  c.isDigit || c == ';' || c == '?'

/-- What a control sequence carries next : the characters from the space to the slash. -/
def isIntermediate (c : Char) : Bool :=
  ' ' ≤ c && c ≤ '/'

/-- What ends a control sequence : the characters from the at sign to the tilde. -/
def isFinal (c : Char) : Bool :=
  '@' ≤ c && c ≤ '~'

/-- What follows the parameters and the final character of a control sequence. -/
def afterControl? (s : List Char) : Option (List Char) :=
  match (s.dropWhile isParameter).dropWhile isIntermediate with
  | c :: rest => if isFinal c then some rest else none
  | [] => none

/-- What follows the text and the end of an operating system command. -/
def afterCommand? (s : List Char) : Option (List Char) :=
  match s.dropWhile fun c => c != bell && c != escape with
  | c :: rest =>
    if c = bell then some rest
    else
      match rest with
      | '\\' :: rest => some rest
      | _ => none
  | [] => none

/-- What follows the complete sequence that starts here. -/
def afterEscape? : List Char → Option (List Char)
  | c :: '[' :: s => if c = escape then afterControl? s else none
  | c :: ']' :: s => if c = escape then afterCommand? s else none
  | _ => none

theorem length_dropWhile_le (p : Char → Bool) (s : List Char) :
    (s.dropWhile p).length ≤ s.length :=
  (List.dropWhile_suffix p).length_le

theorem length_afterControl? {s rest : List Char} (h : afterControl? s = some rest) :
    rest.length < s.length := by
  have h₁ := length_dropWhile_le isIntermediate (s.dropWhile isParameter)
  have h₂ := length_dropWhile_le isParameter s
  unfold afterControl? at h
  split at h
  next heq =>
    rw [heq, List.length_cons] at h₁
    split at h
    · cases h; omega
    · cases h
  · cases h

theorem length_afterCommand? {s rest : List Char} (h : afterCommand? s = some rest) :
    rest.length < s.length := by
  have h₁ := length_dropWhile_le (fun c => c != bell && c != escape) s
  unfold afterCommand? at h
  split at h
  next heq =>
    rw [heq, List.length_cons] at h₁
    split at h
    · cases h; omega
    · split at h
      · cases h; rw [List.length_cons] at h₁; omega
      · cases h
  · cases h

theorem length_afterEscape? {s rest : List Char} (h : afterEscape? s = some rest) :
    rest.length < s.length := by
  unfold afterEscape? at h
  split at h
  · split at h
    · have := length_afterControl? h
      simp only [List.length_cons]; omega
    · cases h
  · split at h
    · have := length_afterCommand? h
      simp only [List.length_cons]; omega
    · cases h
  · cases h

/-- The text without its escape sequences. -/
def strip : List Char → List Char
  | [] => []
  | c :: s =>
    match h : afterEscape? (c :: s) with
    | some rest =>
      have : rest.length < s.length + 1 := length_afterEscape? h
      strip rest
    | none => c :: strip s
termination_by s => s.length

end SuiteScope.Transcript
