import SuiteScope.FileTree
import SuiteScope.Shell.Glob
import SuiteScope.Shell.Number

/-!
# Conditions

`Condition.holds?` decides the condition that the arguments of `test` make : comparisons of texts
and numbers, questions about files, and conditions joined by `!`, `-a`, `-o` and parentheses. The
number of arguments goes before their meaning, so a text that looks like an operator may be an
operand where an operator cannot stand.
-/

namespace SuiteScope.Shell.Condition

/-- What an argument may be. -/
inductive Kind
  /-- A question about the next argument. -/
  | unary
  /-- A comparison of the arguments around it. -/
  | binary
  | not
  | and
  | or
  | left
  | right
  deriving DecidableEq, Repr

/-- What an argument may be, going by its text. -/
def kind? (s : Bytes) : Option Kind :=
  match String.ofList s with
  | "!" => some .not
  | "-a" => some .and
  | "-o" => some .or
  | "(" => some .left
  | ")" => some .right
  | "-r" | "-w" | "-x" | "-e" | "-f" | "-d" | "-c" | "-b" | "-p" | "-u" | "-g" | "-k" | "-s"
  | "-t" | "-z" | "-n" | "-h" | "-O" | "-G" | "-L" | "-S" => some .unary
  | "=" | "!=" | "<" | ">" | "-eq" | "-ne" | "-ge" | "-gt" | "-le" | "-lt" | "-nt" | "-ot"
  | "-ef" => some .binary
  | _ => none

/-- Whether an argument that looks like a question is an operand : nothing follows it, or a
comparison does. -/
def isOperand : (behind : List Bytes) → Bool
  | [] => true
  | [_] => false
  | next :: _ => kind? next == some .binary

/-- What the first argument is. There is none at the end, and an operand has no kind. -/
def lexeme : List Bytes → Option (Option Kind)
  | [] => none
  | s :: behind =>
    match kind? s with
    | some .unary => some (if isOperand behind then none else some .unary)
    | some .left => some (if behind.isEmpty then none else some .left)
    | kind => some kind

/-- What is left of the arguments, starting with the one that was read last. -/
abbrev Asking := StateT (List Bytes) (Except Bytes)

/-- The number that an operand is. -/
def number (s : Bytes) : Asking Int :=
  match wholeInteger? false s with
  | some n => return n
  | none => throw ("Illegal number: ".toList ++ s)

/-- What is known of a file. -/
def fileHolds (fs : FileSystem) (question : Bytes) (name : Bytes) : Bool :=
  let node := fs.node (pathOf name)
  match node with
  | .error _ => false
  | .ok node =>
    match String.ofList question with
    | "-f" => node.isFile
    | "-d" | "-x" => node.isDirectory
    | "-c" => !node.isFile && !node.isDirectory
    | "-s" =>
      match node with
      | .file content _ => !content.isEmpty
      | .directory .. => true
      | .device _ => false
    | "-e" | "-r" | "-w" | "-O" | "-G" => true
    | _ => false

/-- The answer to a question about an argument. -/
def ask (fs : FileSystem) (question : Bytes) (s : Bytes) : Asking Bool :=
  match String.ofList question with
  | "-z" => return s.isEmpty
  | "-n" => return !s.isEmpty
  | "-t" => do
    let _ ← number s
    return false
  | _ => return fileHolds fs question s

/-- The time of the last change of a file. -/
def changed? (fs : FileSystem) (name : Bytes) : Option Nat :=
  (fs.node (pathOf name)).toOption.map fun n => n.modified?.getD 0

/-- Whether a file is newer than another one. Both have to exist. -/
def isNewer (fs : FileSystem) (a b : Bytes) : Bool :=
  match changed? fs a, changed? fs b with
  | some s, some t => t < s
  | _, _ => false

/-- The result of a comparison. -/
def compare (fs : FileSystem) (a operator b : Bytes) : Asking Bool := do
  let numbers := fun (holds : Int → Int → Bool) => do
    let m ← number a
    return holds m (← number b)
  match String.ofList operator with
  | "!=" => return a != b
  | "<" => return a < b
  | ">" => return b < a
  | "-eq" => numbers (· == ·)
  | "-ne" => numbers (· != ·)
  | "-ge" => numbers fun m n => n ≤ m
  | "-gt" => numbers fun m n => n < m
  | "-le" => numbers fun m n => m ≤ n
  | "-lt" => numbers fun m n => m < n
  | "-nt" => return isNewer fs a b
  | "-ot" => return isNewer fs b a
  | "-ef" =>
    match fs.place (pathOf a), fs.place (pathOf b) with
    | .ok p, .ok q => return p == q
    | _, _ => return false
  | _ => return a == b

/-- The argument behind the one that was read last is read. -/
def forward : Asking Unit :=
  modify (·.drop 1)

/-- What the argument behind the one that was read last is. -/
def ahead : Asking (Option (Option Kind)) := do
  return lexeme ((← get).drop 1)

/-- The complaint about an operator without its operand. -/
def missing {α : Type} (operator : Bytes) : Asking α :=
  throw (operator ++ ": argument expected".toList)

mutual

/-- Conditions of which one has to hold. The first argument is known to be a `kind`. -/
def anyOf (fs : FileSystem) : (fuel : Nat) → (kind : Option (Option Kind)) → Asking Bool
  | 0, _ => return false
  | fuel + 1, kind => do
    let holds ← allOf fs fuel kind
    if (← ahead) = some (some .or) then
      modify (·.drop 2)
      let more ← anyOf fs fuel (lexeme (← get))
      return holds || more
    else return holds

/-- Conditions that have to hold together. -/
def allOf (fs : FileSystem) : (fuel : Nat) → (kind : Option (Option Kind)) → Asking Bool
  | 0, _ => return false
  | fuel + 1, kind => do
    let holds ← oneOf fs fuel kind
    if (← ahead) = some (some .and) then
      modify (·.drop 2)
      let more ← allOf fs fuel (lexeme (← get))
      return holds && more
    else return holds

/-- A single condition. -/
def oneOf (fs : FileSystem) : (fuel : Nat) → (kind : Option (Option Kind)) → Asking Bool
  | 0, _ => return false
  | fuel + 1, kind => do
    match kind with
    | none => return false
    | some (some .not) =>
      let next ← ahead
      if next.isSome then forward
      return !(← oneOf fs fuel next)
    | some (some .left) =>
      forward
      let next := lexeme (← get)
      if next = some (some .right) then return false
      let holds ← anyOf fs fuel next
      forward
      if lexeme (← get) ≠ some (some .right) then throw "closing paren expected".toList
      return holds
    | some (some .unary) =>
      match ← get with
      | question :: s :: rest =>
        set (s :: rest)
        ask fs question s
      | question :: _ => missing question
      | [] => return false
    | some _ =>
      match ← get with
      | a :: operator :: rest =>
        if lexeme (operator :: rest) = some (some .binary) then
          match rest with
          | b :: _ =>
            set rest
            compare fs a operator b
          | [] => missing operator
        else return !a.isEmpty
      | [a] => return !a.isEmpty
      | [] => return false

end

/-- The decision on arguments whose first one is known to be a `kind`. -/
def decideFrom (fs : FileSystem) (arguments : List Bytes) (kind : Option (Option Kind)) :
    Except Bytes Bool := do
  let (holds, rest) ← anyOf fs (4 * arguments.length + 8) kind arguments
  match rest with
  | s :: _ :: _ => .error (if s.isEmpty then "unexpected operator".toList
      else s ++ ": unexpected operator".toList)
  | _ => return holds

/-- Whether the condition holds that the arguments make. -/
def holds? (fs : FileSystem) : List Bytes → Except Bytes Bool
  | [] => .ok false
  | [a, b, c] =>
    if kind? b = some .binary then decideFrom fs [a, b, c] (some none)
    else if a = ['('] ∧ c = [')'] then decideFrom fs [b] (lexeme [b])
    else if a = ['!'] then (holds? fs [b, c]).map not
    else decideFrom fs [a, b, c] (lexeme [a, b, c])
  | [a, b, c, d] =>
    if a = ['('] ∧ d = [')'] then decideFrom fs [b, c] (lexeme [b, c])
    else if a = ['!'] then (holds? fs [b, c, d]).map not
    else decideFrom fs [a, b, c, d] (lexeme [a, b, c, d])
  | arguments => decideFrom fs arguments (lexeme arguments)

end SuiteScope.Shell.Condition
