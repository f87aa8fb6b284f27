import SuiteScope.Shell.Number

/-!
# Sums

`evaluate` finds the value of a sum in a script : numbers, variables, assignments, a choice between
two values, and the usual operators over numbers of 64 bits. A sum is worked out while it is read,
from left to right, so of two faults in it the first one is found. A part that does not matter is
read without being worked out.
-/

namespace SuiteScope.Shell.Arithmetic

/-- An operator between two numbers. -/
inductive Operator
  | times
  | divide
  | remainder
  | plus
  | minus
  | shiftLeft
  | shiftRight
  | less
  | atMost
  | greater
  | atLeast
  | equal
  | unequal
  | bitAnd
  | bitXor
  | bitOr
  deriving DecidableEq, Repr

/-- How loosely an operator binds. -/
def Operator.rank : Operator → Nat
  | .times | .divide | .remainder => 0
  | .plus | .minus => 1
  | .shiftLeft | .shiftRight => 2
  | .less | .atMost | .greater | .atLeast => 3
  | .equal | .unequal => 4
  | .bitAnd => 5
  | .bitXor => 6
  | .bitOr => 7

/-- The rank that no operator reaches. -/
def rankLimit : Nat := 8

/-- A part of a sum. -/
inductive Lexeme
  | number (n : Int)
  | variable (name : Bytes)
  | operator (o : Operator)
  /-- An assignment, after an operation on the value so far if one is given. -/
  | assign (o : Option Operator)
  | and
  | or
  | not
  | complement
  | left
  | right
  | question
  | colon
  | finish
  | unknown
  deriving DecidableEq, Repr

/-- What is wrong with a sum. -/
inductive Fault
  | expected (what : String)
  | zeroDivision
  /-- A quotient that has more than 64 bits. -/
  | overflow
  | notANumber (value : Bytes)
  | unset (name : Bytes)
  deriving DecidableEq, Repr

/-- The lexeme at the start of a text that starts with no blank. -/
def lexeme (s : Bytes) : Lexeme × Bytes :=
  let assignable := fun (o : Operator) (s : Bytes) =>
    match s with
    | '=' :: s => (Lexeme.assign (some o), s)
    | s => (.operator o, s)
  match s with
  | [] => (.finish, [])
  | '=' :: '=' :: s => (.operator .equal, s)
  | '=' :: s => (.assign none, s)
  | '>' :: '=' :: s => (.operator .atLeast, s)
  | '>' :: '>' :: s => assignable .shiftRight s
  | '>' :: s => (.operator .greater, s)
  | '<' :: '=' :: s => (.operator .atMost, s)
  | '<' :: '<' :: s => assignable .shiftLeft s
  | '<' :: s => (.operator .less, s)
  | '|' :: '|' :: s => (.or, s)
  | '|' :: s => assignable .bitOr s
  | '&' :: '&' :: s => (.and, s)
  | '&' :: s => assignable .bitAnd s
  | '!' :: '=' :: s => (.operator .unequal, s)
  | '!' :: s => (.not, s)
  | '(' :: s => (.left, s)
  | ')' :: s => (.right, s)
  | '*' :: s => assignable .times s
  | '/' :: s => assignable .divide s
  | '%' :: s => assignable .remainder s
  | '+' :: s => assignable .plus s
  | '-' :: s => assignable .minus s
  | '~' :: s => (.complement, s)
  | '^' :: s => assignable .bitXor s
  | '?' :: s => (.question, s)
  | ':' :: s => (.colon, s)
  | c :: s =>
    if c.isDigit then
      match readInteger true (c :: s) with
      | some n => (.number n.value, n.rest)
      | none => (.unknown, c :: s)
    else if isNameStart c then
      (.variable ((c :: s).takeWhile isNameChar), (c :: s).dropWhile isNameChar)
    else (.unknown, c :: s)

/-- What is left of a sum, and what it has assigned so far. -/
structure Progress where
  ahead : Bytes
  /-- The lexeme behind the part that was worked out last. -/
  last : Lexeme := .finish
  /-- The assignments, last one first. -/
  assigned : List (Bytes × Int) := []

/-- A computation that works out a sum. -/
abbrev Sum := StateT Progress (Except Fault)

/-- The next lexeme, which is taken from the text ahead. -/
def next : Sum Lexeme := fun p =>
  let (l, ahead) := lexeme (p.ahead.dropWhile fun c => c == ' ' || c == '\t' || c == '\n')
  .ok (l, { p with ahead })

/-- The lexeme behind the part that was worked out last becomes `l`. -/
def endAt (l : Lexeme) : Sum Unit :=
  modify fun p => { p with last := l }

/-- The number that stands for a truth value. -/
def ofBool (b : Bool) : Int :=
  if b then 1 else 0

/-- The bits of a number. -/
def bits (n : Int) : BitVec 64 :=
  BitVec.ofInt 64 n

/-- The result of an operator. -/
def Operator.apply (o : Operator) (a b : Int) : Except Fault Int :=
  match o with
  | .divide =>
    if b = 0 then .error .zeroDivision
    else if a = leastInteger ∧ b = -1 then .error .overflow
    else .ok (a.tdiv b)
  | .remainder =>
    if b = 0 then .error .zeroDivision
    else if a = leastInteger ∧ b = -1 then .error .overflow
    else .ok (a.tmod b)
  | .times => .ok (wrap (a * b))
  | .plus => .ok (wrap (a + b))
  | .minus => .ok (wrap (a - b))
  | .shiftLeft => .ok ((bits a) <<< (b % 64).toNat).toInt
  | .shiftRight => .ok ((bits a).sshiftRight (b % 64).toNat).toInt
  | .less => .ok (ofBool (a < b))
  | .atMost => .ok (ofBool (a ≤ b))
  | .greater => .ok (ofBool (b < a))
  | .atLeast => .ok (ofBool (b ≤ a))
  | .equal => .ok (ofBool (a = b))
  | .unequal => .ok (ofBool (a ≠ b))
  | .bitAnd => .ok ((bits a) &&& (bits b)).toInt
  | .bitXor => .ok ((bits a) ^^^ (bits b)).toInt
  | .bitOr => .ok ((bits a) ||| (bits b)).toInt

/-- The variables that a sum sees. -/
structure Scope where
  value? : Bytes → Option Bytes
  /-- Whether a variable without a value is a fault. -/
  isStrict : Bool

/-- The number that a variable holds. -/
def lookUp (scope : Scope) (name : Bytes) : Sum Int := do
  match (← get).assigned.lookup name with
  | some n => return n
  | none =>
    match scope.value? name with
    | none => if scope.isStrict then throw (.unset name) else return 0
    | some text =>
      if text.all isBlankByte then return 0
      else
        match wholeInteger? true text with
        | some n => return n
        | none => throw (.notANumber text)

/-- The operator of a lexeme that stands between two numbers and binds more tightly than `rank`. -/
def tighter? (rank : Nat) : Lexeme → Option Operator
  | .operator o => if o.rank < rank then some o else none
  | _ => none

mutual

/-- A number with signs in front of it, where `token` is its first lexeme and `after` the second. -/
def primary (scope : Scope) : (fuel : Nat) → (skip : Bool) → (token after : Lexeme) → Sum Int
  | 0, _, _, _ => throw (.expected "primary")
  | fuel + 1, skip, token, after => do
    match token with
    | .left =>
      let n ← assignment scope fuel skip after
      if (← get).last ≠ .right then throw (.expected "')'")
      endAt (← next)
      return n
    | .number n =>
      endAt after
      return n
    | .variable name =>
      endAt after
      if skip then return 0 else lookUp scope name
    | .operator .plus => primary scope fuel skip after (← next)
    | .operator .minus => return wrap (-(← primary scope fuel skip after (← next)))
    | .not => return ofBool ((← primary scope fuel skip after (← next)) == 0)
    | .complement => return -1 - (← primary scope fuel skip after (← next))
    | _ => throw (.expected "primary")

/-- What follows a first number and an operator, as far as operators bind more tightly than
`rank`. -/
def operations (scope : Scope) : (fuel : Nat) → (skip : Bool) → (rank : Nat) → (a : Int) →
    Operator → Sum Int
  | 0, _, _, _, _ => throw (.expected "primary")
  | fuel + 1, skip, rank, a, o => do
    let token ← next
    let b ← primary scope fuel skip token (← next)
    let b ← match tighter? o.rank (← get).last with
      | some tight => operations scope fuel skip o.rank b tight
      | none => pure b
    let a ← if skip then pure b else (o.apply a b : Except Fault Int)
    match tighter? rank (← get).last with
    | some o => operations scope fuel skip rank a o
    | none => return a

/-- Numbers with operators between them. -/
def binary (scope : Scope) : (fuel : Nat) → (skip : Bool) → (token after : Lexeme) → Sum Int
  | 0, _, _, _ => throw (.expected "primary")
  | fuel + 1, skip, token, after => do
    let a ← primary scope fuel skip token after
    match tighter? rankLimit (← get).last with
    | some o => operations scope fuel skip rankLimit a o
    | none => return a

/-- Truth values that have to hold together. -/
def conjunction (scope : Scope) : (fuel : Nat) → (skip : Bool) → (token after : Lexeme) → Sum Int
  | 0, _, _, _ => throw (.expected "primary")
  | fuel + 1, skip, token, after => do
    let a ← binary scope fuel skip token after
    if (← get).last ≠ .and then return a
    let token ← next
    let b ← conjunction scope fuel (skip || a == 0) token (← next)
    return ofBool (a != 0 && b != 0)

/-- Truth values of which one has to hold. -/
def disjunction (scope : Scope) : (fuel : Nat) → (skip : Bool) → (token after : Lexeme) → Sum Int
  | 0, _, _, _ => throw (.expected "primary")
  | fuel + 1, skip, token, after => do
    let a ← conjunction scope fuel skip token after
    if (← get).last ≠ .or then return a
    let token ← next
    let b ← disjunction scope fuel (skip || a != 0) token (← next)
    return ofBool (a != 0 || b != 0)

/-- A choice between two values. -/
def conditional (scope : Scope) : (fuel : Nat) → (skip : Bool) → (token after : Lexeme) → Sum Int
  | 0, _, _, _ => throw (.expected "primary")
  | fuel + 1, skip, token, after => do
    let a ← disjunction scope fuel skip token after
    if (← get).last ≠ .question then return a
    let b ← assignment scope fuel (skip || a == 0) (← next)
    if (← get).last ≠ .colon then throw (.expected "':'")
    let token ← next
    let c ← conditional scope fuel (skip || a != 0) token (← next)
    return if a != 0 then b else c

/-- An assignment, or a value. -/
def assignment (scope : Scope) : (fuel : Nat) → (skip : Bool) → (token : Lexeme) → Sum Int
  | 0, _, _ => throw (.expected "primary")
  | fuel + 1, skip, token => do
    let after ← next
    match token, after with
    | .variable name, .assign o =>
      let n ← assignment scope fuel skip (← next)
      if skip then return n
      let n ← match o with
        | some o => do
          let old ← lookUp scope name
          (o.apply old n : Except Fault Int)
        | none => pure n
      modify fun p => { p with assigned := (name, n) :: p.assigned }
      return n
    | token, after => conditional scope fuel skip token after

end

/-- The value of a sum, and its assignments in order. -/
def evaluate (scope : Scope) (text : Bytes) : Except Fault (Int × List (Bytes × Int)) :=
  let whole : Sum Int := do
    let n ← assignment scope (8 * text.length + 16) false (← next)
    if (← get).last ≠ .finish then throw (.expected "EOF")
    return n
  (whole { ahead := text }).map fun (n, p) => (n, p.assigned.reverse)

/-- The complaint about a sum. -/
def Fault.message (text : Bytes) : Fault → Bytes
  | .expected what =>
    s!"arithmetic expression: expecting {what}: \"".toList ++ text ++ ['\x22']
  | .zeroDivision => "arithmetic expression: division by zero: \"".toList ++ text ++ ['\x22']
  | .overflow => []
  | .notANumber value => "Illegal number: ".toList ++ value
  | .unset name => name ++ ": parameter not set".toList

end SuiteScope.Shell.Arithmetic
