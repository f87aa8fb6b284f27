import SuiteScope.Shell.Escape
import SuiteScope.Shell.Layout
import SuiteScope.Shell.Shown

/-!
# The command `printf`

`Printf.run` writes its arguments by a format, which is used again as long as it takes arguments and
some are left. An argument that is missing counts as empty, and one that is no number as far as it
is one. The command of the shell and the program differ in their wording and in some conversions.
-/

namespace SuiteScope.Shell.Printf

/-- A part of what is written. -/
inductive Event
  | text (bytes : Bytes)
  /-- A complaint, after which writing goes on. -/
  | warning (message : Bytes)
  deriving DecidableEq, Repr

/-- Events with the texts between two warnings put together. -/
def Event.joined : List Event → List Event
  | [] => []
  | .warning message :: rest => .warning message :: joined rest
  | .text s :: rest =>
    match joined rest with
    | .text t :: more => .text (s ++ t) :: more
    | more => .text s :: more

/-- What has been written so far, last part first, and what is left of the arguments. -/
structure Progress where
  arguments : List Bytes
  events : List Event := []
  status : Nat := 0
  /-- Whether an argument has been taken since the format was begun. -/
  hasTaken : Bool := false

/-- Why writing ends before the format does. -/
inductive Halt
  | stop
  | fault (message : Bytes)

/-- A computation that writes by a format. -/
abbrev Writing := ExceptT Halt (StateM Progress)

/-- Bytes are written. -/
def put (s : Bytes) : Writing Unit :=
  modify fun p => { p with events := .text s :: p.events }

/-- A complaint that lets writing go on. -/
def warn (message : Bytes) : Writing Unit :=
  modify fun p => { p with events := .warning message :: p.events, status := 1 }

/-- The next argument, if there is one. -/
def take : Writing (Option Bytes) := do
  match (← get).arguments with
  | [] => return none
  | s :: rest =>
    modify fun p => { p with arguments := rest, hasTaken := true }
    return some s

/-- The complaint about a number that was not read as a whole. -/
def check (d : Dialect) (s : Bytes) (isNumber fits : Bool) (rest : Bytes) : Writing Unit :=
  let range := "Numerical result out of range".toList
  match d with
  | .builtin =>
    if !isNumber && !s.isEmpty then warn (s ++ ": expected numeric value".toList)
    else if !rest.isEmpty then warn (s ++ ": not completely converted".toList)
    else if !fits then warn (s ++ [':', ' '] ++ range)
    else pure ()
  | .program =>
    if !fits then warn (escapedText s ++ [':', ' '] ++ range)
    else if !isNumber && !s.isEmpty then warn (escapedText s ++ ": expected a numeric value".toList)
    else if !rest.isEmpty then warn (escapedText s ++ ": value not completely converted".toList)
    else pure ()

/-- The code of the byte behind a quote, if an argument is one. -/
def character? (d : Dialect) (s : Bytes) : Writing (Option Nat) := do
  match s with
  | q :: rest =>
    if q ≠ '\x27' ∧ q ≠ '\x22' then return none
    else
      match rest, d with
      | [], .builtin => return some 0
      | [], .program => return none
      | [c], _ | c :: _, .builtin => return some c.toNat
      | c :: more, .program =>
        let message := "warning: ".toList ++ more
          ++ ": character(s) following character constant have been ignored".toList
        modify fun p => { p with events := .warning message :: p.events }
        return some c.toNat
  | [] => return none

/-- The next argument as a whole number between two bounds. -/
def integer (d : Dialect) (low high : Int) : Writing Int := do
  match ← take with
  | none => return 0
  | some s =>
    match ← character? d s with
    | some n => return n
    | none =>
      match readIntegerIn low high true s with
      | some n =>
        check d s true n.fits n.rest
        return n.value
      | none =>
        check d s false true s
        return 0

/-- The next argument as a whole number without a sign. A negative number wraps around. -/
def natural (d : Dialect) : Writing Nat := do
  let n ← integer d (1 - wordCount) (wordCount - 1)
  return (n % wordCount).toNat

/-- The next argument as a binary number. -/
def binary (d : Dialect) : Writing Binary := do
  let size := if d = .builtin then BinarySize.double else .extended
  match ← take with
  | none => return .finite false 0 0
  | some s =>
    match ← character? d s with
    | some n => return .finite false n 0
    | none =>
      match Binary.read? size s with
      | some r =>
        check d s true r.fits r.rest
        return r.value
      | none =>
        check d s false true s
        return .finite false 0 0

/-- Widths and precisions lie below this. -/
def sizeBound : Nat := Nat.pow 2 31

/-- The next argument as a width or precision, which `what` says. The program refuses numbers that
are too large, except for a negative precision, which counts as none. -/
def sizeArgument (d : Dialect) (what : String) : Writing Int := do
  let text := (← get).arguments.headD []
  let n ← integer d leastInteger greatestInteger
  let bound : Int := sizeBound
  match d with
  | .builtin => return (n + bound) % (2 * bound) - bound
  | .program =>
    if what = "precision" && n < 0 then return -1
    if n < -bound ∨ bound ≤ n then
      throw (.fault (s!"invalid {what}: ".toList ++ escapedText text))
    return n

/-! ## Conversions -/

/-- The flags at the start of a conversion, and what follows them. -/
def flags (s : Bytes) : Layout × Bytes × Bytes :=
  let isFlag := fun c => ['#', '-', '+', ' ', '0'].contains c
  let found := s.takeWhile isFlag
  ({ left := found.contains '-'
     plus := found.contains '+'
     blank := found.contains ' '
     full := found.contains '#'
     zeros := found.contains '0' }, found, s.dropWhile isFlag)

/-- A width or precision, and what follows it. `what` is what the program calls it. -/
def size (d : Dialect) (what : String) (s : Bytes) : Writing (Option Int × Bytes) := do
  match s with
  | '*' :: rest => return (some (← sizeArgument d what), rest)
  | s =>
    let (n, rest) := digitRun 10 0 s
    if d = .program && sizeBound ≤ n then throw (.fault "write error".toList)
    return (if rest.length = s.length then none else some n, rest)

/-- The layout of a conversion, whether it has a precision, and what follows it. -/
def layout (d : Dialect) (s : Bytes) : Writing (Layout × Bool × Bytes) := do
  let (l, _, s) := flags s
  let (width, s) ← size d "field width" s
  let width := width.getD 0
  let l := { l with left := l.left || width < 0, width := width.natAbs }
  match s with
  | '.' :: s =>
    let (precision, s) ← size d "precision" s
    let precision := precision.getD 0
    return ({ l with precision := if precision < 0 then none else some precision.toNat }, true, s)
  | s => return (l, false, s)

/-- Text with its escapes replaced, which may end all output. -/
def putEscaped (d : Dialect) (l : Layout) (s : Bytes) : Writing Unit := do
  let r := Escape.replace (Escape.inText d) s
  put (l.text r.bytes)
  match r.fault with
  | some message => throw (.fault message)
  | none => if r.isEnded then throw .stop

/-- The value of a conversion is written. -/
def convert (d : Dialect) (l : Layout) (kind : Char) : Writing Bool := do
  let binarySize := if d = .builtin then BinarySize.double else .extended
  if kind = 's' then
    put (l.text ((← take).getD []))
    return true
  else if kind = 'c' then
    let c := match ← take with
      | some (c :: _) => c
      | _ => '\x00'
    put ({ l with precision := none }.text [c])
    return true
  else if kind = 'd' ∨ kind = 'i' then
    put (l.signed (← integer d leastInteger greatestInteger))
    return true
  else if ['o', 'u', 'x', 'X'].contains kind then
    put (l.unsigned kind (← natural d))
    return true
  else if ['a', 'A', 'e', 'E', 'f', 'F', 'g', 'G'].contains kind then
    put (l.real binarySize kind (← binary d))
    return true
  else return false

/-- The letters that do not go with the flags of a conversion of the program. -/
def isRefused (given : Bytes) (hasPrecision : Bool) (kind : Char) : Bool :=
  (given.contains '#' && ['c', 'd', 'i', 's', 'u'].contains kind)
    || (given.contains '0' && ['c', 's'].contains kind)
    || (hasPrecision && kind == 'c')

/-- A conversion, where `s` follows the percent sign. The result is what follows the conversion. -/
def conversion (d : Dialect) (s : Bytes) : Writing Bytes := do
  let shown := fun (rest : Bytes) => '%' :: s.take (s.length - rest.length)
  match d, s with
  | .program, 'b' :: rest =>
    putEscaped d {} ((← take).getD [])
    return rest
  | .program, 'q' :: rest =>
    for s in ← take do put (shownName false s)
    return rest
  | d, s =>
    let (_, given, _) := flags s
    let (l, hasPrecision, rest) ← layout d s
    match d, rest with
    | .builtin, [] => throw (.fault "missing format character".toList)
    | .builtin, 'b' :: rest =>
      putEscaped d l ((← take).getD [])
      return rest
    | .builtin, kind :: rest =>
      if !(← convert d l kind) then throw (.fault (shown rest ++ ": invalid directive".toList))
      return rest
    | .program, rest =>
      let rest := rest.dropWhile fun c => ['l', 'L', 'h', 'j', 't', 'z'].contains c
      let invalid := fun (rest : Bytes) =>
        Halt.fault (shown rest ++ ": invalid conversion specification".toList)
      match rest with
      | [] => throw (invalid [])
      | kind :: rest =>
        if isRefused given hasPrecision kind then throw (invalid rest)
        if !(← convert d l kind) then throw (invalid rest)
        return rest

/-- The rest of a format is written. -/
def format (d : Dialect) : (fuel : Nat) → Bytes → Writing Unit
  | 0, _ | _, [] => return
  | fuel + 1, c :: s => do
    if c = '\\' then
      match Escape.inFormat d s with
      | .bytes written rest =>
        put written
        format d fuel rest
      | .stop => throw .stop
      | .fault message => throw (.fault message)
    else if c = '%' then
      match s with
      | '%' :: s =>
        put ['%']
        format d fuel s
      | s => format d fuel (← conversion d s)
    else
      put [c]
      format d fuel s

/-- A format is written, again and again while it takes arguments and some are left. -/
def formats (d : Dialect) (text : Bytes) : (fuel : Nat) → Writing Unit
  | 0 => return
  | fuel + 1 => do
    modify fun p => { p with hasTaken := false }
    format d (text.length + 1) text
    let p ← get
    if p.hasTaken && !p.arguments.isEmpty then formats d text fuel

/-- What is written by a format. -/
structure Printed where
  events : List Event
  /-- The complaint that ended writing. -/
  fault : Option Bytes
  status : Nat

/-- What is written of arguments by a format. An escape that ends all output makes up for the
warnings of the program. -/
def run (d : Dialect) (text : Bytes) (arguments : List Bytes) : Printed :=
  let (halt, p) := (formats d text (arguments.length + 1)).run.run { arguments }
  let excess :=
    match halt, d, p.arguments with
    | .ok (), .program, s :: _ =>
      let message := "warning: ignoring excess arguments, starting with ".toList
      [Event.warning (message ++ escapedText s)]
    | _, _, _ => []
  let fault := match halt with
    | .error (.fault message) => some message
    | _ => none
  let status := match halt, d with
    | .error .stop, .program => 0
    | _, _ => p.status
  ⟨Event.joined (p.events.reverse ++ excess), fault, status⟩

end SuiteScope.Shell.Printf
