import SuiteScope.Shell.Lookup

/-!
# Commands about the directory and the limits of a process

`cd`, `pwd`, `umask` and `ulimit`. A shell knows its directory by a name, which keeps the way by
which the directory was reached, and `cd` works on that name unless it is told not to.
-/

namespace SuiteScope.Shell.Builtin

open Step

/-! ## Directories -/

/-- The slashes that an absolute name starts with. Two of them are kept, but three are one. -/
def rootOf : Bytes → Bytes
  | '/' :: '/' :: '/' :: _ => ['/']
  | '/' :: '/' :: _ => ['/', '/']
  | _ => ['/']

/-- The names in a path, as far as they are left when dots are carried out. -/
def namesOf (start : List Bytes) (path : Bytes) : List Bytes :=
  ((Path.splitAt '/' path).foldl
    (fun names part =>
      if part.isEmpty || part == ['.'] then names
      else if part == ['.', '.'] then names.drop 1
      else part :: names)
    start.reverse).reverse

/-- The name of the directory that a path leads to from the directory of a name. -/
def directoryName (now path : Bytes) : Bytes :=
  let isAbsolute := path.head? == some '/'
  let root := rootOf (if isAbsolute then path else now)
  let start := if isAbsolute then [] else namesOf [] now
  root ++ ['/'].intercalate (namesOf start path)

/-- The shell goes to a directory. The result tells whether it is there. -/
def enter (byWay : Bool) (path : Bytes) : Step Bool := do
  let p ← process
  let fs ← files
  let name := directoryName p.directory path
  match fs.place (pathOf (if byWay then name else path)) with
  | .error _ => return false
  | .ok place =>
    if !(fs.top.at? place).any (·.isDirectory) then return false
    let physical := Text.spread (⟨fs.top, place⟩ : FileSystem).workingDirectory.toBytes
    let name := if byWay then name else physical
    let found := p.found.map fun (command, known) => (command, { known with isOld := true })
    change fun p => { p with here := place, found }
    setVariable "OLDPWD".toList (some p.directory) true
    change fun p => { p with directory := name }
    setVariable "PWD".toList (some name) true
    return true

/-- Whether a path is not looked for in other directories. -/
def isFixed (path : Bytes) : Bool :=
  path.head? == some '/'
    || [['.'], ['.', '.']].contains (path.takeWhile (· != '/'))

/-- The directories that `cd` tries for a path, with a mark on those whose name is told. -/
def destinations (searched : Option Bytes) (path : Bytes) : List (Bytes × Bool) :=
  match searched.filter fun _ => !isFixed path with
  | none => [(path, false)]
  | some searched =>
    let path := if path.isEmpty then ['.'] else path
    (Path.splitAt ':' searched).map (fun dir =>
      if dir.isEmpty then (path, false) else (dir ++ '/' :: path, true)) ++ [(path, false)]

/-- The command `cd`. -/
def cd (arguments : List Bytes) : Step Nat := do
  let (options, operands) ← takeOptions "LP" arguments
  let isBack := operands.head? == some ['-']
  let path ← match operands with
    | [] => value? "HOME".toList
    | path :: _ => if isBack then value? "OLDPWD".toList else pure (some path)
  let path := path.getD []
  let fs ← files
  let choices := destinations (← value? "CDPATH".toList) path
  let isThere := fun (choice : Bytes × Bool) =>
    (fs.node (pathOf choice.1)).toOption.any (·.isDirectory)
  let last := if path.isEmpty then ['.'] else path
  let (chosen, isTold) := (choices.find? isThere).getD (last, false)
  if !(← enter (options.getLast?.all (·.1 != 'P')) chosen) then
    fail ("can't cd to ".toList ++ path)
  if isTold || isBack then say ((← process).directory ++ ['\n'])
  return 0

/-- The command `pwd`. -/
def pwd (arguments : List Bytes) : Step Nat := do
  let (options, _) ← takeOptions "LP" arguments
  let physical := Text.spread (← files).workingDirectory.toBytes
  let named := (← process).directory
  say ((if options.getLast?.any (·.1 == 'P') then physical else named) ++ ['\n'])
  return 0

/-! ## Masks -/

/-- The letters of permissions, with their bits. -/
def permissionBits : List (Char × Nat) := [('r', 4), ('w', 2), ('x', 1)]

/-- The letters of the bits of one digit of a mask that are not set. -/
def permissionLetters (digit : Nat) : Bytes :=
  permissionBits.filterMap fun (letter, bit) => if digit / bit % 2 = 0 then some letter else none

/-- The digits of a mask : those of the owner, of the group and of others. -/
def maskDigits (mask : Nat) : List Nat :=
  [mask / 64 % 8, mask / 8 % 8, mask % 8]

/-- The mask of three digits. -/
def ofMaskDigits : List Nat → Nat
  | [u, g, o] => 64 * u + 8 * g + o
  | _ => 0

/-- One digit of permissions after a clause. -/
def applyClause (operator : Char) (bits now : Nat) : Nat :=
  match operator with
  | '+' => now ||| bits
  | '-' => now &&& (7 - bits)
  | _ => bits

/-- The permissions after a clause such as `go-w`, if it is one. -/
def clause? (now : List Nat) (s : Bytes) : Option (List Nat) :=
  let who := s.takeWhile fun c => ['u', 'g', 'o', 'a'].contains c
  let isMeant := fun c => who.isEmpty || who.contains 'a' || who.contains c
  match s.drop who.length with
  | operator :: letters => do
    if !(['+', '-', '='].contains operator) then none
    let bits ← letters.mapM fun c =>
      (permissionBits.lookup c).or (match c with
        | 'u' => now[0]?
        | 'g' => now[1]?
        | 'o' => now[2]?
        | 'X' => some 1
        | 's' | 't' => some 0
        | _ => none)
    let all := bits.foldl (· ||| ·) 0
    return (now.zip ['u', 'g', 'o']).map fun (digit, c) =>
      if isMeant c then applyClause operator all digit else digit
  | [] => none

/-- The mask that a text stands for. -/
def maskOf (now : Nat) (s : Bytes) : Step Nat := do
  if s.head?.any Char.isDigit then
    let (n, rest) := digitRun 8 0 s
    if rest.isEmpty then return n % 512 else failNumber s
  else
    let clauses := Path.splitAt ',' s
    let given := (maskDigits now).map (7 - ·)
    match clauses.foldlM clause? given with
    | some digits => return ofMaskDigits (digits.map (7 - ·))
    | none => fail ("Illegal mode: ".toList ++ s)

/-- The command `umask`. -/
def umask (arguments : List Bytes) : Step Nat := do
  let (options, operands) ← takeOptions "S" arguments
  let now := (← process).umask
  match operands with
  | [] =>
    if options.isEmpty then say ('0' :: (maskDigits now).flatMap decimalDigit ++ ['\n'])
    else
      let parts := (maskDigits now).zip ['u', 'g', 'o'] |>.map fun (digit, c) =>
        c :: '=' :: permissionLetters digit
      say ([','].intercalate parts ++ ['\n'])
  | s :: _ =>
    let mask ← maskOf now s
    change fun p => { p with umask := mask }
  return 0
where
  decimalDigit (n : Nat) : Bytes := decimal n

/-! ## Limits -/

/-- The limits of a process : a letter, a name and the value. -/
def limits : List (Char × String × String) :=
  [('t', "time(seconds)", "unlimited"), ('f', "file(blocks)", "unlimited"),
    ('d', "data(kbytes)", "unlimited"), ('s', "stack(kbytes)", "8192"),
    ('c', "coredump(blocks)", "0"), ('m', "memory(kbytes)", "unlimited"),
    ('l', "locked memory(kbytes)", "8192"), ('p', "process", "unlimited"),
    ('n', "nofiles", "1048576"), ('v', "vmemory(kbytes)", "unlimited"),
    ('w', "locks", "unlimited"), ('r', "rtprio", "0")]

/-- The command `ulimit`. Limits are shown and cannot be changed. -/
def ulimit (arguments : List Bytes) : Step Nat := do
  let (options, operands) ← takeOptions "HSatfdscmlpnvwr" arguments
  let letters := (options.map (·.1)).filter fun c => c != 'H' && c != 'S'
  if letters.contains 'a' then
    for (_, name, value) in limits do
      let blanks := List.replicate (20 - name.length) ' '
      say (name.toList ++ blanks ++ ' ' :: value.toList ++ ['\n'])
  else if operands.isEmpty then
    match limits.lookup (letters.getLast?.getD 'f') with
    | some (_, value) => say (value.toList ++ ['\n'])
    | none => return 0
  return 0

end SuiteScope.Shell.Builtin
