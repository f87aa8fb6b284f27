import SuiteScope.Shell.Expand
import SuiteScope.Shell.Installed
import SuiteScope.Shell.Printf
import SuiteScope.Shell.Shown

/-!
# Programs

The installed programs apart from the shell itself : `cat`, `echo`, `false`, `ls`, `mkdir`, `printf`,
`pwd`, `sleep` and `true`. Each is a step of the process that it runs in, and answers its exit status. It
complains under the name by which it was started.
-/

namespace SuiteScope.Shell

namespace Step

/-- All that a descriptor can read. There is nothing if it cannot be read. -/
def readAll (descriptor : Nat) : Step (Option Bytes) := do
  match ← openedAt? descriptor with
  | some (n, o) =>
    if o.isReadable then
      let bytes := (← get).world.ahead o
      changeWorld (·.advance n bytes.length [])
      return some bytes
    else return none
  | none => return none

/-- The place of the file that a descriptor stands for. -/
def placeAt? (descriptor : Nat) : Step (Option (List FileName)) := do
  match ← openedAt? descriptor with
  | some (_, ⟨.file place, _, _, _, _⟩) => return some place
  | _ => return none

end Step

namespace Program

open Step

/-- What a program is given. -/
structure Call where
  /-- The name by which the program was started. -/
  name : Bytes
  arguments : List Bytes

/-- A complaint. -/
def Call.complain (c : Call) (message : Bytes) : Step Unit := do
  let _ ← write 2 (c.name ++ [':', ' '] ++ message ++ ['\n'])

/-- A complaint about the arguments, with a hint. -/
def Call.misuse (c : Call) (message : Bytes) (status : Nat) : Step Nat := do
  c.complain message
  let _ ← write 2 ("Try '".toList ++ c.name ++ " --help' for more information.\n".toList)
  return status

/-- The end of a program that cannot write. -/
def Call.failWriting (c : Call) (status : Nat) : Step Nat := do
  c.complain "write error: Bad file descriptor".toList
  return status

/-- The end of a program that writes some bytes last. -/
def Call.finish (c : Call) (out : Bytes) (status : Nat) : Step Nat := do
  if ← write 1 out then return status else c.failWriting 1

/-! ## Options -/

/-- The options and operands among arguments. Options are letters, or words that stand for them. The
complaint is about the first one that is not known. -/
def options (letters : List Char) (words : List (String × Char)) :
    List Bytes → Except Bytes (List Char × List Bytes)
  | [] => .ok ([], [])
  | ['-', '-'] :: rest => .ok ([], rest)
  | ('-' :: '-' :: word) :: rest => do
    match words.lookup (String.ofList word) with
    | some letter =>
      let (found, operands) ← options letters words rest
      return (letter :: found, operands)
    | none => throw ("unrecognized option '--".toList ++ word ++ ['\x27'])
  | ('-' :: c :: bundle) :: rest => do
    match (c :: bundle).find? fun c => !letters.contains c with
    | some bad => throw ("invalid option -- '".toList ++ [bad, '\x27'])
    | none =>
      let (found, operands) ← options letters words rest
      return (c :: bundle ++ found, operands)
  | operand :: rest => do
    let (found, operands) ← options letters words rest
    return (found, operand :: operands)

/-! ## The program `cat` -/

/-- A byte in a form that can be printed. -/
def visible (c : Char) : Bytes :=
  let low := fun n : Nat =>
    if n < 32 then ['^', Char.ofNat (n + 64)]
    else if n = 127 then ['^', '?'] else [Char.ofNat n]
  if c.toNat < 128 then low c.toNat else 'M' :: '-' :: low (c.toNat - 128)

/-- A line in the form that options ask for, without its end. -/
def catLine (options : List Char) (line : Bytes) : Bytes :=
  line.flatMap fun c =>
    if c = '\t' then if options.contains 'T' then ['^', 'I'] else [c]
    else if options.contains 'v' then visible c else [c]

/-- The lines of a text. Each ends with a line end, except perhaps the last. -/
def textLines : Bytes → List Bytes
  | [] => []
  | c :: s =>
    if c = '\n' then [c] :: textLines s
    else
      match textLines s with
      | [] => [[c]]
      | line :: lines => (c :: line) :: lines

/-- Lines in the form that options ask for, where `number` lines have been counted and `isBlank`
tells that an empty line comes before them. -/
def catLines (options : List Char) : (number : Nat) → (isBlank : Bool) → List Bytes → List Bytes
  | _, _, [] => []
  | number, isBlank, line :: lines =>
    let isEmpty := line == ['\n']
    if isEmpty && isBlank && options.contains 's' then catLines options number true lines
    else
      let counts :=
        options.contains 'b' && !isEmpty || options.contains 'n' && !options.contains 'b'
      let digits := decimal (number + 1)
      let start := if counts then List.replicate (6 - digits.length) ' ' ++ digits ++ ['\t'] else []
      let body := catLine options (line.filter (· != '\n'))
      let ending :=
        if line.getLast? == some '\n' then if options.contains 'E' then ['$', '\n'] else ['\n']
        else []
      (start ++ body ++ ending)
        :: catLines options (if counts then number + 1 else number) isEmpty lines

/-- What one operand of `cat` adds to the text, or the complaint about it. -/
def catSource (operand : Bytes) : Step (Except Bytes Bytes) := do
  let refuse := fun (e : FileError) => Except.error (shownName true operand ++ ": ".toList
    ++ e.wording.toList)
  let target ← placeAt? 1
  let isTarget := fun (place : List FileName) (content : Bytes) =>
    target == some place && !content.isEmpty
  let full : Except Bytes Bytes :=
    .error (shownName true operand ++ ": input file is output file".toList)
  if operand = ['-'] then
    let place ← placeAt? 0
    if (place.bind (← files).top.at?).any (·.isDirectory) then return refuse .isADirectory
    match ← readAll 0 with
    | none => return .error "-: Bad file descriptor".toList
    | some content => return if place.any (isTarget · content) then full else .ok content
  else
    let fs ← files
    match fs.place (pathOf operand) with
    | .error e => return refuse e
    | .ok place =>
      match fs.top.at? place with
      | some (.directory ..) => return refuse .isADirectory
      | some (.file content _) =>
        let content := Text.spread content
        return if isTarget place content then full else .ok content
      | _ => return .ok []

/-- The options of `cat` that are words. -/
def catWords : List (String × Char) :=
  [("number", 'n'), ("number-nonblank", 'b'), ("squeeze-blank", 's'), ("show-all", 'A'),
    ("show-ends", 'E'), ("show-tabs", 'T'), ("show-nonprinting", 'v')]

/-- The options that an option of `cat` stands for. -/
def catOption : Char → List Char
  | 'A' => ['v', 'E', 'T']
  | 'e' => ['v', 'E']
  | 't' => ['v', 'T']
  | c => [c]

/-- A text in the form that options of `cat` ask for. The form of its start does not depend on what
comes after it, apart from the end of a last line. -/
def catText (options : List Char) (text : Bytes) : Bytes :=
  if options.all (· == 'u') then text else (catLines options 0 false (textLines text)).flatten

/-- The rest of the operands of `cat`, after those that have given `text`, of which `count` bytes
have been written. The result is the status. -/
def catAll (c : Call) (options : List Char) (count : Nat) (text : Bytes) (status : Nat) :
    List Bytes → Step Nat
  | [] => return status
  | operand :: rest => do
    match ← catSource operand with
    | .error message =>
      c.complain message
      catAll c options count text 1 rest
    | .ok more =>
      let text := text ++ more
      let out := catText options text
      if ← write 1 (out.drop count) then catAll c options out.length text status rest
      else c.failWriting 1

/-- The program `cat`. -/
def cat (c : Call) : Step Nat := do
  if (← openedAt? 1).isNone then
    c.complain "standard output: Bad file descriptor".toList
    return 1
  match options "benstuvAET".toList catWords c.arguments with
  | .error message => c.misuse message 1
  | .ok (found, operands) =>
    let operands := if operands.isEmpty then [['-']] else operands
    let status ← catAll c (found.flatMap catOption) 0 [] 0 operands
    if operands.contains ['-'] && (← openedAt? 0).isNone then
      c.complain "closing standard input: Bad file descriptor".toList
      return 1
    return status

/-! ## The program `ls` -/

/-- The options of `ls` that are words. -/
def lsWords : List (String × Char) :=
  [("all", 'a'), ("almost-all", 'A'), ("directory", 'd'), ("classify", 'F'), ("recursive", 'R'),
    ("reverse", 'r')]

/-- Something that `ls` lists. -/
structure Listed where
  name : Bytes
  node : Node

/-- The size by which `ls` sorts. -/
def Listed.size (l : Listed) : Nat :=
  match l.node with
  | .file content _ => content.length
  | .directory .. => 4096
  | .device _ => 0

/-- Whether one thing is listed before another, or at the same place. -/
def Listed.before (options : List Char) (a b : Listed) : Bool :=
  let byKey := fun (key : Listed → Nat) =>
    decide (key b < key a) || (key a == key b && byBytes a.name b.name)
  match options.reverse.find? fun c => ['t', 'S', 'U', 'f'].contains c with
  | some 't' => byKey fun l => l.node.modified?.getD 0
  | some 'S' => byKey Listed.size
  | some _ => true
  | none => byBytes a.name b.name

/-- Things in the order in which they are listed. -/
def arrange (options : List Char) (all : List Listed) : List Listed :=
  let sorted := all.mergeSort (Listed.before options)
  if options.contains 'r' && !options.any (fun c => c == 'U' || c == 'f') then sorted.reverse
  else sorted

/-- A name as it is listed. -/
def Listed.shown (options : List Char) (l : Listed) : Bytes :=
  let marks := options.any fun c => c == 'p' || c == 'F'
  if marks && l.node.isDirectory then l.name ++ ['/'] else l.name

/-- Names between commas, in lines of less than eighty bytes. `used` is the length of the present
line. -/
def commaLines : (used : Nat) → List Bytes → Bytes
  | _, [] => ['\n']
  | used, name :: rest =>
    if used = 0 then name ++ commaLines name.length rest
    else if used + name.length + 2 < 80 then
      [',', ' '] ++ name ++ commaLines (used + name.length + 2) rest
    else [',', '\n'] ++ name ++ commaLines name.length rest

/-- A list of names. -/
def listing (options : List Char) (all : List Listed) : Bytes :=
  let names := all.map (Listed.shown options)
  if options.contains 'm' && !names.isEmpty then commaLines 0 names
  else names.flatMap (· ++ ['\n'])

/-- What is listed of a directory. -/
def listedIn (options : List Char) (parent dir : Node) : List Listed :=
  let all := options.any fun c => c == 'a' || c == 'f'
  let dots : List Listed := if all then [⟨['.'], dir⟩, ⟨['.', '.'], parent⟩] else []
  let isShown := fun (l : Listed) => all || options.contains 'A' || l.name.head? != some '.'
  let isBackup := fun (l : Listed) => options.contains 'B' && l.name.getLast? == some '~'
  let entries := dir.entries.map fun (name, node) => (⟨Text.spread name.bytes, node⟩ : Listed)
  arrange options (dots ++ entries.filter fun l => isShown l && !isBackup l)

/-- The name of something in a directory. -/
def within (dir name : Bytes) : Bytes :=
  if dir.getLast? == some '/' then dir ++ name else dir ++ '/' :: name

/-- The listings of a directory and of the directories in it, with their headings. -/
def listingsBelow (options : List Char) : (depth : Nat) → (parent : Node) → Listed → List Bytes
  | 0, _, _ => []
  | depth + 1, parent, dir =>
    let found := listedIn options parent dir.node
    let inner := found.filter fun l => l.node.isDirectory && l.name != ['.'] && l.name != ['.', '.']
    (dir.name ++ [':', '\n'] ++ listing options found)
      :: inner.flatMap fun l =>
        listingsBelow options depth dir.node ⟨within dir.name l.name, l.node⟩

/-- How deep directories nest at most. -/
def treeDepth : Nat := 4096

/-- The listings of a directory that was asked for. -/
def listings (options : List Char) (hasHeading : Bool) (parent : Node) (dir : Listed) :
    List Bytes :=
  if options.contains 'R' then listingsBelow options treeDepth parent dir
  else
    let heading := if hasHeading then dir.name ++ [':', '\n'] else []
    [heading ++ listing options (listedIn options parent dir.node)]

/-- The program `ls`. -/
def ls (c : Call) : Step Nat := do
  match options "1aAdfFpRrtSUmBLHqN".toList lsWords c.arguments with
  | .error message => c.misuse message 2
  | .ok (found, operands) =>
    let fs ← files
    let asked := (if operands.isEmpty then [['.']] else operands).map fun name =>
      (name, fs.node (pathOf name))
    for (name, node) in asked do
      match node with
      | .error e =>
        c.complain ("cannot access ".toList ++ quotedName name ++ [':', ' '] ++ e.wording.toList)
      | .ok _ => pure ()
    let all := arrange found (asked.filterMap fun (name, node) =>
      node.toOption.map fun node => ⟨name, node⟩)
    let opens := fun (l : Listed) => l.node.isDirectory && !found.contains 'd'
    let single := all.filter fun l => !opens l
    let parent := fun (l : Listed) =>
      (fs.node (pathOf (within l.name ['.', '.']))).toOption.getD l.node
    let hasHeading := 1 < asked.length
    let below := (all.filter opens).flatMap fun l => listings found hasHeading (parent l) l
    let blocks := (if single.isEmpty then [] else [listing found single]) ++ below
    if ← write 1 (['\n'].intercalate blocks) then
      return if asked.all fun (_, node) => node.isOk then 0 else 2
    else c.failWriting 2

/-! ## The program `mkdir` -/

/-- The directory of a path is made. The result is why it could not be made. What is there already may
stay if it is a directory and `mayExist` is set. -/
def makeDirectory (mayExist : Bool) (p : Path) : Step (Option Bytes) := do
  let fs ← files
  match fs.placeToMake p with
  | .error e => return some e.wording.toList
  | .ok none =>
    let isThere := mayExist && (fs.node p).toOption.any (·.isDirectory)
    return if isThere then none else some "File exists".toList
  | .ok (some place) =>
    changeWorld fun w =>
      { w with top := w.top.put place (.directory (some w.clock) []), clock := w.clock + 1 }
    return none

/-- The directories of some paths are made, up to the first that cannot be made. The result is why it
could not be made. -/
def makeDirectories (mayExist : Bool) : List Path → Step (Option Bytes)
  | [] => return none
  | p :: rest => do
    match ← makeDirectory mayExist p with
    | some why => return some why
    | none => makeDirectories mayExist rest

/-- The path of a name, behind the paths of the directories above it. -/
def withParents (name : Bytes) : List Path :=
  let segments := (pathOf name).segments
  ((List.range segments.length).map fun n => ⟨segments.take (n + 1)⟩).filter fun p : Path =>
    !(p.segments.getLast?.all Path.isIdle)

/-- The program `mkdir`. -/
def mkdir (c : Call) : Step Nat := do
  match options ['p'] [("parents", 'p')] c.arguments with
  | .error message => c.misuse message 1
  | .ok (_, []) => c.misuse "missing operand".toList 1
  | .ok (found, operands) =>
    let results ← operands.mapM fun name => do
      let result ← if found.isEmpty then makeDirectory false (pathOf name)
        else makeDirectories true (withParents name)
      for why in result do
        c.complain ("cannot create directory ".toList ++ escapedText name ++ [':', ' '] ++ why)
      return result
    return if results.all (·.isNone) then 0 else 1

/-! ## Smaller programs -/

/-- The program `printf`. -/
def printf (c : Call) : Step Nat := do
  let arguments := if c.arguments.head? == some ['-', '-'] then c.arguments.drop 1 else c.arguments
  match arguments with
  | [] => c.misuse "missing operand".toList 1
  | format :: arguments =>
    let r := Printf.run .program format arguments
    let isWritten ← r.events.allM fun event => do
      match event with
      | .text s => write 1 s
      | .warning message =>
        c.complain message
        return true
    for message in r.fault do c.complain message
    if !isWritten then c.failWriting 1
    else return if r.fault.isSome then 1 else r.status

/-- The program `pwd`. -/
def pwd (c : Call) : Step Nat := do
  match options ['L', 'P'] [("logical", 'L'), ("physical", 'P')] c.arguments with
  | .error message => c.misuse message 1
  | .ok (found, operands) =>
    if !operands.isEmpty then c.complain "ignoring non-option arguments".toList
    let fs ← files
    let physical := Text.spread fs.workingDirectory.toBytes
    let named := ((← process).bindings.lookup "PWD".toList).bind fun v =>
      v.value.filter fun _ => v.isExported
    let logical := named.filter fun name =>
      name.head? == some '/' && (fs.place (pathOf name)).toOption == some fs.here
    let shown := if found.getLast? == some 'L' then logical.getD physical else physical
    c.finish (shown ++ ['\n']) 0

/-- The units of time that stand behind a number, in seconds. -/
def timeUnits : List (String × Nat) :=
  [("", 1), ("s", 1), ("m", 60), ("h", 3600), ("d", 86400)]

/-- The length of time that a text is, in millionths of a second. -/
def interval? (s : Bytes) : Option Nat :=
  match Binary.read? .extended s with
  | some ⟨.finite false m e, _, rest⟩ =>
    let (a, b) := Binary.powerOfTwo e
    (timeUnits.lookup (String.ofList rest)).map fun unit =>
      min timeLimit (m * a * unit * 1000000 / b)
  | some ⟨.infinite false, _, rest⟩ =>
    (timeUnits.lookup (String.ofList rest)).map fun _ => timeLimit
  | _ => none

/-- The program `sleep`. -/
def sleep (c : Call) : Step Nat := do
  match options [] [] c.arguments with
  | .error message => c.misuse message 1
  | .ok (_, []) => c.misuse "missing operand".toList 1
  | .ok (_, operands) =>
    match operands.find? fun s => (interval? s).isNone with
    | some s => c.misuse ("invalid time interval ".toList ++ escapedText s) 1
    | none =>
      let time := (operands.filterMap interval?).foldl (· + ·) 0
      goToTime ((← get).world.now + time)
      return 0

end Program

/-- The program of a name, unless it is the shell. -/
def program? (name : String) : Option (Program.Call → Step Nat) :=
  match name with
  | "cat" => some Program.cat
  | "echo" => some fun c => c.finish (echoProgram c.arguments) 0
  | "false" => some fun _ => return 1
  | "ls" => some Program.ls
  | "mkdir" => some Program.mkdir
  | "printf" => some Program.printf
  | "pwd" => some Program.pwd
  | "sleep" => some Program.sleep
  | "true" => some fun _ => return 0
  | _ => none

end SuiteScope.Shell
