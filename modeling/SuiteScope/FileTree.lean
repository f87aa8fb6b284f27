import SuiteScope.Error
import SuiteScope.Text.Utf8

/-!
# File trees

A file tree is a directory of files and directories. A place in it is a list of names from the top
down. `FileSystem` adds the directory from which relative paths are read, and reads paths the way an
operating system does : step by step, so that every step but the last has to meet a directory, and
`..` leaves the directory that has been reached.

Names are bytes, and a path that is read is bytes as well. It is assumed that there are no links, and no
permissions : whoever asks may enter every directory and read every file, so that nothing that is read
here fails with `FileError.permissionDenied`. A file that may not be read is to be taken for one that is
missing or holds no text, which the programs above this module do not tell from it.
-/

namespace SuiteScope

/-- A file with its bytes and the time of its last change, a directory with its entries, or a
device that reads as empty and forgets what is written to it. -/
inductive Node
  | file (content : List UInt8) (modified : Nat)
  | directory (modified : Option Nat) (entries : List (FileName × Node))
  | device (modified : Nat)
  deriving Inhabited

namespace Node

/-- Whether a node is a file. -/
def isFile : Node → Bool
  | .file .. => true
  | .directory .. | .device _ => false

/-- Whether a node is a directory. -/
def isDirectory : Node → Bool
  | .directory .. => true
  | .file .. | .device _ => false

/-- When a node was changed last, if that is known. -/
def modified? : Node → Option Nat
  | .file _ modified | .device modified => some modified
  | .directory modified _ => modified

/-- The entries of a directory. -/
def entries : Node → List (FileName × Node)
  | .directory _ entries => entries
  | .file .. | .device _ => []

mutual

/-- The latest time at which something in a tree was changed. -/
def latest : Node → Nat
  | .file _ modified | .device modified => modified
  | .directory modified entries => max (modified.getD 0) (latestIn entries)

/-- The latest time at which something in the entries of a directory was changed. -/
def latestIn : List (FileName × Node) → Nat
  | [] => 0
  | entry :: entries => max (latestOf entry) (latestIn entries)

/-- The latest time at which something in an entry of a directory was changed. -/
def latestOf : FileName × Node → Nat
  | (_, node) => node.latest

end

mutual

/-- The files of a tree, each with its place and its bytes. -/
def files : Node → List (List FileName × List UInt8)
  | .file content _ => [([], content)]
  | .directory _ entries => filesIn entries
  | .device _ => []

/-- The files in the entries of a directory. -/
def filesIn : List (FileName × Node) → List (List FileName × List UInt8)
  | [] => []
  | entry :: entries => filesOf entry ++ filesIn entries

/-- The files in an entry of a directory. -/
def filesOf : FileName × Node → List (List FileName × List UInt8)
  | (name, node) => node.files.map fun (place, content) => (name :: place, content)

end

/-- The entry of a name. -/
def child? (n : Node) (name : FileName) : Option Node :=
  n.entries.lookup name

/-- The node at a place below `n`. -/
def at? : (n : Node) → (place : List FileName) → Option Node
  | n, [] => some n
  | n, name :: place => (n.child? name).bind (·.at? place)

/-- The entries with one of them changed by `f`, which is told what was there. -/
def alterEntries (f : Option Node → Option Node) (name : FileName) :
    List (FileName × Node) → List (FileName × Node)
  | [] => (f none).toList.map (name, ·)
  | (n, node) :: rest =>
    if n = name then (f (some node)).toList.map (name, ·) ++ rest
    else (n, node) :: alterEntries f name rest

/-- The tree with the node at a place changed by `f`. Directories that lack on the way are made,
and the time of the directory that holds the node is forgotten when an entry comes or goes. -/
def alter (f : Option Node → Option Node) : (place : List FileName) → (n : Option Node) → Option Node
  | [], n => f n
  | name :: place, n =>
    let dir := n.getD (.directory none [])
    let entries := alterEntries (alter f place) name dir.entries
    let modified := if entries.length = dir.entries.length then dir.modified? else none
    some (.directory modified entries)

/-- The tree with a node put at a place. A directory put on a directory keeps its entries. -/
def put (n : Node) (place : List FileName) (node : Node) : Node :=
  let place? := fun old : Option Node =>
    match node, old with
    | .directory modified [], some (.directory _ entries) => some (.directory modified entries)
    | node, _ => some node
  (alter place? place (some n)).getD n

/-- The tree without the node at a place. -/
def erase (n : Node) (place : List FileName) : Node :=
  if (n.at? place).isSome then (alter (fun _ => none) place (some n)).getD n else n

end Node

/-- A file tree, and the place from which relative paths are read. -/
structure FileSystem where
  top : Node
  here : List FileName

namespace FileSystem

/-- The number of bytes that one name may have. -/
def nameLimit : Nat := 255

/-- The number of bytes that a path has less than. -/
def pathLimit : Nat := 4096

/-- The place that is reached from `place` through the segments of a path. -/
def walk (top : Node) : (place : List FileName) → (segments : List FileName) →
    Except FileError (List FileName)
  | place, [] => .ok place
  | place, segment :: segments =>
    match top.at? place with
    | some (.directory ..) =>
      if Path.isIdle segment then walk top place segments
      else if segment = .dots then walk top place.dropLast segments
      else if nameLimit < segment.bytes.length then .error .nameTooLong
      else if (top.at? (place ++ [segment])).isSome then walk top (place ++ [segment]) segments
      else .error .notFound
    | _ => .error .notADirectory

/-- The place that a path names. -/
def place (fs : FileSystem) (p : Path) : Except FileError (List FileName) :=
  if p.segments.any (·.bytes.contains 0) then .error .nulInName
  else if p.segments.all (· == .empty) && !p.isAbsolute then .error .notFound
  else if pathLimit ≤ p.toBytes.length then .error .nameTooLong
  else walk fs.top (if p.isAbsolute then [] else fs.here) p.segments

/-- The node that a path names. -/
def node (fs : FileSystem) (p : Path) : Except FileError Node :=
  match fs.place p with
  | .error e => .error e
  | .ok place =>
    match fs.top.at? place with
    | some node => .ok node
    | none => .error .notFound

/-- The place of the file that a path names, or would name if the file were there. -/
def placeToWrite (fs : FileSystem) (p : Path) : Except FileError (List FileName) :=
  if p.segments.all (· == .empty) && !p.isAbsolute then .error .notFound
  else if pathLimit ≤ p.toBytes.length then .error .nameTooLong
  else
    match p.segments.reverse.dropWhile (· == .empty) with
    | [] => .error .isADirectory
    | name :: above =>
      let directory := walk fs.top (if p.isAbsolute then [] else fs.here) above.reverse
      match directory.map fun place => (place, fs.top.at? place) with
      | .error e => .error e
      | .ok (place, some (.directory ..)) =>
        if Path.isIdle name || name == .dots || p.segments.getLast? == some .empty then
          .error .isADirectory
        else if nameLimit < name.bytes.length then .error .nameTooLong
        else if (fs.top.at? (place ++ [name])).any (·.isDirectory) then .error .isADirectory
        else .ok (place ++ [name])
      | .ok _ => .error .notADirectory

/-- The place of the directory that a path would name if it were made. There is none if something is
there. -/
def placeToMake (fs : FileSystem) (p : Path) : Except FileError (Option (List FileName)) :=
  if p.segments.all (· == .empty) && !p.isAbsolute then .error .notFound
  else if pathLimit ≤ p.toBytes.length then .error .nameTooLong
  else
    match p.segments.reverse.dropWhile (· == .empty) with
    | [] => .ok none
    | name :: above =>
      let directory := walk fs.top (if p.isAbsolute then [] else fs.here) above.reverse
      match directory.map fun place => (place, fs.top.at? place) with
      | .error e => .error e
      | .ok (place, some (.directory ..)) =>
        if Path.isIdle name || name == .dots then .ok none
        else if nameLimit < name.bytes.length then .error .nameTooLong
        else if (fs.top.at? (place ++ [name])).isSome then .ok none
        else .ok (some (place ++ [name]))
      | .ok _ => .error .notADirectory

/-- Whether a path names a file. -/
def isFile (fs : FileSystem) (p : Path) : Bool :=
  match fs.node p with
  | .ok node => node.isFile
  | .error _ => false

/-- The text of the file that a path names. -/
def readText (fs : FileSystem) (p : Path) : Except FileError String :=
  match fs.node p with
  | .error e => .error e
  | .ok (.directory ..) => .error .isADirectory
  | .ok (.device _) => .ok ""
  | .ok (.file content _) =>
    match Text.decode? content with
    | some text => .ok text
    | none => .error .notText

/-- The path of the directory from which relative paths are read. -/
def workingDirectory (fs : FileSystem) : Path :=
  .ofComponents (.root :: fs.here.map .name)

end FileSystem

end SuiteScope
