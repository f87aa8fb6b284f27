import SuiteScope.FileTree
import SuiteScope.Shell.Syntax
import SuiteScope.Text.Byte

/-!
# What processes share

A `World` is what all processes of a script act on : the file tree, the files that are open, pipes,
and what has been written to the outputs that are captured. One process runs at a time, up to its
end. Processes that would run side by side each start at the same time `now`, and what they write
carries the time, so that it can be put in order afterwards. A process that writes to a pipe has
ended before the one that reads from it starts.
-/

namespace SuiteScope.Shell

/-- What an open file leads to. -/
inductive Target
  /-- Nothing is read, and what is written is forgotten. -/
  | nothing
  | out
  | err
  | file (place : List FileName)
  | pipe (number : Nat)
  deriving DecidableEq, Repr, Inhabited

/-- An open file, with the place in it where reading or writing goes on. -/
structure Opened where
  target : Target
  offset : Nat := 0
  isReadable : Bool
  isWritable : Bool
  appends : Bool := false
  deriving Repr, Inhabited

/-- Bytes that have been written. -/
structure Part where
  /-- The time at which they were written. -/
  time : Nat
  /-- The process that has written them. -/
  writer : Nat
  /-- Whether they went to the second of the captured outputs. -/
  isError : Bool := false
  bytes : Bytes

/-- Parts in the order of their times. Of those with the same time, the one that comes first in the
list was written last. -/
def Part.inOrder (parts : List Part) : List Part :=
  parts.reverse.mergeSort fun a b => a.time ≤ b.time

/-- The time of the last of some parts, or `time` if that is later. -/
def Part.latest (time : Nat) (parts : List Part) : Nat :=
  parts.foldl (fun time part => max time part.time) time

/-- The bytes that wait in a pipe : those at its front, and what was written since, last part
first. -/
structure Pipe where
  front : Bytes := []
  written : List Part := []
  deriving Inhabited

/-- All bytes that wait in a pipe. -/
def Pipe.ahead (p : Pipe) : Bytes :=
  if p.written.isEmpty then p.front else p.front ++ (Part.inOrder p.written).flatMap (·.bytes)

/-- A signal on its way to a process. -/
structure Sent where
  target : Nat
  signal : Nat
  /-- The time at which it was sent. -/
  time : Nat
  deriving DecidableEq, Repr

/-- What processes share. -/
structure World where
  top : Node
  /-- The time that the next change of a file gets. -/
  clock : Nat
  /-- For how long the processes have run, in millionths of a second. -/
  now : Nat := 0
  opened : Array Opened := #[]
  pipes : Array Pipe := #[]
  /-- What was written to the captured outputs, last part first. -/
  captured : List Part := []
  /-- The number of the process that was started last. -/
  lastProcess : Nat
  /-- The processes that have not ended. -/
  living : List Nat
  signals : List Sent := []
  /-- The texts of redirections, by their numbers. -/
  texts : Array Word := #[]

namespace World

/-- The bytes of the file at a place. -/
def content (w : World) (place : List FileName) : List UInt8 :=
  match w.top.at? place with
  | some (.file content _) => content
  | _ => []

/-- The world with the bytes of the file at a place replaced. -/
def putContent (w : World) (place : List FileName) (content : List UInt8) : World :=
  { w with top := w.top.put place (.file content w.clock), clock := w.clock + 1 }

/-- The bytes that an open file can read from here on. -/
def ahead (w : World) (o : Opened) : Bytes :=
  match o.target with
  | .file place => Text.spread ((w.content place).drop o.offset)
  | .pipe n => (w.pipes.getD n {}).ahead
  | _ => []

/-- The world after an open file has read some bytes, of which `rest` is what it can still read. The
bytes of a pipe come no earlier than they were written. -/
def advance (w : World) (number : Nat) (count : Nat) (rest : Bytes) : World :=
  match w.opened[number]? with
  | some ⟨.pipe n, _, _, _, _⟩ =>
    { w with
      pipes := w.pipes.setIfInBounds n ⟨rest, []⟩
      now := Part.latest w.now (w.pipes.getD n {}).written }
  | some o =>
    { w with opened := w.opened.setIfInBounds number { o with offset := o.offset + count } }
  | none => w

/-- Bytes with others laid over them from an offset on. -/
def overlay (content : List UInt8) (offset : Nat) (bytes : List UInt8) : List UInt8 :=
  content.take offset ++ List.replicate (offset - content.length) 0 ++ bytes
    ++ content.drop (offset + bytes.length)

/-- The world after a process has written bytes to an open file. -/
def write (w : World) (writer number : Nat) (bytes : Bytes) : World :=
  let part : Part := { time := w.now, writer, bytes }
  match w.opened[number]? with
  | none => w
  | some o =>
    match o.target with
    | .nothing => w
    | .out => { w with captured := part :: w.captured }
    | .err => { w with captured := { part with isError := true } :: w.captured }
    | .pipe n =>
      let p := w.pipes.getD n {}
      { w with pipes := w.pipes.setIfInBounds n { p with written := part :: p.written } }
    | .file place =>
      let content := w.content place
      let offset := if o.appends then content.length else o.offset
      let w := w.putContent place (overlay content offset (Text.gather bytes))
      { w with opened := w.opened.setIfInBounds number { o with offset := offset + bytes.length } }

/-- The number of one more open file, and the world with it. -/
def add (w : World) (o : Opened) : Nat × World :=
  (w.opened.size, { w with opened := w.opened.push o })

/-- The numbers of the ends of one more pipe, that for reading and that for writing, and the world
with it. -/
def openPipe (w : World) : (Nat × Nat) × World :=
  let n := w.pipes.size
  let w := { w with pipes := w.pipes.push {} }
  let (source, w) := w.add { target := .pipe n, isReadable := true, isWritable := false }
  let (sink, w) := w.add { target := .pipe n, isReadable := false, isWritable := true }
  ((source, sink), w)

/-- The world without what a process has written after the present time. -/
def forget (w : World) (writer : Nat) : World :=
  let keep := fun (parts : List Part) =>
    parts.filter fun part => !(part.writer == writer && w.now < part.time)
  { w with
    captured := keep w.captured
    pipes := w.pipes.map fun p => { p with written := keep p.written } }

end World

end SuiteScope.Shell
