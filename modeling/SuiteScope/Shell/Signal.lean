import SuiteScope.Shell.Number

/-!
# Signals

A signal has a number and a name. Signal zero stands for the end of a shell. `number?` reads what a
script writes for a signal, and `wording` is what a shell says about a process that a signal ended.
-/

namespace SuiteScope.Shell.Signal

/-- The names of the signals below the real-time ones, starting with the end of a shell. -/
def plainNames : List String :=
  ["EXIT", "HUP", "INT", "QUIT", "ILL", "TRAP", "ABRT", "BUS", "FPE", "KILL", "USR1", "SEGV",
    "USR2", "PIPE", "ALRM", "TERM", "16", "CHLD", "CONT", "STOP", "TSTP", "TTIN", "TTOU", "URG",
    "XCPU", "XFSZ", "VTALRM", "PROF", "WINCH", "IO", "PWR", "SYS", "32", "33"]

/-- The names of all signals, by their numbers. -/
def names : List String :=
  plainNames ++ "RTMIN" :: (List.range 15).map (fun n => s!"RTMIN+{n + 1}")
    ++ (List.range 14).map (fun n => s!"RTMAX-{14 - n}") ++ ["RTMAX"]

/-- The number of signals, with the end of a shell. -/
def count : Nat := names.length

/-- The name of a signal. -/
def name (n : Nat) : String :=
  names.getD n ""

/-- The number that a text of digits gives. -/
def ofDigits? (s : Bytes) : Option Nat :=
  if !s.isEmpty && s.all Char.isDigit then
    let n := (digitRun 10 0 s).1
    if n < count then some n else none
  else none

/-- The signal that a text stands for, by its number, or by its name if that is not below `least`.
Letters of both sizes are the same. -/
def number? (least : Nat) (s : Bytes) : Option Nat :=
  let upper := String.ofList (s.map Char.toUpper)
  (ofDigits? s).or (((names.drop least).findIdx? (· == upper)).map (· + least))

/-- Signals that do nothing to a process that has not asked for them. -/
def isHarmless (n : Nat) : Bool :=
  [0, 17, 18, 19, 20, 21, 22, 23, 28].contains n

/-- Signals that cannot be caught. -/
def isFinal (n : Nat) : Bool :=
  n == 9 || n == 19

/-- What a process that a signal ended is said to be. -/
def wordings : List (Nat × String) :=
  [(1, "Hangup"), (2, "Interrupt"), (3, "Quit"), (4, "Illegal instruction"),
    (5, "Trace/breakpoint trap"), (6, "Aborted"), (7, "Bus error"),
    (8, "Floating point exception"), (9, "Killed"), (10, "User defined signal 1"),
    (11, "Segmentation fault"), (12, "User defined signal 2"), (13, "Broken pipe"),
    (14, "Alarm clock"), (15, "Terminated"), (16, "Stack fault"), (24, "CPU time limit exceeded"),
    (25, "File size limit exceeded"), (26, "Virtual timer expired"),
    (27, "Profiling timer expired"), (29, "I/O possible"), (30, "Power failure"),
    (31, "Bad system call")]

/-- What a process that a signal ended is said to be. -/
def wording (n : Nat) : String :=
  if 34 ≤ n then s!"Real-time signal {n - 34}" else (wordings.lookup n).getD s!"Unknown signal {n}"

/-- Whether nothing is said about a process that a signal ended. -/
def isSilent (n : Nat) : Bool :=
  n == 2 || n == 13

example : number? 1 "term".toList = some 15 ∧ number? 1 "EXIT".toList = none := by decide +kernel

example : count = 65 ∧ name 64 = "RTMAX" ∧ name 49 = "RTMIN+15" := by decide +kernel

end SuiteScope.Shell.Signal
