import SuiteScope.Path

/-!
# Errors

`FileError` lists what may go wrong with a file, `Problem` what may be wrong with settings, and
`Error` what ends a command. Each has its wording in one function `message`.
-/

namespace SuiteScope

/-- Why the file system refused a request. -/
inductive FileError
  | notFound
  | permissionDenied
  | notADirectory
  | isADirectory
  | nameTooLong
  | notText
  | nulInName
  | nulInWord
  deriving DecidableEq, Repr

/-- The wording of a file error. -/
def FileError.wording : FileError → String
  | .notFound => "No such file or directory"
  | .permissionDenied => "Permission denied"
  | .notADirectory => "Not a directory"
  | .isADirectory => "Is a directory"
  | .nameTooLong => "File name too long"
  | .notText => "stream did not contain valid UTF-8"
  | .nulInName => "file name contained an unexpected NUL byte"
  | .nulInWord => "nul byte found in provided data"

/-- The number of a file error that comes from the operating system. -/
def FileError.number? : FileError → Option Nat
  | .notFound => some 2
  | .permissionDenied => some 13
  | .notADirectory => some 20
  | .isADirectory => some 21
  | .nameTooLong => some 36
  | .notText | .nulInName | .nulInWord => none

/-- The wording of a file error, with its number. -/
def FileError.message (e : FileError) : String :=
  match e.number? with
  | some n => s!"{e.wording} (os error {n})"
  | none => e.wording

/-- What makes settings unusable. -/
inductive Problem
  | noProjectName
  | noTestCommand
  | noExtensions
  | noTestSuffixes
  deriving DecidableEq, Repr

/-- The wording of a problem. -/
def Problem.message : Problem → String
  | .noProjectName => "project_name is required"
  | .noTestCommand => "runner.test_command is required"
  | .noExtensions => "mining.extensions must not be empty"
  | .noTestSuffixes => "mining.test_suffixes must not be empty"

/-- What ends a command. -/
inductive Error
  /-- The program exists, and could not be started. -/
  | launch (command : String) (cause : FileError)
  /-- There is no such program. -/
  | commandNotFound (command : String)
  /-- The test command has no words. -/
  | emptyCommand
  /-- A quote in the test command stays open. -/
  | openQuote (command : String)
  /-- The target asked for is not an existing file. -/
  | missingTarget (path : String)
  /-- A settings file is not well formed. -/
  | malformedSettings
  /-- The settings have problems. -/
  | invalidSettings (problems : List Problem)
  /-- A file could not be read. -/
  | unreadable (path : String) (cause : FileError)
  deriving DecidableEq, Repr

/-- The wording of an error. -/
def Error.message : Error → String
  | .launch command cause => s!"Failed to launch '{command}': {cause.message}"
  | .commandNotFound command =>
    s!"Command '{command}' not found. Check the test command in tdd.toml or TDD_TEST_COMMAND"
  | .emptyCommand => "Test command is empty"
  | .openQuote command => s!"Could not split test command: {command}: missing closing quote"
  | .missingTarget path => s!"Configuration error: target '{path}' is not an existing file"
  | .malformedSettings => "Invalid configuration file: "
  | .invalidSettings problems =>
    "Invalid configuration: " ++ ", ".intercalate (problems.map Problem.message)
  | .unreadable path cause => s!"Failed to read file '{path}': {cause.message}"

end SuiteScope
