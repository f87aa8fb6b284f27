import SuiteScope.FileTree

/-!
# Installed programs

The programs that can be started lie in two directories. No other file can be started. `system` is
the file tree that holds them, with the devices that scripts use.
-/

namespace SuiteScope.Shell

/-- The names of the installed programs. -/
def installedNames : List String :=
  ["cat", "echo", "false", "ls", "mkdir", "printf", "pwd", "sh", "sleep", "true"]

/-- The program at a place. -/
def installed? (place : List FileName) : Option String :=
  match place.map FileName.toString with
  | ["bin", name] | ["usr", "bin", name] => if installedNames.contains name then some name else none
  | _ => none

/-- The directories that are searched for programs when nothing else has been said. -/
def defaultSearchPath : String :=
  "/usr/local/sbin:/usr/local/bin:/usr/sbin:/usr/bin:/sbin:/bin"

/-- The file of a program, which is no text. -/
def programFile : Node :=
  .file [0x7f, 0x45, 0x4c, 0x46, 0x80] 0

/-- The directory of the programs. -/
def programDirectory : Node :=
  .directory (some 0) (installedNames.map (.ofString ·, programFile))

/-- The devices that scripts use. -/
def devices : Node :=
  .directory (some 0) (["null", "stderr", "stdin", "stdout"].map (.ofString ·, .device 0))

/-- The file tree that a project is put into. -/
def system : Node :=
  let empty : Node := .directory (some 0) []
  .directory (some 0)
    [("bin", programDirectory), ("dev", devices), ("etc", empty), ("home", empty), ("root", empty),
      ("sbin", empty), ("tmp", empty), ("usr", .directory (some 0) [("bin", programDirectory)]),
      ("var", empty)]

end SuiteScope.Shell
