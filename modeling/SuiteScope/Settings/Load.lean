import SuiteScope.Project
import SuiteScope.Settings.Decode
import SuiteScope.Toml.Tagged

/-!
# Loading settings

Settings come in layers : the defaults, the settings file of the user, that of the project, and the
environment. A later layer replaces what it gives. Files that do not exist are passed over, and the
result is refused when it has problems. It is assumed that the variables of the environment are
UTF-8, so that they are texts. A settings file that is not cannot be read.
-/

namespace SuiteScope.Settings

open SuiteScope.Toml

/-- The settings file of the user, below the configuration directory of the environment. -/
def userFile? (lookup : String → Option String) : Option Path :=
  let config := ((lookup "XDG_CONFIG_HOME").map Path.ofString).filter (·.isAbsolute)
  let home := ((lookup "HOME").filter (· ≠ "")).map fun h => (Path.ofString h).join (.ofString ".config")
  (config.or home).map fun dir => dir.join (.ofString "tdd-cli/config.toml")

/-- The settings file of a project. -/
def projectFile (root : Path) : Path :=
  root.join (.ofString Project.settingsFile)

/-- The value of one settings file, laid over that of the layers below. -/
def addLayer (fs : FileSystem) (below : Value) (file : Path) : Except Error Value :=
  if fs.isFile file then
    match fs.readText file with
    | .error e => .error (.unreadable file.toString e)
    | .ok text =>
      match (read? text).bind (untag? <| .table ·) with
      | some v => .ok (merge below v)
      | none => .error .malformedSettings
  else .ok below

/-- The value of several settings files, later ones laid over earlier ones. -/
def layers (fs : FileSystem) (files : List Path) : Except Error Value :=
  files.foldlM (addLayer fs) (.table [])

/-- Settings without problems. -/
def checked (s : Settings) : Except Error Settings :=
  if s.problems.isEmpty then .ok s else .error (.invalidSettings s.problems)

/-- The settings of a project. -/
def load (fs : FileSystem) (userFile : Option Path) (root : Path) (overrides : Overrides) :
    Except Error Settings :=
  match layers fs (userFile.toList ++ [projectFile root]) with
  | .error e => .error e
  | .ok v =>
    match decode? .layered v with
    | none => .error .malformedSettings
    | some s => checked (s.withOverrides overrides)

end SuiteScope.Settings
