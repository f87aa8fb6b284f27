import Std.Time.Format
import SuiteScope.CommandLine.Execute

/-!
# The program

`main` reads the project around the current directory into a file tree, hands it to
`CommandLine.execute` together with the arguments, the environment and the time, shows the outcome,
and writes the files that the test command has changed. All decisions are taken in `execute`. Names of
files are those that are UTF-8, as no others can be asked for here.
-/

open SuiteScope

/-- The names of what is passed on from the environment. -/
def knownVariables : List String :=
  ["TDD_PROJECT_NAME", "TDD_TEST_COMMAND", "HOME", "XDG_CONFIG_HOME", "CLICOLOR_FORCE", "PATH",
    "PWD", "USER", "LANG", "TERM", "CI"]

/-- The environment of the program. -/
def readEnvironment : IO (List (String × String)) :=
  knownVariables.filterMapM fun name => return (← IO.getEnv name).map (name, ·)

/-- The tree at a directory entry. Entries that cannot be read are left out, and so are the
directories that are never scanned and those that are reached through a link. -/
partial def readEntry (entry : IO.FS.DirEntry) : IO (Option (FileName × Node)) :=
  try
    let found ← entry.path.metadata
    let modified := found.modified.sec.toNat
    if found.type == .dir then
      if (← entry.path.symlinkMetadata).type != .dir then return none
      if ({} : MiningSettings).ignoreDirs.contains entry.fileName then return none
      let entries ← (← entry.path.readDir).toList.filterMapM readEntry
      return some (entry.fileName, .directory (some modified) entries)
    else
      let content ← IO.FS.readBinFile entry.path
      return some (entry.fileName, .file content.toList modified)
  catch _ => return none

/-- A file tree after the node at a place has been read into it. -/
def readPlace (top : Node) (place : List FileName) : IO Node := do
  match place.getLast? with
  | none => return top
  | some name =>
    let parent := "/" ++ "/".intercalate (place.dropLast.map FileName.toString)
    match ← readEntry { root := parent, fileName := name } with
    | some (_, node) => return top.put place node
    | none => return top

/-- The place that a path names by its text alone. -/
def placeOf (p : Path) : List FileName :=
  p.normalize.segments.filter (· ≠ .empty)

/-- The files that mark the directories from the top down to a place. -/
def markersAbove (here : List FileName) : List (List FileName) :=
  (List.range (here.length + 1)).flatMap fun n =>
    [Project.settingsFile, Project.manifestFile].map fun marker =>
      here.take n ++ [.ofString marker]

/-- The file system, as far as a command can ask for it. -/
def readFiles (args : List String) (environment : List (String × String)) : IO FileSystem := do
  let here := placeOf (.ofString (← IO.currentDir).toString)
  let empty := Shell.system.put here (.directory none [])
  let marked ← (markersAbove here).foldlM readPlace empty
  let directory := (⟨marked, here⟩ : FileSystem).workingDirectory
  let root := Project.findRoot ⟨marked, here⟩ directory
  let named := args.map fun arg => placeOf (directory.join (.ofString arg))
  let userFile := (Settings.userFile? (environment.lookup ·)).toList.map placeOf
  return ⟨← (placeOf root :: userFile ++ named).foldlM readPlace marked, here⟩

/-- The present time, to the millisecond. -/
def presentTime : IO String := do
  let now := Std.Time.DateTime.ofTimestamp (← Std.Time.Timestamp.now) .UTC
  return now.format "uuuu-MM-dd'T'HH:mm:ss.SSS'Z'"

/-- The files of a tree that another tree does not have are written. -/
def writeChanges (before after : Node) : IO Unit := do
  for (place, content) in after.files do
    let isOld := match before.at? place with
      | some (.file old _) => old == content
      | _ => false
    if !isOld then
      IO.FS.writeBinFile ("/" ++ "/".intercalate (place.map FileName.toString)) ⟨content.toArray⟩

/-- The command line. -/
def main (args : List String) : IO UInt32 := do
  let environment ← readEnvironment
  let files ← readFiles args environment
  let ending := CommandLine.execute ⟨files, environment, ← presentTime⟩ args
  writeChanges files.top ending.top
  IO.eprint ending.errorOutput
  IO.print ending.outcome.output
  return ending.outcome.exitCode.toUInt32
