import SuiteScope.FileTree
import SuiteScope.Settings

/-!
# Discovery of test files

`collect` lists the test files at or below a path, leaving out directories whose name starts with a
dot or is configured to be ignored. `discover` collects from every configured directory of a project
and lists the files in the order of their paths, each once.

An entry of a directory is entered if the system says that it is a directory. Anything else counts
as a file there : a device, and a directory that the system cannot be asked about, because its path
is too long.
-/

namespace SuiteScope.Discovery

/-- Whether the name of a file, as it is shown, marks a test file. -/
def isTestName (settings : MiningSettings) (name : FileName) : Bool :=
  settings.testSuffixes.any fun suffix => suffix.toList.isSuffixOf name.toString.toList

/-- Whether the last name of a path marks a test file. -/
def isTestPath (settings : MiningSettings) (p : Path) : Bool :=
  p.fileName?.any (isTestName settings)

/-- Whether a directory of this name is scanned, which goes by the name as it is shown. -/
def isScanned (settings : MiningSettings) (name : FileName) : Bool :=
  !(['.'].isPrefixOf name.toString.toList || settings.ignoreDirs.contains name.toString)

/-- Whether the system takes the node at a path for a directory. -/
def isEntered (p : Path) (node : Node) : Bool :=
  node.isDirectory && p.toBytes.length < FileSystem.pathLimit

mutual

/-- The test files at or below a node that was reached by the path `p`. The node's own name is not
looked at if it is a directory. -/
def collectNode (settings : MiningSettings) (p : Path) : Node → List Path
  | .file .. => if isTestPath settings p then [p] else []
  | .directory _ entries => collectEntries settings p entries
  | .device _ => []

/-- The test files in the entries of a directory. -/
def collectEntries (settings : MiningSettings) (p : Path) : List (FileName × Node) → List Path
  | [] => []
  | entry :: entries => collectEntry settings p entry ++ collectEntries settings p entries

/-- The test files at or below one entry of a directory. -/
def collectEntry (settings : MiningSettings) (p : Path) : FileName × Node → List Path
  | (name, node) =>
    let path := p.join ⟨[name]⟩
    if isEntered path node then
      if isScanned settings name then collectNode settings path node else []
    else if isTestPath settings path then [path] else []

end

/-- The test files at or below a path, in the order of the tree. -/
def collect (fs : FileSystem) (settings : MiningSettings) (p : Path) : List Path :=
  match fs.node p with
  | .ok node => collectNode settings p node
  | .error _ => []

/-- The test files of several paths, in order, each once. -/
def collectAll (fs : FileSystem) (settings : MiningSettings) (paths : List Path) : List Path :=
  Path.sortUnique (paths.flatMap (collect fs settings))

/-- The test files of a project. -/
def discover (fs : FileSystem) (root : Path) (settings : MiningSettings) : List Path :=
  collectAll fs settings (settings.testDirs.map fun dir => root.join (.ofString dir))

end SuiteScope.Discovery
