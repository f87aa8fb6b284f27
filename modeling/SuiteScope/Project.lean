import SuiteScope.FileTree

/-!
# Project roots

The root of a project is the nearest directory, going up from a starting point, that holds the
project's settings file or a package manifest.
-/

namespace SuiteScope.Project

/-- The name of a project's settings file. -/
def settingsFile : String := "tdd.toml"

/-- The name of a package manifest. -/
def manifestFile : String := "package.json"

/-- Whether a directory is marked as the root of a project. -/
def isRoot (fs : FileSystem) (dir : Path) : Bool :=
  fs.isFile (dir.join (.ofString settingsFile)) || fs.isFile (dir.join (.ofString manifestFile))

/-- The nearest root at or above `start`, and `start` itself if there is none. -/
def findRoot (fs : FileSystem) (start : Path) : Path :=
  (start.ancestors.find? (isRoot fs)).getD start

end SuiteScope.Project
