import SuiteScope.FileTree
import SuiteScope.Settings

/-!
# Targets

A target is an implementation file that tests import. Its identity is the text of its normal
absolute path, so that two spellings of one file are one target. A dependency is relative to the
file that imports it, stands behind an alias for a directory of the project, or names a package.
`resolve?` tries the configured extensions behind the path of a dependency, and takes the first
that gives an existing file.
-/

namespace SuiteScope

/-- What a dependency is taken to be. -/
inductive Dependency
  /-- Relative to the directory of the importing file. -/
  | relative
  /-- Relative to a directory of the project, which an alias stands for. -/
  | aliased (base : String) (rest : String)
  /-- A package, which is never resolved. -/
  | external
  deriving DecidableEq, Repr

/-- What is needed to resolve dependencies : the project root and the settings. -/
structure Resolver where
  root : Path
  settings : MiningSettings
  deriving Repr

namespace Resolver

/-- Whether a dependency is written as a relative path. -/
def isRelative (dependency : String) : Bool :=
  dependency == "." || dependency == ".." || "./".toList.isPrefixOf dependency.toList ||
    "../".toList.isPrefixOf dependency.toList

/-- The aliases, longest beginning first. Beginnings of one length keep their order. -/
def aliasesByLength (settings : MiningSettings) : List (String × String) :=
  settings.aliases.mergeSort fun a b => b.1.utf8ByteSize ≤ a.1.utf8ByteSize

/-- The directory and the rest of a dependency that starts with one of the aliases. -/
def aliased? (dependency : String) : List (String × String) → Option (String × String)
  | [] => none
  | (start, base) :: aliases =>
    match start.toList.isPrefixOf? dependency.toList with
    | some rest => some (base, String.ofList rest)
    | none => aliased? dependency aliases

/-- What a dependency is taken to be. -/
def classify (r : Resolver) (dependency : String) : Dependency :=
  if isRelative dependency then .relative
  else
    match aliased? dependency (aliasesByLength r.settings) with
    | some (base, rest) => .aliased base rest
    | none => .external

/-- The path `p`, taken from the project root if it is relative. -/
def absolute (r : Resolver) (p : Path) : Path :=
  if p.isAbsolute then p else r.root.join p

/-- The identity of an existing file. -/
def identify? (r : Resolver) (fs : FileSystem) (p : Path) : Option String :=
  let p := (r.absolute p).normalize
  if fs.isFile p then some p.toSlashes else none

/-- The path that a dependency of the file `origin` names, before any extension. -/
def base? (r : Resolver) (origin : Path) (dependency : String) : Option Path :=
  match r.classify dependency with
  | .external => none
  | .relative =>
    (r.absolute origin).parent?.map fun dir => (dir.join (.ofString dependency)).normalize
  | .aliased base rest =>
    some ((r.root.join (.ofString base)).join (.ofString rest)).normalize

/-- The target that a dependency of the file `origin` names. -/
def resolve? (r : Resolver) (fs : FileSystem) (origin : Path) (dependency : String) :
    Option String :=
  (r.base? origin dependency).bind fun base =>
    r.settings.extensions.findSome? fun extension => r.identify? fs (base.extend extension)

end Resolver

end SuiteScope
