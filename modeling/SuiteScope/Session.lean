import SuiteScope.Cache
import SuiteScope.ScenarioMap
import SuiteScope.Target

/-!
# Mining sessions

A session mines a list of test files. Each file that can be read contributes its sections to every
target that one of its imports resolves to. A file that cannot be read contributes nothing, and
stops none of the others.
-/

namespace SuiteScope.Session

/-- The targets that a file imports, each once. -/
def importedTargets (fs : FileSystem) (r : Resolver) (file : Path) (mined : Source.Mined) :
    List String :=
  mined.imports.foldl
    (fun found dependency =>
      match r.resolve? fs file dependency with
      | some target => if found.contains target then found else found ++ [target]
      | none => found)
    []

/-- What a file contributes. -/
def contributions (fs : FileSystem) (r : Resolver) (file : Path) (mined : Source.Mined) :
    List Contribution :=
  (importedTargets fs r file mined).map (⟨·, mined.sections⟩)

/-- What a list of files contributes, and the cache after reading them. -/
def contributionsOf (fs : FileSystem) (r : Resolver) :
    (cache : Cache) → (files : List Path) → List Contribution × Cache
  | cache, [] => ([], cache)
  | cache, file :: files =>
    let (mined, cache) := cache.getOrMine fs file
    let (others, cache) := contributionsOf fs r cache files
    match mined with
    | .ok mined => (contributions fs r file mined ++ others, cache)
    | .error _ => (others, cache)

/-- The scenarios of a list of files, and the cache after reading them. -/
def mine (fs : FileSystem) (r : Resolver) (cache : Cache) (files : List Path) :
    ScenarioMap × Cache :=
  let (found, cache) := contributionsOf fs r cache files
  (.ofContributions found, cache)

end SuiteScope.Session
