import SuiteScope.FileTree
import SuiteScope.Source.Mined

/-!
# Cache of mined files

A cache remembers what was mined from a file together with the time of the file's last change, and
counts how often that was still good. `getOrMine` reads a file only when nothing is remembered, or
when the file has changed since. A file that cannot be read changes no entry.
-/

namespace SuiteScope

/-- What is remembered of one file. -/
structure CacheEntry where
  path : Path
  modified : Option Nat
  mined : Source.Mined
  deriving Repr

/-- The entries of a cache, newest first, with its counters. -/
structure Cache where
  entries : List CacheEntry := []
  hits : Nat := 0
  misses : Nat := 0
  deriving Repr, Inhabited

namespace Cache

/-- The number of files remembered. -/
def size (c : Cache) : Nat :=
  c.entries.length

/-- Whether no file is remembered. -/
def isEmpty (c : Cache) : Bool :=
  c.entries.isEmpty

/-- What is remembered of a file. -/
def get? (c : Cache) (p : Path) : Option CacheEntry :=
  c.entries.find? (·.path.same p)

/-- The cache without what it remembers of a file. -/
def invalidate (c : Cache) (p : Path) : Cache :=
  { c with entries := c.entries.filter fun e => !e.path.same p }

/-- What is remembered of a file that was changed last at `modified`, if that is still good. -/
def fresh? (c : Cache) (p : Path) (modified : Option Nat) : Option Source.Mined :=
  ((c.get? p).filter fun e => e.modified.isSome && e.modified == modified).map (·.mined)

/-- What is in the file that a path names, and the cache after looking it up. -/
def getOrMine (fs : FileSystem) (c : Cache) (p : Path) : Except FileError Source.Mined × Cache :=
  match fs.node p with
  | .error e => (.error e, c)
  | .ok node =>
    match c.fresh? p node.modified? with
    | some mined => (.ok mined, { c with hits := c.hits + 1 })
    | none =>
      match fs.readText p with
      | .error e => (.error e, { c with misses := c.misses + 1 })
      | .ok text =>
        let mined := Source.mine text
        (.ok mined,
          { entries := ⟨p, node.modified?, mined⟩ :: (c.invalidate p).entries
            hits := c.hits
            misses := c.misses + 1 })

end Cache

end SuiteScope
