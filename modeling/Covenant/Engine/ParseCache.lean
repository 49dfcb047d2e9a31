import Covenant.Source.Digest
import Covenant.Syntax.Program

/-!
A cache of what reading files gave. For each name of a file it keeps what reading its latest
contents gave, under the digest of these contents.
-/

namespace Covenant

structure CachedReading where
  digest : List UInt8
  number : Nat
  outcome : SyntaxTree.Outcome

structure ParseCache where
  entries : List (String × CachedReading)
  readings : Nat

namespace ParseCache

def empty : ParseCache := ⟨[], 0⟩

def size (cache : ParseCache) : Nat := cache.entries.length

def read (cache : ParseCache) (path content : String) : CachedReading × ParseCache :=
  let digest := Digest.ofText content
  let fresh : CachedReading :=
    { digest, number := cache.readings, outcome := SyntaxTree.read content }
  let others := cache.entries.filter fun entry => entry.1 != path
  match cache.entries.lookup path with
  | some held =>
    if held.digest == digest then (held, cache)
    else (fresh, ⟨(path, fresh) :: others, cache.readings + 1⟩)
  | none => (fresh, ⟨(path, fresh) :: others, cache.readings + 1⟩)

end ParseCache

end Covenant
