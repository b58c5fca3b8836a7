import Mathlib.Data.List.AList

/-!
# Cache data of the solver

The records the cache storages of `solver/` keep (`solver/cachestorage.go`, `solver/types.go`),
the calls that change a `CacheKeyStorage`, and the ID of a cache key without dependencies
(`rootKey`, `solver/cachemanager.go`).

A digest is its string form `algorithm:encoded`. `digest.FromBytes` (SHA-256 over the bytes) is a
parameter `fromBytes` of every definition that computes one; the results that need it to tell
inputs apart say so in a hypothesis.
-/

namespace Buildkit

/-- `solver.Index`, a Go `int`. -/
abbrev Index := Int

/-- `digest.Digest`. -/
abbrev Digest := String

/-- `solver.CacheResult`: a saved result and the instant it was created. -/
structure CacheResult where
  createdAt : Nat
  id : String
  deriving DecidableEq, Repr

/-- `solver.CacheInfoLink`: the label of a link from a dependency key to a key built on it. -/
structure CacheInfoLink where
  input : Index
  output : Index
  digest : Digest
  selector : Digest
  deriving DecidableEq, Repr

namespace CacheKeyStorage

/-- The calls of the `CacheKeyStorage` interface that change a store. -/
inductive Op
  | addResult (id : String) (res : CacheResult)
  | addLink (id : String) (link : CacheInfoLink) (target : String)
  | release (resultID : String)

end CacheKeyStorage

/-- `rootKey`: the ID of a key without dependencies, the digest of `"<dgst>@<output>"`
(`fmt.Sprintf("%s@%d", dgst, output)`). -/
def rootKey (fromBytes : String → Digest) (dgst : Digest) (output : Index) : Digest :=
  fromBytes (dgst ++ "@" ++ toString output)

end Buildkit
