import Buildkit.Solver.Types

/-!
# Cache keys, cache maps and cached results

The values the solver passes between edges and the cache manager (`solver/cachekey.go`,
`solver/types.go`). A `CacheKey` is its ID, digest, output and dependency keys; the memo of IDs
per cache manager it carries in the source is left out here, and so are the exporters attached
to exportable keys and records: an `ExportableCacheKey` is its `CacheKey`.

The edge calls two methods of its cache manager, `Query` and `Records`. They are the fields of
`CacheManager`: whatever answers them, a theorem about the edge holds.
-/

namespace Buildkit

/-- `CacheKey`: the ID, the digest and output of the operation, and per input the keys with
their selectors. -/
inductive CacheKey
  | mk (id : String) (digest : Digest) (output : Index) (deps : List (List (Digest × CacheKey)))

/-- `CacheKeyWithSelector`. -/
structure CacheKeyWithSelector where
  selector : Digest
  cacheKey : CacheKey

namespace CacheKey

/-- The field `ID`. -/
def id : CacheKey → String
  | mk id _ _ _ => id

/-- `clone`, which copies the ID, digest and output but not the dependencies, followed by the
assignment of `deps`. -/
def withDeps (k : CacheKey) (deps : List (List CacheKeyWithSelector)) : CacheKey :=
  match k with
  | mk id dgst output _ => mk id dgst output (deps.map (·.map fun d => (d.selector, d.cacheKey)))

end CacheKey

/-- `NewCacheKey`. -/
def newCacheKey (fromBytes : String → Digest) (dgst : Digest) (output : Index) : CacheKey :=
  .mk (rootKey fromBytes dgst output) dgst output []

/-- `withSelector`. -/
def withSelector (keys : List CacheKey) (selector : Digest) : List CacheKeyWithSelector :=
  keys.map fun k => ⟨selector, k⟩

/-- One entry of `CacheMap.Deps`: the selector, and whether a `ComputeDigestFunc` is set (the
function itself runs outside the edge). -/
structure CacheMapDep where
  selector : Digest
  computeDigestFunc : Bool

/-- `CacheMap`. -/
structure CacheMap where
  digest : Digest
  deps : List CacheMapDep

/-- `CacheRecord`, by its ID. -/
structure CacheRecord where
  id : String
  createdAt : Nat

/-- A `CachedResult`: the result's ID and its `CacheKeys()`. -/
structure CachedResult where
  id : String
  cacheKeys : List CacheKey

/-- The methods of `CacheManager` the edge calls. -/
structure CacheManager where
  query : List CacheKeyWithSelector → Index → Digest → Index → Except String (List CacheKey)
  records : CacheKey → Except String (List CacheRecord)

end Buildkit
