import Buildkit.Lib.Loop
import Buildkit.Solver.Types

/-!
# The in-memory cache key storage

`inMemoryStore` of `solver/memorycachestorage.go`: the cache keys by ID, each with the results
saved for it, its links to the keys built on it and the backlinks from the keys it is built on,
and an index `byResult` from a result ID to the keys holding the result.

Representation. Go maps are association lists (`AList`) and sets (`map[string]struct{}`) are
lists. A key's `links map[CacheInfoLink]map[string]struct{}` is the set of its `(link, target)`
pairs: `AddLink` creates an entry only together with a target and `emptyBranchWithParents`
deletes an entry as soon as its last target goes, so `len(k.links) > 0` exactly when the set is
non-empty. The lock `mu` is left out: every method runs under it.

`Release` recurses through `emptyBranchWithParents`, which has no bound in the source; the model
gives it fuel (one more than the number of keys) and returns `none` if the fuel runs out.
-/

namespace Buildkit

/-- `inMemoryKey`. -/
structure InMemoryKey where
  id : String
  results : AList (fun _ : String => CacheResult)
  links : List (CacheInfoLink × String)
  backlinks : List String

/-- `newInMemoryKey`. -/
def newInMemoryKey (id : String) : InMemoryKey := ⟨id, ∅, [], []⟩

/-- `inMemoryStore`. -/
structure InMemoryStore where
  byID : AList (fun _ : String => InMemoryKey)
  byResult : AList (fun _ : String => List String)

/-- `NewInMemoryCacheStorage`. -/
def newInMemoryCacheStorage : InMemoryStore := ⟨∅, ∅⟩

namespace InMemoryKey

/-- The key after `delete(p.links[l], id)` for every link `l`, empty entries dropped. -/
def removeLinksTo (k : InMemoryKey) (id : String) : InMemoryKey :=
  { k with links := k.links.filter fun lt => lt.2 ≠ id }

end InMemoryKey

namespace InMemoryStore

/-! ## Queries -/

/-- `Exists`: the key is known and holds a link or a result. -/
def «exists» (s : InMemoryStore) (id : String) : Bool :=
  match s.byID.lookup id with
  | some k => decide (k.links ≠ [] ∨ k.results.keys ≠ [])
  | none => false

/-- `Walk`: the IDs of all known keys. -/
def walk (s : InMemoryStore) : List String := s.byID.keys

/-- `WalkResults`. -/
def walkResults (s : InMemoryStore) (id : String) : List CacheResult :=
  match s.byID.lookup id with
  | some k => k.results.entries.map (·.2)
  | none => []

/-- `Load`, with the error texts of `errors.Wrapf(ErrNotFound, ...)` and `ErrNotFound`. -/
def load (s : InMemoryStore) (id resultID : String) : Except String CacheResult :=
  match s.byID.lookup id with
  | none => .error ("no such key " ++ id ++ ": not found")
  | some k =>
    match k.results.lookup resultID with
    | some r => .ok r
    | none => .error "not found"

/-- `WalkIDsByResult`. -/
def walkIDsByResult (s : InMemoryStore) (resultID : String) : List String :=
  (s.byResult.lookup resultID).getD []

/-- `WalkLinks`: the targets of the links of `id` labelled `link`. -/
def walkLinks (s : InMemoryStore) (id : String) (link : CacheInfoLink) : List String :=
  match s.byID.lookup id with
  | some k => (k.links.filter fun lt => lt.1 = link).map (·.2)
  | none => []

/-- `HasLink`. -/
def hasLink (s : InMemoryStore) (id : String) (link : CacheInfoLink) (target : String) : Bool :=
  match s.byID.lookup id with
  | some k => decide ((link, target) ∈ k.links)
  | none => false

/-- `WalkBacklinks`: every key in the backlinks of `id` with each link of it to `id`, the link
reported under the root key of its digest and output. -/
def walkBacklinks (fromBytes : String → Digest) (s : InMemoryStore) (id : String) :
    List (String × CacheInfoLink) :=
  match s.byID.lookup id with
  | none => []
  | some k => k.backlinks.flatMap fun bid =>
    match s.byID.lookup bid with
    | none => []
    | some b => (b.links.filter fun lt => lt.2 = id).map fun lt =>
      (bid, { digest := rootKey fromBytes lt.1.digest lt.1.output, input := lt.1.input,
              output := 0, selector := lt.1.selector })

/-! ## Updates -/

/-- The store with a key for `id`, created empty if it is missing. -/
def ensureKey (s : InMemoryStore) (id : String) : InMemoryStore :=
  match s.byID.lookup id with
  | some _ => s
  | none => ⟨s.byID.insert id (newInMemoryKey id), s.byResult⟩

/-- The store with the key `id`, if present, replaced by `f` of it. -/
def modifyKey (s : InMemoryStore) (id : String) (f : InMemoryKey → InMemoryKey) :
    InMemoryStore :=
  match s.byID.lookup id with
  | some k => ⟨s.byID.insert id (f k), s.byResult⟩
  | none => s

/-- `AddResult`. -/
def addResult (s : InMemoryStore) (id : String) (res : CacheResult) : InMemoryStore :=
  let s := (s.ensureKey id).modifyKey id fun k =>
    { k with results := k.results.insert res.id res }
  ⟨s.byID, s.byResult.insert res.id (((s.byResult.lookup res.id).getD []).insert id)⟩

/-- `AddLink`. The two keys are fetched one after the other, so a link of a key to itself
updates one key twice. -/
def addLink (s : InMemoryStore) (id : String) (link : CacheInfoLink) (target : String) :
    InMemoryStore :=
  let s := (s.ensureKey id).ensureKey target
  let s := s.modifyKey id fun k => { k with links := k.links.insert (link, target) }
  s.modifyKey target fun k => { k with backlinks := k.backlinks.insert id }

/-- One iteration of the loop of `emptyBranchWithParents` over the backlinks of the key `kid`:
the links to `kid` leave the key `id`, if it is known, and the recursion `recurse` goes into it. -/
def emptyParent (recurse : InMemoryStore → InMemoryKey → Option InMemoryStore) (kid : String)
    (s : InMemoryStore) (id : String) : Option InMemoryStore :=
  match s.byID.lookup id with
  | none => some s
  | some p => recurse ⟨s.byID.insert id (p.removeLinksTo kid), s.byResult⟩ (p.removeLinksTo kid)

/-- `emptyBranchWithParents`: a key holding neither results nor links is deleted, after the links
to it are removed from every key of its backlinks and the recursion has gone into each of them;
a key holding either is left alone. -/
def emptyBranchWithParents (ord : IterOrder String) (fuel : Nat) (s : InMemoryStore)
    (k : InMemoryKey) : Option InMemoryStore :=
  if k.results.keys = [] ∧ k.links = [] then
    match fuel with
    | 0 => none
    | fuel + 1 =>
      (List.foldlM (emptyParent (emptyBranchWithParents ord fuel) k.id) s
        (ord.order k.backlinks)).map fun s => ⟨s.byID.erase k.id, s.byResult⟩
  else some s

/-- The fuel `Release` gives the recursion: one more than the number of keys. -/
def releaseFuel (s : InMemoryStore) : Nat := s.byID.keys.length + 1

/-- The bookkeeping of `Release` for the key `k` stored under `id`, before the cascade:
`resultID` leaves the results of `k` and the index, which drops the entry once it is empty. -/
def dropResult (s : InMemoryStore) (resultID id : String) (k : InMemoryKey) : InMemoryStore :=
  let ids := ((s.byResult.lookup resultID).getD []).erase id
  ⟨s.byID.insert id { k with results := k.results.erase resultID },
    if ids = [] then s.byResult.erase resultID else s.byResult.insert resultID ids⟩

/-- One iteration of the loop of `Release` over the keys holding `resultID`. -/
def releaseKey (ord : IterOrder String) (resultID : String) (s : InMemoryStore) (id : String) :
    Option InMemoryStore :=
  match s.byID.lookup id with
  | none => some s
  | some k =>
    let s := s.dropResult resultID id k
    emptyBranchWithParents ord s.releaseFuel s { k with results := k.results.erase resultID }

/-- `Release`: the result leaves every key holding it, and every key left with neither results
nor links goes, with the keys that only linked to keys that went. -/
def release (ord : IterOrder String) (s : InMemoryStore) (resultID : String) :
    Option InMemoryStore :=
  match s.byResult.lookup resultID with
  | none => some s
  | some ids => (ord.order ids).foldlM (releaseKey ord resultID) s

/-! ## Runs -/

/-- One operation, in the iteration order `ord`; `none` when `Release` does not terminate. -/
def apply (ord : IterOrder String) (s : InMemoryStore) :
    CacheKeyStorage.Op → Option InMemoryStore
  | .addResult id res => some (s.addResult id res)
  | .addLink id link target => some (s.addLink id link target)
  | .release resultID => s.release ord resultID

/-- The stores reachable from a fresh one by any operations, in any iteration orders. -/
inductive Reachable : InMemoryStore → Prop
  | init : Reachable newInMemoryCacheStorage
  | step {s s' : InMemoryStore} (ord : IterOrder String) (op : CacheKeyStorage.Op) :
      Reachable s → s.apply ord op = some s' → Reachable s'

/-- A sequence of operations, each loop in the iteration order `ord`. -/
def run (ord : IterOrder String) (s : InMemoryStore) (ops : List CacheKeyStorage.Op) :
    Option InMemoryStore :=
  ops.foldlM (apply ord) s

end InMemoryStore

end Buildkit
