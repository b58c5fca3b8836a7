import Buildkit.Lib.Bolt
import Buildkit.Lib.Loop
import Buildkit.Solver.Types

/-!
# The bbolt cache key storage

`Store` of `solver/bboltcachestorage/storage.go`. The database has four buckets, each holding one
nested bucket per name: `_result` (per key, its results by result ID), `_links` (per key, one
entry `json(link)@target` per link), `_byresult` (per result, the keys holding it) and
`_backlinks` (per key, the keys that linked to it). `NewStore` creates the four, so the checks of
the source for a missing top bucket never fire and are left out.

`encoding/json` enters twice. A result is stored as its JSON text and read back by
`json.Unmarshal`; the model stores the `CacheResult` itself. A link is marshalled into the key of
its entry: `marshal` is that encoding, a parameter of every definition that builds or reads such a
key, and `unmarshal` its inverse where the source decodes one.

bbolt visits the keys of a bucket in byte order; the model takes the order of every `ForEach` as
an `IterOrder`, so what is proved holds of bbolt's order among others. A `ForEach` visits the keys
the bucket had when it started; the source deletes keys of a bucket while it visits it, which
bbolt leaves unspecified beyond the bucket's last key.

`emptyBranchWithParents` recurses along backlinks with no bound in the source; the model gives it
fuel, one more than the number of keys with a result bucket, and runs out (`none`) past it.
-/

namespace Buildkit

namespace BboltCacheStorage

open Bolt

/-- `Store`, with its four top buckets. -/
structure Store where
  result : Bucket (Bucket CacheResult)
  links : Bucket (Bucket Unit)
  byResult : Bucket (Bucket Unit)
  backlinks : Bucket (Bucket Unit)

/-- `NewStore`, on a new database file. -/
def newStore : Store := ⟨∅, ∅, ∅, ∅⟩

/-- The key of the entry of a link to `target`: `bytes.Join([json(link), target], "@")`. -/
def linkKey (marshal : CacheInfoLink → String) (link : CacheInfoLink) (target : String) :
    String :=
  "@".intercalate [marshal link, target]

/-- `bytes.Split(k, "@")`. -/
def splitKey (k : String) : List String :=
  (k.toList.splitOn '@').map String.ofList

theorem linkKey_ne_empty (marshal : CacheInfoLink → String) (link : CacheInfoLink)
    (target : String) : linkKey marshal link target ≠ "" := by
  intro h
  have := congrArg String.toList h
  simp [linkKey] at this

/-- A key splits back into the link and the target it was joined from, when neither holds `@`. -/
theorem splitKey_linkKey {marshal : CacheInfoLink → String} {link : CacheInfoLink}
    {target : String} (hm : '@' ∉ (marshal link).toList) (ht : '@' ∉ target.toList) :
    splitKey (linkKey marshal link target) = [marshal link, target] := by
  unfold splitKey linkKey
  have hsep : "@".toList = ['@'] := rfl
  rw [String.toList_intercalate, hsep, List.splitOn_intercalate]
  · simp
  · simp [hm, ht]
  · simp

namespace Store

variable (marshal : CacheInfoLink → String) (ord : IterOrder String)

/-! ## Queries -/

/-- `Exists`: the key has a links bucket. -/
def «exists» (s : Store) (id : String) : Bool :=
  (s.links.lookup id).isSome

/-- `Walk`. -/
def walk (s : Store) : List String :=
  ord.order s.links.keys

/-- `WalkResults`. -/
def walkResults (s : Store) (id : String) : List CacheResult :=
  match s.result.lookup id with
  | some b => (ord.order b.keys).filterMap b.lookup
  | none => []

/-- `Load`, with the text of `ErrNotFound`. -/
def load (s : Store) (id resultID : String) : Except String CacheResult :=
  match s.result.lookup id with
  | none => .error "not found"
  | some b =>
    match b.lookup resultID with
    | some r => .ok r
    | none => .error "not found"

/-- `WalkIDsByResult`. -/
def walkIDsByResult (s : Store) (resultID : String) : List String :=
  match s.byResult.lookup resultID with
  | some b => ord.order b.keys
  | none => []

/-- `WalkLinks`: the keys of the links bucket of `id` starting with `json(link)@`, that prefix
trimmed. The cursor of the source seeks the prefix and reads on while it matches; in byte order
these are all the keys with the prefix. -/
def walkLinks (s : Store) (id : String) (link : CacheInfoLink) : List String :=
  match s.links.lookup id with
  | none => []
  | some b =>
    let index := (marshal link ++ "@").toList
    ((ord.order b.keys).filter fun k => index.isPrefixOf k.toList).map fun k =>
      String.ofList (k.toList.drop index.length)

/-- `HasLink`. -/
def hasLink (s : Store) (id : String) (link : CacheInfoLink) (target : String) : Bool :=
  match s.links.lookup id with
  | some b => (b.lookup (linkKey marshal link target)).isSome
  | none => false

/-- `WalkBacklinks`: for every key `bid` of the backlinks bucket of `id` that has a links bucket,
every entry of it to `id`, decoded and reported under the root key of its digest and output.
An entry that does not split in two parts is skipped; one whose link does not decode fails. -/
def walkBacklinks (fromBytes : String → Digest) (unmarshal : String → Except String CacheInfoLink)
    (s : Store) (id : String) : Except String (List (String × CacheInfoLink)) :=
  match s.backlinks.lookup id with
  | none => .ok []
  | some b => (ord.order b.keys).foldlM (fun out bid =>
      match s.links.lookup bid with
      | none => .ok out
      | some lb => (ord.order lb.keys).foldlM (fun out k =>
          match splitKey k with
          | [dt, target] =>
            if target = id then do
              let l ← unmarshal dt
              let l := { l with digest := rootKey fromBytes l.digest l.output, output := 0 }
              pure (out ++ [(bid, l)])
            else pure out
          | _ => pure out) out) []

/-! ## Updates -/

/-- `AddResult`. -/
def addResult (s : Store) (id : String) (res : CacheResult) : Except String Store := do
  let links ← createBucketIfNotExists s.links id
  let b ← createBucketIfNotExists s.result id
  let b ← put b res.id res
  let ids ← createBucketIfNotExists s.byResult res.id
  let ids ← put ids id ()
  pure ⟨s.result.insert id b, s.links.insert id links, s.byResult.insert res.id ids, s.backlinks⟩

/-- `AddLink`. -/
def addLink (s : Store) (id : String) (link : CacheInfoLink) (target : String) :
    Except String Store := do
  let b ← createBucketIfNotExists s.links id
  let b ← put b (linkKey marshal link target) ()
  let s := { s with links := s.links.insert id b }
  let bl ← createBucketIfNotExists s.backlinks target
  let bl ← put bl id ()
  pure { s with backlinks := s.backlinks.insert target bl }

/-- The loop of `emptyBranchWithParents` over a links bucket: the entries to `id` go, and an
entry that does not split in two parts fails with `invalid key`. -/
def dropLinksTo (id : String) (subLinks : Bucket Unit) : Except String (Bucket Unit) :=
  (ord.order subLinks.keys).foldlM (fun sub k =>
    match splitKey k with
    | [_, target] => .ok (if target = id then sub.erase k else sub)
    | _ => .error ("invalid key " ++ k)) subLinks

/-- One iteration of the loop of `emptyBranchWithParents` over the backlinks of `id`: the key `k`
loses its links to `id`, and its links bucket goes once empty; then the recursion `recurse` goes
into `k`. -/
def emptyParent (recurse : Store → String → Tx Store) (id : String) (s : Store) (k : String) :
    Tx Store := do
  let s ← match s.links.lookup k with
    | none => pure s
    | some subLinks => do
      let subLinks ← dropLinksTo ord id subLinks
      let links := s.links.insert k subLinks
      if isEmptyBucket (some subLinks) then
        let links ← deleteBucket links k
        pure { s with links }
      else pure { s with links }
  recurse s k

/-- `emptyBranchWithParents`. A key without a result bucket is left alone; so is one whose result
bucket or links bucket holds an entry. Otherwise the recursion goes into every key of its
backlinks, its backlinks bucket goes, and its links and result buckets go. -/
def emptyBranchWithParents (fuel : Nat) (s : Store) (id : String) : Tx Store :=
  match s.result.lookup id with
  | none => pure s
  | some results =>
    if isEmptyBucket (some results) ∧ isEmptyBucket (s.links.lookup id) then
      match fuel with
      | 0 => outOfFuel
      | fuel + 1 => do
        let s ← match s.backlinks.lookup id with
          | none => pure s
          | some backlinks => do
            let s ← (ord.order backlinks.keys).foldlM
              (emptyParent ord (emptyBranchWithParents fuel) id) s
            let bl ← deleteBucket s.backlinks id
            pure { s with backlinks := bl }
        pure { s with links := s.links.erase id, result := s.result.erase id }
    else pure s

/-- The fuel `Release` gives the recursion. -/
def releaseFuel (s : Store) : Nat := s.result.keys.length + 1

/-- `releaseHelper`. -/
def releaseHelper (s : Store) (id resultID : String) : Tx Store :=
  match s.result.lookup id with
  | none => pure s
  | some results =>
    let s := { s with result := s.result.insert id (results.erase resultID) }
    match s.byResult.lookup resultID with
    | none => pure s
    | some ids => do
      let byResult := s.byResult.insert resultID (ids.erase id)
      let s ← if isEmptyBucket (some (ids.erase id)) then do
          let byResult ← deleteBucket byResult resultID
          pure { s with byResult }
        else pure { s with byResult }
      emptyBranchWithParents ord s.releaseFuel s id

/-- `Release`, with the text of `ErrNotFound` for a result nobody holds. -/
def release (s : Store) (resultID : String) : Tx Store :=
  match s.byResult.lookup resultID with
  | none => throw "not found"
  | some ids => (ord.order ids.keys).foldlM (fun s k => releaseHelper ord s k resultID) s

/-! ## Runs -/

/-- One call in an `Update` transaction: the new store, or the old one when the call fails;
`none` when `Release` runs out of fuel. -/
def apply (s : Store) : CacheKeyStorage.Op → Option Store
  | .addResult id res => some ((s.addResult id res).toOption.getD s)
  | .addLink id link target => some ((s.addLink marshal id link target).toOption.getD s)
  | .release resultID =>
    (s.release ord resultID).run.map fun r => r.toOption.getD s

/-- A sequence of calls. -/
def run (s : Store) (ops : List CacheKeyStorage.Op) : Option Store :=
  ops.foldlM (apply marshal ord) s

end Store

end BboltCacheStorage

end Buildkit
