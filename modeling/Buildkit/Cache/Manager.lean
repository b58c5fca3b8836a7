import Buildkit.Cache.Refs

/-!
# The cache manager

The calls of `cacheManager` in `cache/manager.go` on the records of `refs.go`. `Get` returns a
new handle of an immutable record; of a mutable one it returns a handle of its twin, and commits
it first if it has none. `New` takes a handle of the parent with `Get` and finalizes it, then
prepares a snapshot for the new mutable record. `GetMutable` hands out a mutable record again,
removing a twin nobody holds. A call is one step, made under the manager's lock; the removal
that `finalize` starts in a goroutine is a step of its own, `removed`, which may come at any later
point.

`DiskUsage` reads the records under the lock and gives each one its number of handles, leaving
out the one of two twins that shares the data of the other (`usage`); the loop that counts the
handles children hold on their parents is in `Cache/Manager/DiskUsage.lean`.

Representation. Loading records from the metadata store when the manager starts is left out: a
record not in `cm.records` is not found. `Prune` and the options of `New` other than the cache
policy are left out.
-/

namespace Buildkit

namespace Cache

open State

/-- `getRecord` of a record in `cm.records`: it is not found once it or a twin is dead. -/
def getRecord (s : State) (id : Nat) : Except String Nat :=
  if id ∈ s.records ∧ !s.isDead (s.record id) then .ok id else .error "not found"

/-- `cacheManager.get`: a new handle of an immutable record; for a mutable record nobody holds, a
handle of its twin, committed first if it has none. -/
def get (s : State) (id : Nat) : Except String (Nat × State) := do
  let r ← getRecord s id
  let c := s.record r
  if c.mutable then
    if !c.refs.isEmpty then .error s!"{id} is locked: locked"
    else
      match c.equalImmutable with
      | some ih => .ok (s.newRef (s.handle ih).record false)
      | none =>
        let (mh, s) := s.newRef r true
        commit s mh
  else .ok (s.newRef r false)

/-- The part of `cacheManager.New` after the parent: a snapshot prepared for the record `id` on
the parent's, then the mutable record, with a new handle. Where the snapshot cannot be made, the
parent's handle is released, with its error dropped. -/
def newRecord (s : State) (parent : Option Nat) (retain : Bool) : Outcome Nat × State :=
  let id := s.recs.length
  match prepare s.snapshots id (parent.map fun ph => (s.handle ph).record) with
  | .ok snapshots =>
    let s := ({ s with snapshots } : State).addRecord ⟨true, [], parent, false, none, none, retain⟩
    let (h, s) := s.newRef id true
    (.ok h, s)
  | .error e =>
    let err := s!"failed to prepare {id}: {e}"
    match parent with
    | some ph => (.error err, (exec s.fuel (.release ph) s).2)
    | none => (.error err, s)

/-- `cacheManager.New` on the record of the handle `sh`, if any, with `CachePolicyRetain` if
`retain`. The parent's handle comes from `Get` and is finalized; if that fails it is not
released. -/
def new (s : State) (sh : Option Nat) (retain : Bool) : Outcome Nat × State :=
  match sh with
  | none => newRecord s none retain
  | some sh =>
    match get s (s.handle sh).record with
    | .error e => (.error e, s)
    | .ok (ph, s) =>
      match finalize s (s.handle ph).record true with
      | .error e => (.error e, s)
      | .ok s => newRecord s (some ph) retain

/-- `cacheManager.GetMutable`: a new handle of a mutable record nobody holds. A twin nobody
holds is taken out of `cm.records` and removed first. -/
def getMutable (s : State) (id : Nat) : Outcome Nat × State :=
  match getRecord s id with
  | .error e => (.error e, s)
  | .ok r =>
    let c := s.record r
    if !c.mutable then (.error s!"{id} is not mutable: invalid", s)
    else if !c.refs.isEmpty then (.error s!"{id} is locked: locked", s)
    else
      match c.equalImmutable with
      | none =>
        let (h, s) := s.newRef r true
        (.ok h, s)
      | some ih =>
        let i := (s.handle ih).record
        if !(s.record i).refs.isEmpty then (.error s!"{id} is locked: locked", s)
        else
          match exec s.fuel (.remove i false) { s with records := s.records.erase i } with
          | (.ok (), s) =>
            let (h, s) := (s.setRec r fun c => { c with equalImmutable := none }).newRef r true
            (.ok h, s)
          | (.error e, s) => (.error e, s)
          | (.panic e, s) => (.panic e, s)

/-- The calls on the manager and its handles. A handle is named by its number, in the order the
calls made them. -/
inductive Op
  /-- `Manager.New` on the record of a handle, or on none. -/
  | new (parent : Option Nat) (retain : Bool)
  /-- `Manager.Get`. -/
  | get (id : Nat)
  /-- `Manager.GetMutable`. -/
  | getMutable (id : Nat)
  /-- `MutableRef.Commit`. -/
  | commit (h : Nat)
  /-- `ImmutableRef.Clone`. -/
  | clone (h : Nat)
  /-- `Release` of an immutable or a mutable handle. -/
  | release (h : Nat)
  /-- `ImmutableRef.Finalize`. -/
  | finalize (h : Nat) (commit : Bool)
  /-- `CachePolicyRetain` of an immutable handle and the commit of its metadata, as the worker's
  cache result storage does when it saves a result. -/
  | cachePolicyRetain (h : Nat)
  /-- The goroutine of `finalize` that removes the record `r`. -/
  | removed (r : Nat)

/-- One call; what it returns is dropped. A call whose handle has the other type is ruled out by
Go's types and does nothing. -/
def step (s : State) : Op → State
  | .new parent retain => (new s parent retain).2
  | .get id => match get s id with
    | .ok (_, s) => s
    | .error _ => s
  | .getMutable id => (getMutable s id).2
  | .commit h =>
    if (s.handle h).mutable then
      match commit s h with
      | .ok (_, s) => s
      | .error _ => s
    else s
  | .clone h => if (s.handle h).mutable then s else (clone s h).2
  | .release h =>
    (exec s.fuel (if (s.handle h).mutable then .releaseMutable h else .release h) s).2
  | .finalize h commit =>
    if (s.handle h).mutable then s
    else
      match finalize s (s.handle h).record commit with
      | .ok s => s
      | .error _ => s
  | .cachePolicyRetain h =>
    if (s.handle h).mutable then s
    else s.setRec (s.handle h).record fun c => { c with retain := true }
  | .removed r =>
    -- the goroutine logs the error of `remove`
    if r ∈ s.pending then (exec s.fuel (.remove r false) { s with pending := s.pending.erase r }).2
    else s

/-- A sequence of calls. -/
def run (s : State) (ops : List Op) : State := ops.foldl step s

/-! ## `DiskUsage` -/

/-- `cacheUsageInfo`: the number of handles, the ID of the parent's record, and whether the record
is mutable and shares its data with a twin (`doubleRef`). -/
structure Usage where
  refs : Int
  parent : Option Nat
  mutable : Bool
  doubleRef : Bool
  deriving DecidableEq, Repr

/-- The first loop of `DiskUsage`: each record of `cm.records` with its handles, except a mutable
record whose twin is held and a twin whose mutable record is held by nobody. -/
def usage (s : State) : List (Nat × Usage) :=
  s.records.filterMap fun id =>
    let c := s.record id
    if c.equalImmutable.any (fun ih => !(s.record (s.handle ih).record).refs.isEmpty) ||
        (c.equalMutable.isSome && c.refs.isEmpty) then none
    else some (id, ⟨c.refs.length, c.parent.map fun ph => (s.handle ph).record, c.mutable,
      c.equalImmutable.isSome⟩)

end Cache

end Buildkit
