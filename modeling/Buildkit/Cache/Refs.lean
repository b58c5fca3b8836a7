import Mathlib.Data.List.Basic
import Buildkit.Lib.Outcome

/-!
# Cache records and their handles

A `cacheRecord` of `cache/refs.go` is a snapshot of the cache manager. Its `refs` are the handles
that are open on it: each `immutableRef` or `mutableRef` is a pointer, and a record holds the set
of them. A record on a parent holds a handle of the parent, its `parent`. `Commit` of a mutable
record makes a committed twin that shares the data: the twin's `equalMutable` is the handle that
was committed, and the mutable record's `equalImmutable` the handle `Commit` returns. The twin
holds a handle of the parent of its own. `finalize` commits the mutable record's data as the
twin's snapshot, marks the mutable record dead, and starts its removal in a goroutine.

`release` of an immutable handle takes it out of its record; the last one releases the
`equalMutable` handle. `release` of a mutable handle removes its record, the twin, and the handle
of the parent, unless a record keeps its cache (`CachePolicyRetain`). `remove` takes a record out
of `cm.records` and releases its parent's handle. These calls go up the chain of parents, and the
model gives them fuel (`exec`): they stop at the first record whose `refs` do not run out.

Representation. Records and handles are numbered as they are made, and the state keeps every one
made: a record taken out of `cm.records` is still reachable from the handles and twins that point
to it, as in Go. A handle is its record and whether it is a `mutableRef`. The snapshotter is the
set of its keys, which are the records' IDs. What the metadata store keeps besides the cache
policy (sizes, times, descriptions), the `triggerLastUsed` flags, and the view mounts of `Mount`
are left out.
-/

namespace Buildkit

namespace Cache

/-- A handle: the record it points to, and whether it is a `mutableRef` or an `immutableRef`. -/
structure Ref where
  record : Nat
  mutable : Bool
  deriving DecidableEq, Repr

instance : Inhabited Ref := ⟨⟨0, false⟩⟩

/-- `cacheRecord`: whether it is mutable, the handles open on it, the handle of its parent, the
`dead` mark, the handles `equalMutable` and `equalImmutable` of its twin, and whether its
metadata holds `cachePolicyRetain`. -/
structure Record where
  mutable : Bool
  refs : List Nat
  parent : Option Nat
  dead : Bool
  equalMutable : Option Nat
  equalImmutable : Option Nat
  retain : Bool
  deriving DecidableEq, Repr

instance : Inhabited Record := ⟨⟨false, [], none, false, none, none, false⟩⟩

/-- A `cacheManager`: every record made, by ID; the IDs in `cm.records`; every handle made, by
number; the snapshotter's keys; and the records whose removal a `finalize` has started in a
goroutine that has not run yet. -/
structure State where
  recs : List Record
  records : List Nat
  refs : List Ref
  snapshots : List Nat
  pending : List Nat
  deriving DecidableEq, Repr

namespace State

/-- A manager with no records. -/
def empty : State := ⟨[], [], [], [], []⟩

/-- The record with ID `r`. -/
def record (s : State) (r : Nat) : Record := s.recs.getD r default

/-- The handle numbered `h`. -/
def handle (s : State) (h : Nat) : Ref := s.refs.getD h default

/-- The record with ID `r` changed by `f`. -/
def setRec (s : State) (r : Nat) (f : Record → Record) : State :=
  { s with recs := s.recs.modify r f }

/-- `cr.ref` and `cr.mref`: a new handle of the record `r`, added to its `refs`. -/
def newRef (s : State) (r : Nat) (mutable : Bool) : Nat × State :=
  (s.refs.length,
    { s.setRec r (fun c => { c with refs := c.refs ++ [s.refs.length] }) with
      refs := s.refs ++ [⟨r, mutable⟩] })

/-- A record with ID `s.recs.length`, added to `cm.records`. -/
def addRecord (s : State) (c : Record) : State :=
  { s with recs := s.recs ++ [c], records := s.records ++ [s.recs.length] }

/-- `cacheRecord.isDead`: the record or one of its twins is marked dead. -/
def isDead (s : State) (c : Record) : Bool :=
  c.dead || c.equalImmutable.any (fun h => (s.record (s.handle h).record).dead) ||
    c.equalMutable.any fun h => (s.record (s.handle h).record).dead

end State

/-! ## The snapshotter -/

/-- `Snapshotter.Prepare` of the active snapshot `key` on the committed snapshot `parent`. -/
def prepare (snapshots : List Nat) (key : Nat) (parent : Option Nat) : Except String (List Nat) :=
  if key ∈ snapshots then .error "already exists"
  else if parent.all (· ∈ snapshots) then .ok (snapshots ++ [key])
  else .error "not found"

/-- `Snapshotter.Commit` of the active snapshot `key` as `name`. -/
def snapshotCommit (snapshots : List Nat) (name key : Nat) : Except String (List Nat) :=
  if key ∈ snapshots then .ok ((snapshots.erase key).insert name) else .error "not found"

/-- `Snapshotter.Remove`. -/
def snapshotRemove (snapshots : List Nat) (key : Nat) : Except String (List Nat) :=
  if key ∈ snapshots then .ok (snapshots.erase key) else .error "not found"

/-! ## Releasing handles and removing records -/

/-- The calls of `refs.go` that release a handle or remove a record, which call one another up
the chain of parents. -/
inductive Call
  /-- `immutableRef.release`. -/
  | release (h : Nat)
  /-- `mutableRef.release`. -/
  | releaseMutable (h : Nat)
  /-- `cacheRecord.remove`. -/
  | remove (r : Nat) (removeSnapshot : Bool)

/-- The message of a recursion deeper than the model's fuel. -/
def stackExceeded : String := "runtime: goroutine stack exceeds limit"

/-- The calls, which keep what they changed when they fail. Their recursion goes up the chain of
parents and is given `fuel`. -/
def exec : Nat → Call → State → Outcome Unit × State
  | 0, _, s => (.panic stackExceeded, s)
  | fuel + 1, .release h, s =>
    let r := (s.handle h).record
    let s := s.setRec r fun c => { c with refs := c.refs.erase h }
    if (s.record r).refs.isEmpty then
      match (s.record r).equalMutable with
      -- `sr.equalMutable.release(ctx)`, whose error is dropped
      | some mh => (.ok (), (exec fuel (.releaseMutable mh) s).2)
      | none => (.ok (), s)
    else (.ok (), s)
  | fuel + 1, .releaseMutable h, s =>
    let r := (s.handle h).record
    let s := s.setRec r fun c => { c with refs := c.refs.erase h }
    let c := s.record r
    -- the parent's handle, then the record with its snapshot
    let releaseRest : State → Outcome Unit × State := fun s =>
      Outcome.andThen (exec fuel (.remove r true))
        (match c.parent with
          | some ph => exec fuel (.release ph) s
          | none => (.ok (), s))
    if c.retain then (.ok (), s)
    else
      match c.equalImmutable with
      | some ih =>
        let i := (s.handle ih).record
        -- a twin that keeps its cache keeps both records
        if (s.record i).retain then (.ok (), s)
        else Outcome.andThen releaseRest (exec fuel (.remove i false) s)
      | none => releaseRest s
  | fuel + 1, .remove r removeSnapshot, s =>
    let c := s.record r
    let s := { s with records := s.records.erase r }
    Outcome.andThen (fun s =>
        if removeSnapshot then
          match snapshotRemove s.snapshots r with
          | .ok snapshots => (.ok (), { s with snapshots })
          | .error e => (.error e, s)
        else (.ok (), s))
      (match c.parent with
        | some ph => exec fuel (.release ph) s
        | none => (.ok (), s))

/-- The fuel of a call: a chain of parents has fewer records than there are, and each takes at
most three nested calls. -/
def State.fuel (s : State) : Nat := 3 * (s.recs.length + 1)

/-! ## Commit, finalize and clone -/

/-- `mutableRef.commit` of the handle `h`: a committed twin on a new handle of the parent, whose
`equalMutable` is `h`; a handle of the twin is returned and becomes the mutable record's
`equalImmutable`. -/
def commit (s : State) (h : Nat) : Except String (Nat × State) :=
  let m := (s.handle h).record
  let c := s.record m
  if !c.mutable || c.refs.isEmpty then .error "invalid mutable ref: invalid"
  else
    let id := s.recs.length
    -- `sr.parentRef(false)`: a new handle of the parent's record
    let (parent, s) : Option Nat × State := match c.parent with
      | some ph =>
        let (p, s) := s.newRef (s.handle ph).record false
        (some p, s)
      | none => (none, s)
    let s := s.addRecord ⟨false, [], parent, false, some h, none, false⟩
    let (ref, s) := s.newRef id false
    .ok (ref, s.setRec m fun c => { c with equalImmutable := some ref })

/-- `cacheRecord.finalize` of the record `r`. With `commit`, the data of the mutable twin is
committed as the record's snapshot, the twin is marked dead and its removal is started in a
goroutine, and the record has no `equalMutable` any more. Without `commit` nothing the model
keeps changes. -/
def finalize (s : State) (r : Nat) (commit : Bool) : Except String State :=
  match (s.record r).equalMutable with
  | none => .ok s
  | some mh =>
    if !commit then .ok s
    else
      let m := (s.handle mh).record
      match snapshotCommit s.snapshots r m with
      | .error e => .error s!"failed to commit {m}: {e}"
      | .ok snapshots =>
        let s := (({ s with snapshots } : State).setRec m fun c => { c with dead := true })
        .ok { s.setRec r (fun c => { c with equalMutable := none }) with
          pending := s.pending ++ [m] }

/-- `immutableRef.Clone`: a new handle of the same record. -/
def clone (s : State) (h : Nat) : Nat × State := s.newRef (s.handle h).record false

end Cache

end Buildkit
