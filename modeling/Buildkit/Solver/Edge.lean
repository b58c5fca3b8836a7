import Mathlib
import Buildkit.Lib.Loop
import Buildkit.Solver.CacheKey

/-!
# Edges of the solver

`edge` of `solver/edge.go`: the state of one output of one vertex while the scheduler works on
it, and `unpark`, which the scheduler calls with the edge's incoming requests and the updates
of its outgoing ones.

Pipes. An edge talks to the rest of the scheduler through pipes (`solver/internal/pipe`). A
pipe has an identity (`Nat` here); the edge keeps the identities of its own requests
(`cacheMapReq`, `execReq`, and per dependency `req` and `slowCacheReq`). The `Pipes` of an edge
are its incoming requests, seen from their sender side (the edge answers them), and its
outgoing requests, seen from their receiver side (the edge reads them). A receiver's `Status`
changes only when `Receive` takes the last status the sender sent. A request dropped from the
outgoing list was dropped because it had completed, so an unknown identity reads as completed.

What the edge does not decide comes from outside: the cache manager's answers
(`CacheManager`), the values the pipes carry, and the order of every loop over a Go map
(`IterOrder`). An update of the edge's own incoming requests (`updateIncoming`) changes nothing
the edge reads and is left out; so are the exporters attached to keys, the debug logging, and
the fields `releaserCount`, `index` and `secondaryExporters`, which `unpark` does not use.
-/

namespace Buildkit

/-- `edgeStatusType`. -/
inductive EdgeStatus
  | initial
  | cacheFast
  | cacheSlow
  | complete
  deriving DecidableEq, Repr

namespace EdgeStatus

/-- The position in the order `initial < cache-fast < cache-slow < complete`. -/
def toNat : EdgeStatus → Nat
  | initial => 0
  | cacheFast => 1
  | cacheSlow => 2
  | complete => 3

theorem toNat_injective : Function.Injective toNat := by
  intro a b h
  cases a <;> cases b <;> first | rfl | cases h

instance : LinearOrder EdgeStatus := LinearOrder.lift' toNat toNat_injective

end EdgeStatus

/-- `edgeState`. -/
structure EdgeState where
  state : EdgeStatus
  result : Option CachedResult
  cacheMap : Option CacheMap
  keys : List CacheKey

/-- `edgeRequest`. -/
structure EdgeRequest where
  desiredState : EdgeStatus
  currentState : EdgeState
  currentKeys : Nat

/-- `cacheMapResp`. -/
structure CacheMapResp where
  cacheMap : CacheMap
  complete : Bool

/-! ## Pipes -/

/-- What a pipe carries from its sender. -/
inductive Value
  | none
  | edgeState (s : EdgeState)
  | cacheMap (resp : CacheMapResp)
  | result (res : CachedResult)
  | digest (d : Digest)

/-- `pipe.Status`. -/
structure Status where
  canceled : Bool
  completed : Bool
  err : Option String
  value : Value

/-- The status of a pipe nothing was received from. -/
def Status.initial : Status := ⟨false, false, none, .none⟩

/-- The function behind a function request (`NewFuncRequest`). -/
inductive Func
  | cacheMap (index : Nat)
  | loadCache
  | execOp
  | calcSlowCache (index : Nat)
  | postpone

/-- What an outgoing request asks for: a state of a dependency, the result of a function, or
whatever a request moved over from an edge merged into this one asked for. -/
inductive OutKind
  | input (req : EdgeRequest)
  | func (f : Func)
  | merged

/-- An incoming request, seen from its sender. -/
structure Incoming where
  id : Nat
  request : EdgeRequest
  canceled : Bool
  completed : Bool

/-- An outgoing request, seen from its receiver: whether it was canceled, the status last
received, and the last status sent and not yet received. -/
structure Outgoing where
  id : Nat
  kind : OutKind
  canceled : Bool
  status : Status
  sent : Option Status

/-- The pipes of an edge: `incoming[e]` and `outgoing[e]` of the scheduler, and the next fresh
pipe identity. -/
structure Pipes where
  incoming : List Incoming
  outgoing : List Outgoing
  nextID : Nat

namespace Pipes

/-- `Status().Completed` of the receiver of a request. -/
def completed (p : Pipes) (id : Nat) : Bool :=
  match p.outgoing.find? (·.id = id) with
  | some o => o.status.completed
  | none => true

/-- `Status()` of the receiver of a request. -/
def statusOf (p : Pipes) (id : Nat) : Status :=
  match p.outgoing.find? (·.id = id) with
  | some o => o.status
  | none => { Status.initial with completed := true }

/-- The desired state an outgoing input request asked for. -/
def desiredOf (p : Pipes) (id : Nat) : Option EdgeStatus :=
  match (p.outgoing.find? (·.id = id)).map (·.kind) with
  | some (OutKind.input req) => some req.desiredState
  | _ => none

/-- `Cancel()` of the receiver of a request. -/
def cancel (p : Pipes) (id : Nat) : Pipes :=
  { p with
    outgoing := p.outgoing.map (fun o => if o.id = id then { o with canceled := true } else o) }

/-- A new outgoing request. -/
def newRequest (p : Pipes) (kind : OutKind) : Pipes × Nat :=
  ({ p with
      outgoing := p.outgoing ++ [⟨p.nextID, kind, false, .initial, none⟩]
      nextID := p.nextID + 1 }, p.nextID)

/-- `Finalize` of an incoming request by the edge. -/
def finish (p : Pipes) (id : Nat) : Pipes :=
  { p with
    incoming := p.incoming.map (fun r => if r.id = id then { r with completed := true } else r) }

end Pipes

/-! ## The edge -/

/-- `dep`: what the edge knows of one of its inputs. -/
structure Dep extends EdgeState where
  req : Option Nat
  index : Nat
  keyMap : AList (fun _ : String => CacheKey)
  slowCacheReq : Option Nat
  slowCacheComplete : Bool
  slowCacheFoundKey : Bool
  slowCacheKey : Option CacheKey
  err : Option String

/-- `newDep`. -/
def newDep (i : Nat) : Dep where
  state := .initial
  result := none
  cacheMap := none
  keys := []
  req := none
  index := i
  keyMap := ∅
  slowCacheReq := none
  slowCacheComplete := false
  slowCacheFoundKey := false
  slowCacheKey := none
  err := none

/-- The `solver.Edge` an edge works on: its output index, and the number of inputs of its
vertex. -/
structure SolverEdge where
  index : Index
  inputs : Nat

/-- What the edge asks of its operation: `IgnoreCache()`. -/
structure ActiveOp where
  ignoreCache : Bool

/-- `edge`. -/
structure Edge extends EdgeState where
  edge : SolverEdge
  op : ActiveOp
  depRequests : AList (fun _ : Nat => Nat)
  deps : Option (List Dep)
  cacheMapReq : Option Nat
  cacheMapDone : Bool
  cacheMapIndex : Nat
  cacheMapDigests : List Digest
  execReq : Option Nat
  err : Option String
  cacheRecords : AList (fun _ : String => CacheRecord)
  keyMap : AList (fun _ : String => CacheKey)
  noCacheMatchPossible : Bool
  allDepsCompletedCacheFast : Bool
  allDepsCompletedCacheSlow : Bool
  allDepsStateCacheSlow : Bool
  allDepsCompleted : Bool
  hasActiveOutgoing : Bool
  keysDidChange : Bool

/-- `newEdge`. -/
def newEdge (ed : SolverEdge) (op : ActiveOp) : Edge where
  state := .initial
  result := none
  cacheMap := none
  keys := []
  edge := ed
  op := op
  depRequests := ∅
  deps := none
  cacheMapReq := none
  cacheMapDone := false
  cacheMapIndex := 0
  cacheMapDigests := []
  execReq := none
  err := none
  cacheRecords := ∅
  keyMap := ∅
  noCacheMatchPossible := false
  allDepsCompletedCacheFast := false
  allDepsCompletedCacheSlow := false
  allDepsStateCacheSlow := false
  allDepsCompleted := false
  hasActiveOutgoing := false
  keysDidChange := false

namespace Edge

variable (fromBytes : String → Digest) (cm : CacheManager) (ord : IterOrder String)

/-- `e.deps`, empty before it is set up. -/
def depList (e : Edge) : List Dep := e.deps.getD []

/-- The edge with the dependency `i` replaced. -/
def setDep (e : Edge) (i : Nat) (d : Dep) : Edge :=
  { e with deps := e.deps.map (·.set i d) }

/-- `e.cacheMap.Deps[i]`; the source reads it only once the cache map is set. -/
def cacheMapDep (e : Edge) (i : Nat) : CacheMapDep :=
  match e.cacheMap with
  | some m => m.deps.getD i ⟨"", false⟩
  | none => ⟨"", false⟩

/-- `isComplete`. -/
def isComplete (e : Edge) : Bool := e.err.isSome || e.result.isSome

/-- `slowCacheFunc(dep) != nil`. -/
def slowCacheFunc (e : Edge) (d : Dep) : Bool :=
  e.cacheMap.isSome && (e.cacheMapDep d.index).computeDigestFunc

/-- `probeCache`: the keys the cache manager finds for `depKeys` join the dependency's
`keyMap`; whether one was new. A failed query sets the edge's error. -/
def probeCache (e : Edge) (d : Dep) (depKeys : List CacheKeyWithSelector) : Edge × Dep × Bool :=
  if depKeys.isEmpty then (e, d, false)
  else if e.op.ignoreCache then (e, d, false)
  else
    let dgst := (e.cacheMap.map (·.digest)).getD ""
    match cm.query depKeys d.index dgst e.edge.index with
    | .error err => ({ e with err := some ("error on cache query: " ++ err) }, d, false)
    | .ok keys =>
      let (keyMap, found) := keys.foldl (fun (acc : AList (fun _ : String => CacheKey) × Bool) k =>
        if k.id ∈ acc.1 then acc else (acc.1.insert k.id k, true)) (d.keyMap, false)
      (e, { d with keyMap }, found)

/-- `checkDepMatchPossible`. -/
def checkDepMatchPossible (e : Edge) (d : Dep) : Edge :=
  let depHasSlowCache := (e.cacheMapDep d.index).computeDigestFunc
  { e with noCacheMatchPossible := e.noCacheMatchPossible ||
      (((!d.slowCacheFoundKey && d.slowCacheComplete && depHasSlowCache) ||
        (!depHasSlowCache && decide (d.state ≥ .cacheSlow))) && d.keyMap.keys.isEmpty) }

/-- `allDepsHaveKeys`. -/
def allDepsHaveKeys (e : Edge) (matching : Bool) : Bool :=
  e.cacheMap.isSome && e.depList.all fun d =>
    let cond := if matching then d.keyMap.keys.isEmpty else d.keys.isEmpty
    !(cond && d.slowCacheKey.isNone && d.result.isNone)

/-- `skipPhase2SlowCache`. -/
def skipPhase2SlowCache (e : Edge) (dep : Dep) : Bool :=
  let isPhase1 := e.depList.any fun d =>
    ((!d.slowCacheComplete && e.slowCacheFunc d) || decide (d.state < .cacheSlow)) &&
      d.keyMap.keys.isEmpty
  isPhase1 && !dep.slowCacheComplete && e.slowCacheFunc dep && !dep.keyMap.keys.isEmpty

/-- `skipPhase2FastCache`. -/
def skipPhase2FastCache (e : Edge) (dep : Dep) : Bool :=
  let isPhase1 := e.depList.any fun d =>
    e.cacheMap.isNone || (d.keyMap.keys.isEmpty &&
      ((!d.slowCacheComplete && e.slowCacheFunc d) ||
        (decide (d.state < .complete) && !e.slowCacheFunc d)))
  isPhase1 && !dep.keyMap.keys.isEmpty

/-! ## `processUpdate` -/

/-- The records `Records(k)` returns join `cacheRecords`, and `k` joins the keys (as
`makeExportable(k, records)`); a failed `Records` adds nothing. -/
def addKeyWithRecords (acc : AList (fun _ : String => CacheRecord) × List CacheKey)
    (k : CacheKey) : AList (fun _ : String => CacheRecord) × List CacheKey :=
  match cm.records k with
  | .error _ => acc
  | .ok records => (records.foldl (fun m r => m.insert r.id r) acc.1, acc.2 ++ [k])

/-- `addKeyWithRecords` for each key in turn. -/
def addKeysWithRecords (e : Edge) (ks : List CacheKey) : Edge :=
  let r := ks.foldl (addKeyWithRecords cm) (e.cacheRecords, e.keys)
  { e with cacheRecords := r.1, keys := r.2 }

/-- The loop of the cache-map branch over the dependencies: the keys each one already has are
probed against the new cache map. -/
def probeDeps (e : Edge) : Edge :=
  (List.range e.depList.length).foldl (fun e i =>
    match e.depList[i]? with
    | none => e
    | some d =>
      let r := e.probeCache cm d (withSelector d.keys (e.cacheMapDep i).selector)
      (r.1.setDep i r.2.1).checkDepMatchPossible r.2.1) e

/-- The cache-map branch for an edge without dependencies: it looks its keys up at once and is
then at `cache-slow`. A failed query is only logged. -/
def queryNoDeps (e : Edge) (dgst : Digest) : Edge :=
  let e := { e with cacheMapDigests := e.cacheMapDigests ++ [dgst] }
  let e := if !e.op.ignoreCache then
      match cm.query [] 0 dgst e.edge.index with
      | .error _ => e
      | .ok keys => addKeysWithRecords cm e keys
    else e
  { e with state := .cacheSlow }

/-- The response of the cache-map request. -/
def processCacheMap (e : Edge) (resp : CacheMapResp) : Edge :=
  let e := { e with cacheMap := some resp.cacheMap, cacheMapDone := resp.complete,
                    cacheMapIndex := e.cacheMapIndex + 1 }
  let e := if e.depList.length = 0 then queryNoDeps cm e resp.cacheMap.digest else e
  let e := { e with keysDidChange := e.keysDidChange || e.allDepsHaveKeys false }
  let e := probeDeps cm e
  { e with cacheMapReq := if e.cacheMapDone then e.cacheMapReq else none }

/-- The keys of an update of the dependency `i` beyond those it has: once the cache map is known
they are probed and the dependency takes them. -/
def probeNewKeys (e : Edge) (i : Nat) (d : Dep) (state : EdgeState) : Edge × Dep :=
  if d.keys.length < state.keys.length ∧ e.cacheMap.isSome then
    let r := e.probeCache cm d
      (withSelector (state.keys.drop d.keys.length) (e.cacheMapDep d.index).selector)
    let d := { r.2.1 with keys := state.keys }
    let e := r.1.setDep i d
    ({ e with keysDidChange := e.keysDidChange || e.allDepsHaveKeys false }, d)
  else (e, d)

/-- An error the dependency sent becomes the edge's, unless it has one, and the dependency's. -/
def depFailed (e : Edge) (d : Dep) (st : Status) : Edge × Dep :=
  let failed := !st.canceled && st.completed && st.err.isSome
  ({ e with err := if failed then e.err.or st.err else e.err },
   { d with err := if failed then st.err else d.err })

/-- The dependency `i` takes the state its edge sent: the edge's keys may change once it
completes, and whether a match is possible is checked again once its state changed; whether it
did. -/
def takeState (e : Edge) (i : Nat) (d : Dep) (state : EdgeState) : Edge × Bool :=
  let completes := decide (d.state ≠ .complete ∧ state.state = .complete)
  let e := { e with keysDidChange := e.keysDidChange || completes }
  let recheck := decide (state.state ≠ d.state)
  let d := { d with toEdgeState := state }
  let e := e.setDep i d
  (if recheck && e.cacheMap.isSome then e.checkDepMatchPossible d else e,
    recheck && e.cacheMap.isSome)

/-- An update of the request for the dependency `i`: its error, its new keys, its state. -/
def processDepUpdate (e : Edge) (i : Nat) (d : Dep) (st : Status) : Edge × Bool :=
  let f := depFailed e d st
  let state : EdgeState := match st.value with
    | .edgeState s => s
    | _ => f.2.toEdgeState
  let r := probeNewKeys cm f.1 i f.2 state
  let t := takeState r.1 i r.2 state
  (t.1, decide (f.2.keys.length < state.keys.length) || t.2)

/-- The response of the slow-cache request of the dependency `i`. The query that connects the
definition keys of the dependency to its slow key has no effect on the edge and is left out. -/
def processSlowCache (e : Edge) (i : Nat) (d : Dep) (st : Status) : Edge :=
  match st.err with
  | some err =>
    let e := e.setDep i { d with slowCacheReq := none }
    { e with err := if !st.canceled && e.err.isNone then some err else e.err }
  | none =>
    if !d.slowCacheComplete then
      let dgst := match st.value with
        | .digest dgst => dgst
        | _ => ""
      let k := newCacheKey fromBytes dgst (-1)
      let r := e.probeCache cm { d with slowCacheKey := some k } [⟨"", k⟩]
      let d := { r.2.1 with slowCacheFoundKey := r.2.2, slowCacheComplete := true }
      { r.1.setDep i d with keysDidChange := true }.checkDepMatchPossible d
    else e

/-- The response of the cache-map request: its error, or its cache map. -/
def processCacheMapUpdate (e : Edge) (st : Status) : Edge :=
  match st.err with
  | some err =>
    { e with cacheMapReq := none,
             err := if !st.canceled && e.err.isNone then some err else e.err }
  | none =>
    match st.value with
    | .cacheMap resp => processCacheMap cm e resp
    | _ => e

/-- The response of the execution request: its error, or the result. -/
def processExecUpdate (e : Edge) (st : Status) : Edge :=
  match st.err with
  | some err =>
    { e with execReq := none,
             err := if !st.canceled && e.err.isNone then some err else e.err }
  | none =>
    match st.value with
    | .result res => { e with result := some res, state := .complete }
    | _ => e

/-- `processUpdate`: the update `upt`, with the status received from it; whether the state the
dependencies give the edge may have changed. -/
def processUpdate (e : Edge) (upt : Nat) (st : Status) : Edge × Bool :=
  if e.cacheMapReq = some upt ∧ st.completed then (processCacheMapUpdate cm e st, true)
  else if e.execReq = some upt ∧ st.completed then (processExecUpdate e st, true)
  else
    match e.depRequests.lookup upt with
    | some i =>
      match e.depList[i]? with
      | some d => processDepUpdate cm e i d st
      | none => (e, false)
    | none =>
      match e.depList.findIdx? (·.slowCacheReq = some upt) with
      | some i =>
        match e.depList[i]? with
        | some d => if st.completed then (processSlowCache fromBytes cm e i d st, true)
          else (e, false)
        | none => (e, false)
      | none => (e, false)

/-! ## `recalcCurrentState` -/

/-- The IDs the keys of every dependency have in common, with the key of the first one; none of
`e.keyMap`, which nothing fills. The `break` of the source once the map is empty changes
nothing: a later dependency only removes. -/
def newKeys (e : Edge) : AList (fun _ : String => CacheKey) :=
  match e.depList with
  | [] => ∅
  | d₀ :: rest =>
    let first := d₀.keyMap.entries.foldl (fun (m : AList (fun _ : String => CacheKey)) ent =>
      if ent.1 ∈ e.keyMap then m else m.insert ent.1 ent.2) ∅
    rest.foldl (fun m d => m.keys.foldl (fun m id => if id ∈ d.keyMap then m else m.erase id) m)
      first

/-- The key of `r` made from the current keys of the dependencies: the result's keys (and the
slow key) of a completed one, the keys of any other. -/
def mergedKey (e : Edge) (r : CacheKey) : CacheKey :=
  r.withDeps (e.depList.mapIdx fun i dep =>
    match dep.result with
    | some res => withSelector res.cacheKeys (e.cacheMapDep i).selector ++
        (dep.slowCacheKey.map fun k => [⟨"", k⟩]).getD []
    | none => withSelector dep.keys (e.cacheMapDep i).selector)

/-- Whether the slow cache of a dependency is still to come. -/
def isSlowIncomplete (e : Edge) (d : Dep) : Bool :=
  e.slowCacheFunc d &&
    (d.state = .cacheSlow || (d.state = .complete && !d.slowCacheComplete))

/-- The bounds `recalcCurrentState` computes over the dependencies. -/
structure Bounds where
  stLow : EdgeStatus
  stHigh : EdgeStatus
  allDepsCompletedCacheFast : Bool
  allDepsCompletedCacheSlow : Bool
  allDepsStateCacheSlow : Bool
  allDepsCompleted : Bool

/-- One dependency's contribution to the bounds. -/
def boundsStep (e : Edge) (b : Bounds) (dep : Dep) : Bounds :=
  let slow := e.isSlowIncomplete dep
  let stLow := if b.stLow < dep.state ∧ dep.keyMap.keys.isEmpty ∧ !slow then
      min dep.state .cacheSlow else b.stLow
  let effectiveState := if (dep.state = .cacheSlow || dep.state = .complete) && slow then
      .cacheFast else dep.state
  { stLow
    stHigh := min b.stHigh effectiveState
    allDepsCompleted := b.allDepsCompleted && !(slow || decide (dep.state < .complete))
    allDepsCompletedCacheFast := b.allDepsCompletedCacheFast && !decide (dep.state < .cacheFast)
    allDepsCompletedCacheSlow :=
      b.allDepsCompletedCacheSlow && !(slow || decide (dep.state < .cacheSlow))
    allDepsStateCacheSlow :=
      b.allDepsStateCacheSlow && !(decide (dep.state < .cacheSlow) && dep.keyMap.keys.isEmpty) }

/-- The bounds over all dependencies, from `initial` and `cache-slow`. -/
def bounds (e : Edge) : Bounds :=
  e.depList.foldl e.boundsStep ⟨.initial, .cacheSlow, true, true, true, true⟩

/-- The second part of `recalcCurrentState`, with a cache map: the state between the bounds,
back to `initial` for an edge whose cache map is not final and that has no key, and the flags
from the bounds. -/
def stateFromBounds (e : Edge) : Edge :=
  match e.cacheMap with
  | none => e
  | some _ =>
    let b := e.bounds
    let state := max (max e.state b.stLow) b.stHigh
    { e with
      state := if !e.cacheMapDone && e.keys.isEmpty then .initial else state
      allDepsCompletedCacheFast := e.cacheMapDone && b.allDepsCompletedCacheFast
      allDepsCompletedCacheSlow := e.cacheMapDone && b.allDepsCompletedCacheSlow
      allDepsStateCacheSlow := e.cacheMapDone && b.allDepsStateCacheSlow
      allDepsCompleted := e.cacheMapDone && b.allDepsCompleted }

/-- `recalcCurrentState`: the keys common to all dependencies become keys of the edge, with
their records; then `stateFromBounds`. -/
def recalcCurrentState (e : Edge) : Edge :=
  let nk := e.newKeys
  stateFromBounds (addKeysWithRecords cm e
    ((ord.order nk.keys).filterMap fun id => (nk.lookup id).map e.mergedKey))

/-! ## `respondToIncoming` -/

/-- The loop of `respondToIncoming` over the incoming requests that looks for the desired
state: whether all can complete, the desired state, and whether all are canceled. -/
def scanIncoming (e : Edge) (incoming : List Incoming) : Bool × EdgeStatus × Bool :=
  incoming.foldl (fun (acc : Bool × EdgeStatus × Bool) req =>
    if req.canceled then acc
    else if acc.2.1 < req.request.desiredState then
      (acc.1 && !(e.hasActiveOutgoing || req.request.desiredState = .complete ||
          req.request.currentKeys = e.keys.length), req.request.desiredState, false)
    else (acc.1, acc.2.1, false)) (true, e.state, true)

/-- The loop that finishes every incoming request but one: the first that is not canceled, or
the first of all. -/
def finishAllButOne (p : Pipes) (incoming : List Incoming) : Pipes :=
  let leaveOpen := (incoming.find? (!·.canceled)).map (·.id)
  (incoming.foldl (fun (acc : Option Nat × Pipes) req =>
    if acc.1.isNone || acc.1 = some req.id then (some req.id, acc.2)
    else (acc.1, acc.2.finish req.id)) (leaveOpen, p)).2

/-- `respondToIncoming`: the desired state, and whether the edge is done for now. -/
def respondToIncoming (e : Edge) (p : Pipes) : EdgeStatus × Bool × Pipes :=
  let incoming := p.incoming
  let scan := if e.isComplete then (true, e.state, true) else e.scanIncoming incoming
  let desiredState := scan.2.1
  -- an active outgoing request may still bring keys
  let allIncomingCanComplete := scan.1 &&
    !(!scan.2.2 && decide (e.state < .complete) && e.keys.isEmpty && e.hasActiveOutgoing)
  if allIncomingCanComplete && e.hasActiveOutgoing then
    let p := p.outgoing.foldl (fun p o => p.cancel o.id) p
    (desiredState, true, finishAllButOne p incoming)
  else if allIncomingCanComplete && !e.hasActiveOutgoing then
    (desiredState, true, incoming.foldl (fun p req => p.finish req.id) p)
  else
    (desiredState, false, incoming.foldl (fun p req =>
      if req.canceled then p.finish req.id
      else if !e.hasActiveOutgoing && decide (e.state ≥ req.request.desiredState) then
        p.finish req.id
      else p) p)

/-! ## `createInputRequests` and `execIfPossible` -/

/-- The state `createInputRequests` asks of a dependency. -/
def desiredStateDep (e : Edge) (desiredState : EdgeStatus) (force : Bool) (dep : Dep) :
    EdgeStatus :=
  if e.noCacheMatchPossible || force then .complete
  else if dep.state = .initial ∧ desiredState > dep.state then .cacheFast
  else if dep.state = .cacheFast ∧ desiredState > dep.state then
    -- wait for all dependencies to complete cache-fast before the slow cache
    if (e.allDepsCompletedCacheFast && e.keys.isEmpty) || dep.keyMap.keys.isEmpty ||
        e.allDepsHaveKeys true then
      if !e.skipPhase2FastCache dep && e.cacheMap.isSome then .cacheSlow else dep.state
    else dep.state
  else if e.cacheMap.isSome ∧ dep.state = .cacheSlow ∧ desiredState = .complete then
    if (dep.keyMap.keys.isEmpty || e.allDepsCompletedCacheSlow ||
        (!e.skipPhase2FastCache dep && e.slowCacheFunc dep)) && e.cacheRecords.keys.isEmpty then
      if dep.keyMap.keys.isEmpty || !e.skipPhase2SlowCache dep then .complete else dep.state
    else dep.state
  else if e.cacheMap.isSome ∧ dep.state = .cacheSlow ∧ e.slowCacheFunc dep ∧
      desiredState = .cacheSlow then
    if dep.keyMap.keys.isEmpty || !e.skipPhase2SlowCache dep then .complete else dep.state
  else dep.state

/-- `addNew` of the dependency's request: a new one is needed unless the open request asks for
the desired state already; an open one asking for another state is canceled. -/
def replaceReq (p : Pipes) (dep : Dep) (desired : EdgeStatus) : Bool × Pipes :=
  match dep.req with
  | some r =>
    if !p.completed r then
      if p.desiredOf r ≠ some desired then (true, p.cancel r) else (false, p)
    else (true, p)
  | none => (true, p)

/-- The request for the dependency `i`, if it needs one. -/
def requestDep (e : Edge) (p : Pipes) (i : Nat) (dep : Dep) (desired : EdgeStatus) :
    Edge × Pipes × Dep × Bool :=
  if dep.state < desired then
    let c := replaceReq p dep desired
    if c.1 then
      let r := c.2.newRequest (.input ⟨desired, dep.toEdgeState, dep.keys.length⟩)
      ({ e with depRequests := e.depRequests.insert r.2 i }, r.1, { dep with req := some r.2 }, true)
    else (e, c.2, dep, false)
  else (e, p, dep, false)

/-- The slow-cache request of a completed dependency, if its cache map asks for one. -/
def requestSlowCache (e : Edge) (p : Pipes) (dep : Dep) : Pipes × Dep × Bool :=
  if dep.state = .complete ∧ dep.slowCacheReq.isNone ∧ e.slowCacheFunc dep ∧ e.cacheMap.isSome then
    let r := p.newRequest (.func (.calcSlowCache dep.index))
    (r.1, { dep with slowCacheReq := some r.2 }, true)
  else (p, dep, false)

/-- The dependencies, set up on first use. -/
def initDeps (e : Edge) : Edge :=
  if e.deps.isNone then
    { e with depRequests := ∅, deps := some ((List.range e.edge.inputs).map newDep) }
  else e

/-- One iteration of the loop of `createInputRequests`, over the dependency `i`. -/
def requestInput (desiredState : EdgeStatus) (force : Bool) (acc : Edge × Pipes × Bool)
    (i : Nat) : Edge × Pipes × Bool :=
  match acc.1.depList[i]? with
  | none => acc
  | some dep =>
    let r := acc.1.requestDep acc.2.1 i dep (acc.1.desiredStateDep desiredState force dep)
    let s := r.1.requestSlowCache r.2.1 r.2.2.1
    (r.1.setDep i s.2.1, s.1, acc.2.2 || r.2.2.2 || s.2.2)

/-- `createInputRequests`: whether a request was added. -/
def createInputRequests (e : Edge) (desiredState : EdgeStatus) (p : Pipes) (force : Bool) :
    Edge × Pipes × Bool :=
  let e := e.initDeps
  (List.range e.depList.length).foldl (requestInput desiredState force) (e, p, false)

/-- `postpone`: a request that completes at once, so that the edge is unparked again. -/
def postpone (p : Pipes) : Pipes := (p.newRequest (.func .postpone)).1

/-- `execIfPossible`: load the result from the cache, or run the operation, once there is
enough state; whether a request was made. -/
def execIfPossible (e : Edge) (p : Pipes) : Edge × Pipes × Bool :=
  if !e.cacheRecords.keys.isEmpty then
    if e.keysDidChange then (e, postpone p, true)
    else
      let r := p.newRequest (.func .loadCache)
      ({ e with execReq := some r.2 }, e.depRequests.keys.foldl Pipes.cancel r.1, true)
  else if e.allDepsCompleted then
    if e.keysDidChange then (e, postpone p, true)
    else
      let r := p.newRequest (.func .execOp)
      ({ e with execReq := some r.2 }, r.1, true)
  else (e, p, false)

/-! ## `unpark` -/

/-- The loop of `unpark` over the updates. -/
def processUpdates (e : Edge) (p : Pipes) (updates : List Nat) : Edge × Bool :=
  updates.foldl (fun (acc : Edge × Bool) upt =>
    let (e, changed) := processUpdate fromBytes cm acc.1 upt (p.statusOf upt)
    (e, acc.2 || changed)) (e, false)

/-- The cache-map request of `unpark`, unless one is pending or the records of a cache map are
already there. -/
def requestCacheMap (e : Edge) (p : Pipes) : Edge × Pipes × Bool :=
  if e.cacheMapReq.isNone && (e.cacheMap.isNone || e.cacheRecords.keys.isEmpty) then
    let r := p.newRequest (.func (.cacheMap e.cacheMapIndex))
    ({ e with cacheMapReq := some r.2 }, r.1, true)
  else (e, p, false)

/-- The execution step of `unpark`, tried when none is pending and `complete` is desired:
whether a request was made. -/
def requestExec (e : Edge) (p : Pipes) (desiredState : EdgeStatus) : Edge × Pipes × Bool :=
  if e.execReq.isNone && desiredState = .complete then e.execIfPossible p else (e, p, false)

/-- The input requests of `unpark`: `createInputRequests`, and again with `force` when it added
none while no outgoing request is active and no cache-map request was made. -/
def requestInputs (e : Edge) (p : Pipes) (desiredState : EdgeStatus) (cacheMapReq : Bool) :
    Edge × Pipes :=
  let (e, p, added) := e.createInputRequests desiredState p false
  if !added && !e.hasActiveOutgoing && !cacheMapReq then
    let (e, p, _) := e.createInputRequests desiredState p true
    (e, p)
  else (e, p)

/-- What `unpark` does once `respondToIncoming` is not done: the cache-map request if needed,
then the execution, then the requests for the dependencies. -/
def requestMore (e : Edge) (p : Pipes) (desiredState : EdgeStatus) : Edge × Pipes :=
  let (e, p, cacheMapReq) := e.requestCacheMap p
  let (e, p, execd) := e.requestExec p desiredState
  if execd then (e, p)
  else if e.execReq.isNone then e.requestInputs p desiredState cacheMapReq
  else (e, p)

/-- `unpark`, with the updates received from the outgoing requests. -/
def unpark (e : Edge) (p : Pipes) (updates : List Nat) : Edge × Pipes :=
  let (e, depChanged) := processUpdates fromBytes cm e p updates
  let e := if depChanged then recalcCurrentState cm ord e else e
  let (desiredState, done, p) := e.respondToIncoming p
  if done then (e, p) else e.requestMore p desiredState

end Edge

end Buildkit
