import Buildkit.Solver.Edge

/-!
# One edge in the scheduler

`scheduler.dispatch` of `solver/scheduler.go` for one edge, and everything else that can happen
to the edge's pipes between two dispatches: new incoming requests (`NewInputRequest` of another
edge, or `build`), cancellations of incoming requests, statuses sent on outgoing requests (by
the edges and functions they go to), and `mergeTo` moving another edge's pipes here or this
edge's pipes to another edge.

A sender sends until it sends a completed status, and what it sends fits the request: the
state of the dependency on an input request, the response of the function on a function
request. A function request is completed by its first send. A request moved from another edge
by `mergeTo` is canceled and may carry anything; the other edge had an open incoming request
when it had an open outgoing one, so the move brings incoming requests with outgoing ones.
After this edge is merged away, nothing reaches it any more.

The check at the end of `dispatch` marks the edge failed and runs again. When it fires with
incoming requests open and no outgoing one, the failure's `postpone` request is open the next
time, and the check passes unless the edge was merged away meanwhile; otherwise it fires for
ever. The model stops after the second time (`none`).
-/

namespace Buildkit

/-- `Receive` of an outgoing request: the last status sent, if there is one. -/
def Outgoing.receive (o : Outgoing) : Outgoing :=
  match o.sent with
  | some st => { o with status := st, sent := none }
  | none => o

/-- Whether a status fits what an outgoing request asked for. -/
def OutKind.Fits : OutKind → Status → Prop
  | .input _, st => ∃ s, st.value = .edgeState s
  | .func (.cacheMap _), st => st.completed ∧ (st.err.isSome ∨ ∃ r, st.value = .cacheMap r)
  | .func .loadCache, st | .func .execOp, st =>
    st.completed ∧ (st.err.isSome ∨ ∃ r, st.value = .result r)
  | .func (.calcSlowCache _), st => st.completed ∧ (st.err.isSome ∨ ∃ d, st.value = .digest d)
  | .func .postpone, st => st.completed
  | .merged, _ => True

/-- One edge, its pipes, and whether it was merged away. -/
structure World where
  edge : Edge
  pipes : Pipes
  merged : Bool

namespace World

variable (fromBytes : String → Digest) (cm : CacheManager) (ord : IterOrder String)

/-- The world of a new edge. -/
def new (ed : SolverEdge) (op : ActiveOp) : World := ⟨newEdge ed op, ⟨[], [], 0⟩, false⟩

/-- The first part of `dispatch`: every outgoing request receives, `hasActiveOutgoing` is set,
and `unpark` runs with the requests that received something. -/
def unparked (w : World) : Edge × Pipes :=
  let outgoing := w.pipes.outgoing.map Outgoing.receive
  let updates := (w.pipes.outgoing.filter (·.sent.isSome)).map (·.id)
  let e := { w.edge with hasActiveOutgoing := outgoing.any (!·.status.completed) }
  e.unpark fromBytes cm ord { w.pipes with outgoing } updates

/-- The incoming requests still open. -/
def openIncoming (p : Pipes) : List Incoming := p.incoming.filter (!·.completed)

/-- The outgoing requests still open. -/
def openOutgoing (p : Pipes) : List Outgoing := p.outgoing.filter (!·.status.completed)

/-- `currentIndexKey`: the key of the edge from the current keys of every dependency, once each
has one. -/
def currentIndexKey (e : Edge) : Option CacheKey :=
  match e.cacheMap with
  | none => none
  | some m =>
    let keys := e.depList.mapIdx fun i d =>
      let sel := (e.cacheMapDep i).selector
      withSelector d.keys sel ++
        match d.result with
        | some res => withSelector res.cacheKeys sel ++
            (d.slowCacheKey.map fun k => [⟨"", k⟩]).getD []
        | none => []
    if e.depList.any fun d => d.keys.isEmpty && d.result.isNone then none
    else some ((newCacheKey fromBytes m.digest e.edge.index).withDeps keys)

/-- `markFailed`. -/
def markFailed (e : Edge) (p : Pipes) (err : String) : Edge × Pipes :=
  ({ e with err := some err }, Edge.postpone p)

/-- The loop after `unpark`, from `postUnpark` to the checks, with `merge` telling whether the
edge index returns another edge for the current key and `mergeTo` moves this edge into it. -/
def postUnpark (merge : Bool) : Nat → World → Option World
  | 0, _ => none
  | fuel + 1, w =>
    let p := { w.pipes with incoming := openIncoming w.pipes, outgoing := openOutgoing w.pipes }
    let inc := p.incoming
    let out := p.outgoing
    let w : World := ⟨w.edge, p, w.merged⟩
    let w := if w.edge.keysDidChange then
        let w := if (currentIndexKey fromBytes w.edge).isSome && merge then
            ⟨w.edge, { w.pipes with incoming := [], outgoing := [] }, true⟩
          else w
        { w with edge := { w.edge with keysDidChange := false } }
      else w
    if !inc.isEmpty && out.isEmpty then
      let (e, p) := markFailed w.edge w.pipes
        "buildkit scheduler error: return leaving incoming open. Please report this with BUILDKIT_SCHEDULER_DEBUG=1"
      postUnpark merge fuel ⟨e, p, w.merged⟩
    else if inc.isEmpty && !out.isEmpty then
      let (e, p) := markFailed w.edge w.pipes
        "buildkit scheduler error: return leaving outgoing open. Please report this with BUILDKIT_SCHEDULER_DEBUG=1"
      postUnpark merge fuel ⟨e, p, w.merged⟩
    else some w

/-- `dispatch`. -/
def dispatch (merge : Bool) (w : World) : Option World :=
  let (e, p) := w.unparked fromBytes cm ord
  postUnpark fromBytes merge 2 ⟨e, p, w.merged⟩

end World

/-- What can happen to one edge: a dispatch, or a move of the rest of the scheduler. -/
inductive Step (fromBytes : String → Digest) : World → World → Prop
  | dispatch {w w' : World} (cm : CacheManager) (ord : IterOrder String) (merge : Bool) :
      w.dispatch fromBytes cm ord merge = some w' → Step fromBytes w w'
  | request {w : World} (req : EdgeRequest) : w.merged = false →
      Step fromBytes w { w with pipes := { w.pipes with
        incoming := w.pipes.incoming ++ [⟨w.pipes.nextID, req, false, false⟩]
        nextID := w.pipes.nextID + 1 } }
  | cancel {w : World} (id : Nat) :
      Step fromBytes w { w with pipes := { w.pipes with
        incoming := w.pipes.incoming.map fun r =>
          if r.id = id then { r with canceled := true } else r } }
  | send {w : World} (id : Nat) (st : Status) :
      (∀ o ∈ w.pipes.outgoing, o.id = id →
        o.status.completed = false ∧ (∀ s ∈ o.sent, s.completed = false) ∧ o.kind.Fits st ∧
        (st.canceled → st.completed ∧ o.canceled ∧ st.err.isSome)) →
      Step fromBytes w { w with pipes := { w.pipes with
        outgoing := w.pipes.outgoing.map fun o => if o.id = id then { o with sent := some st } else o } }
  | mergeIn {w : World} (incs : List (EdgeRequest × Bool)) (outs : List (Status × Option Status)) :
      w.merged = false → (outs ≠ [] → incs ≠ []) → (∀ o ∈ outs, o.1.completed = false) →
      Step fromBytes w { w with pipes := {
        incoming := w.pipes.incoming ++ incs.mapIdx fun i r => ⟨w.pipes.nextID + i, r.1, r.2, false⟩
        outgoing := w.pipes.outgoing ++ outs.mapIdx fun i o =>
          ⟨w.pipes.nextID + incs.length + i, .merged, true, o.1, o.2⟩
        nextID := w.pipes.nextID + incs.length + outs.length } }

/-- The worlds an edge reaches from its creation. -/
inductive Reachable (fromBytes : String → Digest) : World → Prop
  | init (ed : SolverEdge) (op : ActiveOp) : Reachable fromBytes (World.new ed op)
  | step {w w' : World} : Reachable fromBytes w → Step fromBytes w w' → Reachable fromBytes w'

end Buildkit
