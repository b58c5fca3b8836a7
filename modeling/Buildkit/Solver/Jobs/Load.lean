import Buildkit.Solver.Jobs

/-!
# The vertex a load returns

`Solver.load` of `solver/jobs.go` returns the vertex that the job then builds, and
`scheduler.build` finds the edge to build by that vertex's digest (`getEdge`). `loadUnlocked`
returns the vertex itself on its first route, when a state without cache of the vertex's digest
is already active. Otherwise it wraps the vertex in a `vertexWithCacheOptions` that carries the
digest of its state and its loaded inputs.

On the first route the state registered is the one without cache, but the vertex returned keeps
its own digest, and the job does not get into the state under that digest. So a job that loads a vertex after the same vertex
without cache was loaded builds a vertex whose digest names a state without that job. Once the
first job is discarded, the digest names no state at all, and the build fails
(`load_returns_unregistered_vertex`).

Representation. The registry is `Jobs.Solver`, with the vertex of each state (`state.vtx`) kept
beside it. The memo `cache` of one load is kept. It is keyed by the vertex's digest, since the
LLB loader makes one vertex for each digest of a definition.
-/

namespace Buildkit

namespace Jobs

/-- `Digest()` of a vertex given to the loader. -/
def Vertex.digest : Vertex → Digest
  | .mk d _ _ => d

/-- `Options().IgnoreCache` of a vertex given to the loader. -/
def Vertex.ignoreCache : Vertex → Bool
  | .mk _ ic _ => ic

/-- The vertices of `Inputs()` of a vertex given to the loader. -/
def Vertex.inputs : Vertex → List Vertex
  | .mk _ _ ins => ins

/-- The vertex `loadUnlocked` returns: a vertex as it was given, or the `vertexWithCacheOptions`
that wraps one with the digest of its state and its loaded inputs. -/
inductive Loaded
  | orig (v : Vertex)
  | wrap (v : Vertex) (dgst : Digest) (inputs : List Loaded)
  deriving Repr

/-- `Digest()` of a vertex returned. -/
def Loaded.digest : Loaded → Digest
  | .orig v => v.digest
  | .wrap _ d _ => d

/-- The key of the state without cache of a digest: `digest.FromBytes` of
`"<dgst>-ignorecache"`. -/
def withoutCache (fromBytes : String → Digest) (dgst : Digest) : Digest :=
  fromBytes (dgst ++ "-ignorecache")

/-- The registry, with the vertex of each state. -/
structure Registry where
  solver : Solver
  vtx : AList (fun _ : Digest => Loaded)

/-- No state active. -/
def Registry.empty : Registry := ⟨newSolver, ∅⟩

/-- The vertex `loadUnlocked` returns for `v`, whose inputs loaded to `ins`: `v` itself when a
state without cache of its digest is active, otherwise `v` wrapped with the digest that
`stateKey` gives. -/
def loadedVertex (fromBytes : String → Digest) (s : Solver) (v : Vertex) (ins : List Loaded) :
    Loaded :=
  match s.actives.lookup (withoutCache fromBytes v.digest) with
  | some _ => .orig v
  | none => .wrap v (stateKey fromBytes s v.digest v.ignoreCache).2 ins

/-- The part of `loadUnlocked` after the inputs (`register`), with the vertex it returns and the
vertex of a state it creates. -/
def registerLoaded (fromBytes : String → Digest) (ord : IterOrder Digest) (fuel : Nat)
    (v : Vertex) (ins : List Loaded) (parent : Option Digest) (j : Option Nat) (r : Registry) :
    Outcome Loaded × Registry :=
  let u := loadedVertex fromBytes r.solver v ins
  let key := (stateKey fromBytes r.solver v.digest v.ignoreCache).1
  let vtx := match r.solver.actives.lookup key with
    | some _ => r.vtx
    | none => r.vtx.insert key u
  let reg := register fromBytes ord fuel v.digest v.ignoreCache parent j r.solver
  (reg.1.bind fun _ => .ok u, ⟨reg.2, vtx⟩)

/-- The memo of one load: the digest of each vertex loaded so far, with the vertex returned. -/
abbrev Memo := List (Digest × Loaded)

/-- The loop over the inputs of a vertex, each loaded by `f`, up to the first failure. -/
def loadInputs (f : Vertex → Memo → Registry → Outcome Loaded × Memo × Registry) :
    List Vertex → Memo → Registry → Outcome (List Loaded) × Memo × Registry
  | [], c, r => (.ok [], c, r)
  | e :: es, c, r =>
    match f e c r with
    | (.ok u, c, r) =>
      let rest := loadInputs f es c r
      (rest.1.bind fun us => .ok (u :: us), rest.2)
    | (.error m, c, r) => (.error m, c, r)
    | (.panic m, c, r) => (.panic m, c, r)

/-- `loadUnlocked` with the vertex it returns and its memo: a vertex loaded before in the same
call gives what it gave; otherwise its inputs are loaded, each under the same parent and job,
and then the vertex is registered and memoised. -/
def loadUnlockedV (fromBytes : String → Digest) (ord : IterOrder Digest) :
    Nat → Vertex → Option Digest → Option Nat → Memo → Registry →
      Outcome Loaded × Memo × Registry
  | 0, _, _, _, c, r => (.panic stackExceeded, c, r)
  | fuel + 1, v, parent, j, c, r =>
    match c.lookup v.digest with
    | some u => (.ok u, c, r)
    | none =>
      match loadInputs (fun e => loadUnlockedV fromBytes ord fuel e parent j) v.inputs c r with
      | (.ok ins, c, r) =>
        let reg := registerLoaded fromBytes ord fuel v ins parent j r
        match reg.1 with
        | .ok u => (.ok u, (v.digest, u) :: c, reg.2)
        | res => (res, c, reg.2)
      | (.error m, c, r) => (.error m, c, r)
      | (.panic m, c, r) => (.panic m, c, r)

/-- `Solver.load`: `loadUnlocked` with an empty memo. -/
def load (fromBytes : String → Digest) (ord : IterOrder Digest) (fuel : Nat) (v : Vertex)
    (parent : Option Digest) (j : Option Nat) (r : Registry) : Outcome Loaded × Registry :=
  let res := loadUnlockedV fromBytes ord fuel v parent j [] r
  (res.1, res.2.2)

/-- `Job.Discard` on the registry; the vertices of the states deleted are never read again. -/
def Registry.discard (ord : IterOrder Digest) (fuel : Nat) (j : Nat) (r : Registry) :
    Outcome Unit × Registry :=
  let res := Jobs.discard ord fuel j r.solver
  (res.1, ⟨res.2, r.vtx⟩)

/-- `Solver.getEdge`, by the state it looks up: none is active under the vertex's digest when it
returns `nil`, and `scheduler.build` then fails with `invalid request`. -/
def getEdge (r : Registry) (u : Loaded) : Option State := r.solver.actives.lookup u.digest

/-- The state `getEdge` finds for the vertex returned to job `j` has the job. -/
def namesJob (r : Registry) (j : Nat) (u : Loaded) : Bool :=
  match getEdge r u with
  | some st => decide (j ∈ st.jobs)
  | none => false

/-! ## Which state gets the job -/

/-- The jobs of the state under `k`, if one is active. -/
def jobsAt (s : Solver) (k : Digest) : Option (List Nat) := (s.actives.lookup k).map State.jobs

section Frame

variable {fromBytes : String → Digest} {ord : IterOrder Digest} {s : Solver}

end Frame

/-! ## The vertex returned on each route -/

section Routes

variable {fromBytes : String → Digest} {ord : IterOrder Digest} {fuel : Nat} {v : Vertex}
  {ins : List Loaded} {parent : Option Digest} {j : Nat} {r : Registry} {u : Loaded}

end Routes

/-- A vertex, and the same vertex with the cache ignored. -/
def plainVertex : Vertex := .mk "sha256:v" false []

/-- The same vertex as `plainVertex`, with the cache ignored. -/
def noCacheVertex : Vertex := .mk "sha256:v" true []

theorem load_returns_unregistered_vertex :
    let r₂ : Registry := (load id .stored 10 noCacheVertex none (some 2)
      (load id .stored 10 plainVertex none (some 1) .empty).2).2
    -- the third job's vertex names the first job's state, which lacks the third job
    let res₃ := load id .stored 10 plainVertex none (some 3) r₂
    -- once the first job is discarded, the third job's vertex names no state
    let res₄ := load id .stored 10 plainVertex none (some 3) (r₂.discard .stored 10 1).2
    (res₃.1.bind fun u => .ok (u.digest, namesJob res₃.2 3 u)) = .ok ("sha256:v", false) ∧
      jobsAt res₃.2.solver (withoutCache id "sha256:v") = some [3, 2] ∧
      (res₄.1.bind fun u => .ok (u.digest, (getEdge res₄.2 u).isSome)) =
        .ok ("sha256:v", false) := by
  decide

end Jobs

end Buildkit
