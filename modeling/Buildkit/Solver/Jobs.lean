import Buildkit.Lib.Loop
import Buildkit.Lib.Outcome
import Buildkit.Solver.Types

/-!
# The registry of active vertices

`Solver` of `solver/jobs.go` keeps a `state` for every active vertex, by digest, with the jobs
that build it and the links between a vertex loaded by a sub-build and the vertex that started
it: `parents` on the one, `childVtx` on the other. `load` registers a vertex and its inputs,
recursively, for a job (`Job.Build`) or under a parent (`subBuild`); `Job.Discard` takes a job
out of every state and deletes each state left with neither jobs nor parents, with the children
that are then left so (`deleteIfUnreferenced`).

`loadUnlocked` records the parent in the state before it looks the parent up, and returns the
error `inactive parent` without undoing it. A load under a parent that is not active therefore
fails and leaves a state whose parent is not active (`subBuild_inactive_parent`): it is never
deleted, since it has a parent, and the next load of its vertex dereferences the missing parent.

Representation. A vertex is its digest, whether its options ignore the cache, and its inputs;
a job is a pointer. The fields of `state` that only carry progress, traces, edges and cache
sources are left out, and `connectProgressFromState` is kept for the lookups it makes. The memo
`cache` of one load is left out: it maps a vertex already loaded in the same call to its result,
and loading it again registers nothing new. A call keeps what it wrote when it returns an error,
as the Go code does; a panic ends the run. The recursions are given fuel, whose end is the
stack overflow of the Go code, and the loops over maps an `IterOrder`.
-/

namespace Buildkit

namespace Jobs

/-- A `Vertex` as the loader reads it. -/
inductive Vertex
  | mk (digest : Digest) (ignoreCache : Bool) (inputs : List Vertex)
  deriving Repr

/-- `state`, by the fields the registry reads and writes. -/
structure State where
  ignoreCache : Bool
  jobs : List Nat
  parents : List Digest
  childVtx : List Digest
  deriving DecidableEq, Repr

/-- `Solver`, by its map of active states. -/
structure Solver where
  actives : AList (fun _ : Digest => State)

/-- `NewSolver`. -/
def newSolver : Solver := ⟨∅⟩

namespace Solver

/-- The state under `k`, if any, replaced by `f` of it. -/
def modify (s : Solver) (k : Digest) (f : State → State) : Solver :=
  match s.actives.lookup k with
  | some st => ⟨s.actives.insert k (f st)⟩
  | none => s

/-- `delete(jl.actives, k)`. -/
def erase (s : Solver) (k : Digest) : Solver := ⟨s.actives.erase k⟩

end Solver

/-- The message of a nil pointer dereferenced. -/
def nilDeref : String := "runtime error: invalid memory address or nil pointer dereference"

/-- The end of a recursion out of fuel, the stack overflow of the Go code. -/
def stackExceeded : String := "runtime: goroutine stack exceeds limit"

/-- `connectProgressFromState`, by the states it looks up: those of the parents of `src`,
recursively. -/
def connectProgress (ord : IterOrder Digest) (s : Solver) : Nat → State → Outcome Unit
  | 0, _ => .panic stackExceeded
  | fuel + 1, src =>
    (ord.order src.parents).foldlM (fun _ p =>
      match s.actives.lookup p with
      | none => .panic nilDeref
      | some st => connectProgress ord s fuel st) ()

/-- The key of the state a vertex of digest `dgst` is registered under, and the digest the rest
of `loadUnlocked` uses: a state without cache already loaded is taken, under its own key, with
`dgst` left as it is; a vertex that ignores the cache does not merge with a state that does not,
and gets the digest without cache. -/
def stateKey (fromBytes : String → Digest) (s : Solver) (dgst : Digest) (ignoreCache : Bool) :
    Digest × Digest :=
  let dgstWithoutCache := fromBytes (dgst ++ "-ignorecache")
  match s.actives.lookup dgstWithoutCache with
  | some _ => (dgstWithoutCache, dgst)
  | none =>
    match s.actives.lookup dgst with
    | some st =>
      if !st.ignoreCache && ignoreCache then (dgstWithoutCache, dgstWithoutCache) else (dgst, dgst)
    | none => (dgst, dgst)

/-- `jl.actives[dgst] = st` for a vertex without a state. -/
def ensureState (s : Solver) (key : Digest) (ignoreCache : Bool) : Solver :=
  match s.actives.lookup key with
  | some _ => s
  | none => ⟨s.actives.insert key ⟨ignoreCache, [], [], []⟩⟩

/-- `st.jobs[j] = struct{}{}` for a load by a job. -/
def addJob (s : Solver) (key : Digest) : Option Nat → Solver
  | some j => s.modify key fun st => { st with jobs := st.jobs.insert j }
  | none => s

/-- The parent of a load, if it is new to the state: recorded in the state, which then becomes a
child of the parent's state, or the error when the parent is not active. -/
def addParent (s : Solver) (key dgst : Digest) : Option Digest → Outcome Unit × Solver
  | some p =>
    match s.actives.lookup key with
    | some st =>
      if p ∉ st.parents then
        let s := s.modify key fun st => { st with parents := st.parents.insert p }
        match s.actives.lookup p with
        | none => (.error ("inactive parent " ++ p), s)
        | some _ => (.ok (), s.modify p fun ps => { ps with childVtx := ps.childVtx.insert dgst })
      else (.ok (), s)
    | none => (.ok (), s)
  | none => (.ok (), s)

/-- The part of `loadUnlocked` after the inputs: the state of the vertex, created if missing,
with the job and the parent, and then the lookups of `connectProgressFromState`. -/
def register (fromBytes : String → Digest) (ord : IterOrder Digest) (fuel : Nat)
    (dgst : Digest) (ignoreCache : Bool) (parent : Option Digest) (j : Option Nat) (s : Solver) :
    Outcome Unit × Solver :=
  let (key, dgst) := stateKey fromBytes s dgst ignoreCache
  let s := addJob (ensureState s key ignoreCache) key j
  Outcome.andThen (fun s =>
    match s.actives.lookup key with
    | some st => (connectProgress ord s fuel st, s)
    | none => (.ok (), s)) (addParent s key dgst parent)

/-- `loadUnlocked`: the inputs first, each under the same parent and job, then the vertex. -/
def loadUnlocked (fromBytes : String → Digest) (ord : IterOrder Digest) :
    Nat → Vertex → Option Digest → Option Nat → Solver → Outcome Unit × Solver
  | 0, _, _, _, s => (.panic stackExceeded, s)
  | fuel + 1, .mk dgst ignoreCache inputs, parent, j, s =>
    Outcome.andThen (register fromBytes ord fuel dgst ignoreCache parent j)
      (inputs.foldl (fun r e => Outcome.andThen (loadUnlocked fromBytes ord fuel e parent j) r)
        (.ok (), s))

/-- `deleteIfUnreferenced`: a state with neither jobs nor parents leaves its children, which go
in turn if left so, and is deleted. -/
def deleteIfUnreferenced (ord : IterOrder Digest) : Nat → Digest → Solver → Outcome Unit × Solver
  | 0, _, s => (.panic stackExceeded, s)
  | fuel + 1, k, s =>
    match s.actives.lookup k with
    | none => (.ok (), s)
    | some st =>
      if st.jobs = [] ∧ st.parents = [] then
        let r := (ord.order st.childVtx).foldl (fun r chKey => Outcome.andThen (fun s =>
            match s.actives.lookup chKey with
            | none => (.panic nilDeref, s)
            | some _ =>
              let s := s.modify chKey fun ch => { ch with parents := ch.parents.erase k }
              deleteIfUnreferenced ord fuel chKey s) r) (.ok (), s)
        Outcome.andThen (fun s => (.ok (), s.erase k)) r
      else (.ok (), s)

/-- `Job.Discard`: over the active states, those deleted during the loop not visited. -/
def discard (ord : IterOrder Digest) (fuel : Nat) (j : Nat) (s : Solver) : Outcome Unit × Solver :=
  (ord.order s.actives.keys).foldl (fun r k => Outcome.andThen (fun s =>
      match s.actives.lookup k with
      | some st =>
        if j ∈ st.jobs then
          deleteIfUnreferenced ord fuel k (s.modify k fun st => { st with jobs := st.jobs.erase j })
        else (.ok (), s)
      | none => (.ok (), s)) r) (.ok (), s)

/-- The calls that change the registry. -/
inductive Op
  | build (j : Nat) (v : Vertex)
  | subBuild (v : Vertex) (parent : Digest)
  | discard (j : Nat)

/-- One call: `Job.Build` loads for a job, `subBuild` under a parent. -/
def apply (fromBytes : String → Digest) (ord : IterOrder Digest) (fuel : Nat) (s : Solver) :
    Op → Outcome Unit × Solver
  | .build j v => loadUnlocked fromBytes ord fuel v none (some j) s
  | .subBuild v p => loadUnlocked fromBytes ord fuel v (some p) none s
  | .discard j => discard ord fuel j s

/-- A sequence of calls: an error is returned to its caller and the next call runs; a panic ends
the run. -/
def run (fromBytes : String → Digest) (ord : IterOrder Digest) (fuel : Nat) (s : Solver)
    (ops : List Op) : Outcome Unit × Solver :=
  ops.foldl (fun (acc : Outcome Unit × Solver) op =>
    match acc with
    | (.panic m, s) => (.panic m, s)
    | (_, s) => apply fromBytes ord fuel s op) (.ok (), s)

/-! ## A load under an inactive parent -/

/-- How deep `loadUnlocked` goes, input 0 after input 0, before it registers a vertex. -/
def Vertex.firstDepth : Vertex → Nat
  | .mk _ _ [] => 0
  | .mk _ _ (v :: _) => v.firstDepth + 1

/-- A loop over the parents of a state returns a value only if each step does. -/
theorem foldlM_unit_eq_ok {α : Type} {g : α → Outcome Unit} {l : List α}
    (h : l.foldlM (fun _ x => g x) () = .ok ()) : ∀ x ∈ l, g x = .ok () := by
  induction l with
  | nil => intro x hx; cases hx
  | cons y l ih =>
    rw [List.foldlM_cons] at h
    obtain ⟨u, hy, hl⟩ := Outcome.bind_eq_ok.mp h
    cases u
    intro x hx
    rcases List.mem_cons.mp hx with rfl | hx
    · exact hy
    · exact ih hl x hx

/-- A state that is its own parent sends `connectProgressFromState` round the loop until the
stack overflows. -/
theorem connectProgress_self_parent {ord : IterOrder Digest} {s : Solver} {p : Digest}
    {st : State} (hp : s.actives.lookup p = some st) (hst : p ∈ st.parents) :
    ∀ fuel (src : State), p ∈ src.parents → connectProgress ord s fuel src ≠ .ok () := by
  intro fuel
  induction fuel with
  | zero => intro src _ h; cases h
  | succ fuel ih =>
    intro src hsrc h
    have hp' := foldlM_unit_eq_ok h p ((ord.mem_order).mpr hsrc)
    rw [hp] at hp'
    exact ih st hst hp'

namespace Solver

theorem lookup_modify (s : Solver) (k k' : Digest) (f : State → State) :
    (s.modify k f).actives.lookup k' = if k' = k then (s.actives.lookup k).map f else
      s.actives.lookup k' := by
  unfold modify
  split
  next st hst =>
    by_cases h : k' = k
    · subst h; simp [hst]
    · simp [h, AList.lookup_insert_ne h]
  next hst =>
    by_cases h : k' = k
    · subst h; simp [hst]
    · simp [h]

end Solver

theorem lookup_ensureState_ne {s : Solver} {key k : Digest} (ic : Bool) (h : k ≠ key) :
    (ensureState s key ic).actives.lookup k = s.actives.lookup k := by
  unfold ensureState
  split
  · rfl
  · exact AList.lookup_insert_ne h

/-- After `ensureState` the key has a state: the one it had, or a new one. -/
theorem lookup_ensureState (s : Solver) (key : Digest) (ic : Bool) :
    ∃ st, (ensureState s key ic).actives.lookup key = some st ∧
      (s.actives.lookup key = some st ∨ st = ⟨ic, [], [], []⟩) := by
  unfold ensureState
  split
  next st hst => exact ⟨st, hst, .inl hst⟩
  next => exact ⟨_, AList.lookup_insert _, .inr rfl⟩

/-- The parent is recorded in the state before it is looked up: a parent new to the state and
not active stays recorded, and the error is returned. -/
theorem addParent_inactive {s : Solver} {key dgst p : Digest} {st : State}
    (hkey : s.actives.lookup key = some st) (hnew : p ∉ st.parents)
    (hp : s.actives.lookup p = none) :
    addParent s key dgst (some p) =
      (.error ("inactive parent " ++ p), s.modify key fun st => { st with parents := st.parents.insert p }) := by
  have hpk : p ≠ key := by rintro rfl; rw [hkey] at hp; cases hp
  have hp' : (s.modify key fun st => { st with parents := st.parents.insert p }).actives.lookup p =
      none := by
    rw [Solver.lookup_modify, if_neg hpk, hp]
  simp only [addParent, hkey, hnew, not_false_eq_true, if_true, hp']

/-- A parent new to the state that is the state itself: it is recorded, and found active. -/
theorem addParent_self {s : Solver} {dgst p : Digest} {st : State}
    (hkey : s.actives.lookup p = some st) (hnew : p ∉ st.parents) :
    addParent s p dgst (some p) =
      (.ok (), (s.modify p fun st => { st with parents := st.parents.insert p }).modify p
        fun ps => { ps with childVtx := ps.childVtx.insert dgst }) := by
  have hp' : (s.modify p fun st => { st with parents := st.parents.insert p }).actives.lookup p =
      some { st with parents := st.parents.insert p } := by
    simp [Solver.lookup_modify, hkey]
  simp only [addParent, hkey, hnew, not_false_eq_true, if_true, hp']

section

variable {fromBytes : String → Digest} {ord : IterOrder Digest} {p : Digest}

/-- The vertex a failing load under an inactive parent registers: no state had the parent, and
one has it after. -/
theorem register_inactive_parent {fuel : Nat} {dgst : Digest} {ic : Bool} {s : Solver}
    (hnot : ∀ k st, s.actives.lookup k = some st → p ∉ st.parents)
    (hp : s.actives.lookup p = none) :
    (register fromBytes ord fuel dgst ic (some p) none s).1 ≠ .ok () ∧
      ∃ k st, (register fromBytes ord fuel dgst ic (some p) none s).2.actives.lookup k = some st ∧
        p ∈ st.parents := by
  rcases hk : stateKey fromBytes s dgst ic with ⟨key, dv⟩
  unfold register
  rw [hk]
  dsimp only [addJob]
  obtain ⟨st₁, h₁, hst₁⟩ := lookup_ensureState s key ic
  have hnew : p ∉ st₁.parents := by
    rcases hst₁ with hst₁ | rfl
    · exact hnot key st₁ hst₁
    · simp
  by_cases hpk : p = key
  · -- the vertex's own state is the parent: `connectProgressFromState` loops on it
    subst hpk
    let st₄ : State := { st₁ with parents := st₁.parents.insert p, childVtx := st₁.childVtx.insert dv }
    have h₄ : (((ensureState s p ic).modify p fun st => { st with parents := st.parents.insert p }).modify
        p fun ps => { ps with childVtx := ps.childVtx.insert dv }).actives.lookup p = some st₄ := by
      simp [Solver.lookup_modify, h₁, st₄]
    have hmem : p ∈ st₄.parents := List.mem_insert_self
    rw [addParent_self h₁ hnew, Outcome.andThen_ok, h₄]
    exact ⟨connectProgress_self_parent h₄ hmem _ _ hmem, p, st₄, h₄, hmem⟩
  · have hp₁ : (ensureState s key ic).actives.lookup p = none := by
      rw [lookup_ensureState_ne ic hpk, hp]
    rw [addParent_inactive h₁ hnew hp₁, Outcome.andThen_of_ne_ok _ (fun h => by cases h)]
    refine ⟨(fun h => by cases h), key, { st₁ with parents := st₁.parents.insert p }, ?_,
      List.mem_insert_self⟩
    simp [Solver.lookup_modify, h₁]

/-- The load of a `subBuild` under a parent that is not active fails, and leaves a state with
that parent, which no state had before. By induction on the fuel: the load goes down input 0
after input 0 to a vertex without inputs, whose registration fails, and the failure ends every
loop above it. -/
theorem subBuild_inactive_parent (fuel : Nat) :
    ∀ {v : Vertex} {s : Solver}, v.firstDepth < fuel →
      (∀ k st, s.actives.lookup k = some st → p ∉ st.parents) → s.actives.lookup p = none →
      (loadUnlocked fromBytes ord fuel v (some p) none s).1 ≠ .ok () ∧
        ∃ k st, (loadUnlocked fromBytes ord fuel v (some p) none s).2.actives.lookup k = some st ∧
          p ∈ st.parents := by
  induction fuel with
  | zero => intro v _ hfuel; exact absurd hfuel (Nat.not_lt_zero _)
  | succ fuel ih =>
    intro v s hfuel hnot hp
    obtain ⟨dgst, ic, inputs⟩ := v
    cases inputs with
    | nil =>
      rw [loadUnlocked, List.foldl_nil, Outcome.andThen_ok]
      exact register_inactive_parent hnot hp
    | cons v₁ vs =>
      have h₁ := ih (Nat.lt_of_succ_lt_succ hfuel) hnot hp
      rw [loadUnlocked, List.foldl_cons, Outcome.andThen_ok,
        Outcome.foldl_andThen_of_ne_ok _ vs h₁.1, Outcome.andThen_of_ne_ok _ h₁.1]
      exact h₁

end

/-- A vertex without inputs. -/
def leafVertex : Vertex := .mk "sha256:v" false []

theorem subBuild_inactive_parent_leaf :
    (loadUnlocked id IterOrder.stored 10 leafVertex (some "sha256:p") none newSolver).1 ≠ .ok () ∧
      (∃ k st, (loadUnlocked id IterOrder.stored 10 leafVertex (some "sha256:p") none
        newSolver).2.actives.lookup k = some st ∧ "sha256:p" ∈ st.parents) ∧
      (run id IterOrder.stored 10 newSolver
        [.subBuild leafVertex "sha256:p", .build 1 leafVertex]).1 = .panic nilDeref := by
  have h := @subBuild_inactive_parent id IterOrder.stored "sha256:p" 10 leafVertex newSolver
    (by decide) (fun _ _ h => by cases h) rfl
  exact ⟨h.1, h.2, by decide +kernel⟩

end Jobs

end Buildkit
