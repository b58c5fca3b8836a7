import Mathlib.Logic.Function.Basic
import Buildkit.Lib.Loop

/-!
# Calls shared by key

`flightcontrol.Group` of `util/flightcontrol/flightcontrol.go`: `Do(ctx, key, fn)` runs `fn` once
for all the callers of a key that come while it runs, and gives each of them what it returned.
`do` looks the key up in the map `m` under `g.mu`: a caller finds the call of the key there and
waits on it, or makes a new one, puts it in the map, and starts the goroutine that deletes the
key once the call is `ready`. `call.wait` registers the caller's context under `c.mu`, unless
the call is already `ready`, when it returns `errRetry` and `Do` backs off and tries again. The
first registration starts `fn` through `once.Do(c.run)`, on a context shared by the callers,
which is done once all their contexts are (`sharedContext.signal`). A caller whose context is
done leaves with its error, but the last one to leave waits for `fn` to return.

Each of these is a step of one goroutine, with the locks it holds taken as one step, and a run
is any interleaving of them (`Group.run`). What every run keeps (`Inv`): the map holds, for each
key, the one call of the key whose goroutine has not deleted it, and every other call of the key
is `ready`; so the runs of `fn` for one key never overlap (`fn_runs_exclusive`). A caller that
leaves with a result leaves with what `fn` returned on a call of its key that it registered with
(`result_of_registered_call`), and a call that is `ready` takes no more callers
(`ready_call_takes_no_callers`), so that each caller's result was computed after it came.

Representation. Calls and callers are numbered; `fn` is given by what it returns, any value of
`ρ`, and by when it asks its context whether it is done (`signal`). A caller's context is done
when it is canceled (`cancel`), whatever by. The progress writers, the `Deadline`, `Value` and
`Err` of the shared context, and `runtime.Gosched` and `time.Sleep` of the loop of `Do` are left
out; the backoff is kept in milliseconds.
-/

namespace Buildkit

namespace Flightcontrol

/-- A `call`: the key whose goroutine deletes it from the map, the callers registered in
`ctxs`, whether `once.Do(c.run)` has begun `fn`, what `fn` returned, whether `ready` is closed,
whether the shared context is done, and whether the goroutine of `do` has deleted the key. -/
structure Call (ρ : Type) where
  key : String
  ctxs : List Nat
  started : Bool
  result : Option ρ
  ready : Bool
  sharedDone : Bool
  cleaned : Bool

/-- `newCall`. -/
def newCall {ρ : Type} (key : String) : Call ρ := ⟨key, [], false, none, false, false, false⟩

/-- What `Do` returns: the result of `fn`, the error of the caller's context, or
`errRetryTimeout`. -/
inductive Ret (ρ : Type)
  | result (r : ρ)
  | canceled
  | retryTimeout
  deriving DecidableEq, Repr

/-- Where a caller of `Do` is: before `g.mu` in `do`, before `c.mu` in `wait`, registered in the
`select`, at the `select` on the shared context after its own was done, waiting for `fn` to
return after that found the shared context done, or returned. -/
inductive Pc (ρ : Type)
  | start
  | waitLock (c : Nat)
  | waiting (c : Nat)
  | sharedSelect (c : Nat)
  | draining (c : Nat)
  | done (r : Ret ρ)
  deriving DecidableEq, Repr

/-- A caller of `Do`: its key, whether its context is done, and the backoff of its loop. -/
structure Caller (ρ : Type) where
  key : String
  canceled : Bool
  backoff : Nat
  pc : Pc ρ

/-- A `Group`, with the calls made so far and the callers of `Do`. -/
structure Group (ρ : Type) where
  m : String → Option Nat
  numCalls : Nat
  calls : Nat → Call ρ
  callers : Nat → Caller ρ

/-- The steps of the goroutines. -/
inductive Action (ρ : Type)
  /-- `do` under `g.mu`. -/
  | do_ (w : Nat)
  /-- `wait` under `c.mu`. -/
  | wait (w : Nat)
  /-- `once.Do(c.run)` begins `fn`. -/
  | run (c : Nat)
  /-- `fn` returns `r`, which `c.run` stores under `c.mu`. -/
  | finish (c : Nat) (r : ρ)
  /-- `close(c.ready)` at the end of `c.run`. -/
  | close (c : Nat)
  /-- The goroutine of `do` deletes the key of a ready call. -/
  | cleanup (c : Nat)
  /-- The caller's context is canceled. -/
  | cancel (w : Nat)
  /-- `fn` asks the shared context for `Done`. -/
  | signal (c : Nat)
  /-- The `select` of `wait` takes `<-c.ready`. -/
  | ready (w : Nat)
  /-- The `select` of `wait` takes `<-ctx.Done()`, and `c.ctx.Done()` signals. -/
  | ctxDone (w : Nat)
  /-- The `select` on `c.ctx.Done()` that follows. -/
  | sharedSelect (w : Nat)
  /-- `<-c.ready` of a caller that found the shared context done. -/
  | drained (w : Nat)

variable {ρ : Type}

namespace Group

/-- A group with no calls, whose callers `w` come for `keys w`. -/
def init (keys : Nat → String) : Group ρ :=
  ⟨fun _ => none, 0, fun _ => newCall "", fun w => ⟨keys w, false, 0, .start⟩⟩

/-- The call `c` replaced. -/
def setCall (g : Group ρ) (c : Nat) (cl : Call ρ) : Group ρ :=
  { g with calls := Function.update g.calls c cl }

/-- The caller `w` replaced. -/
def setCaller (g : Group ρ) (w : Nat) (cr : Caller ρ) : Group ρ :=
  { g with callers := Function.update g.callers w cr }

/-- `sharedContext.signal`: the shared context is done once the contexts of all the callers
registered are. -/
def signalCall (g : Group ρ) (c : Nat) : Group ρ :=
  let cl := g.calls c
  if cl.sharedDone then g
  else if cl.ctxs.all fun w => (g.callers w).canceled then g.setCall c { cl with sharedDone := true }
  else g

/-- `c := newCall(fn); g.m[key] = c`. -/
def addCall (g : Group ρ) (key : String) : Group ρ :=
  { g with m := Function.update g.m key (some g.numCalls), numCalls := g.numCalls + 1,
           calls := Function.update g.calls g.numCalls (newCall key) }

/-- `do`: the call of the key, or a new one put in the map. -/
def do_ (g : Group ρ) (w : Nat) : Option (Group ρ) :=
  let cr := g.callers w
  match cr.pc with
  | .start =>
    match g.m cr.key with
    | some c => some (g.setCaller w { cr with pc := .waitLock c })
    | none =>
      some ((g.addCall cr.key).setCaller w { cr with pc := .waitLock g.numCalls })
  | _ => none

/-- `wait` under `c.mu`: a ready call gives `errRetry`, and the loop of `Do` gives up once the
backoff is three seconds or backs off and calls `do` again; else the caller is registered. -/
def wait (g : Group ρ) (w : Nat) : Option (Group ρ) :=
  let cr := g.callers w
  match cr.pc with
  | .waitLock c =>
    let cl := g.calls c
    if cl.ready then
      if 3000 ≤ cr.backoff then some (g.setCaller w { cr with pc := .done .retryTimeout })
      else some (g.setCaller w
        { cr with pc := .start, backoff := if 0 < cr.backoff then cr.backoff * 2 else 1 })
    else some ((g.setCall c { cl with ctxs := cl.ctxs ++ [w] }).setCaller w { cr with pc := .waiting c })
  | _ => none

/-- `once.Do(c.run)`, which the goroutines that registrations start run: the first begins `fn`. -/
def run (g : Group ρ) (c : Nat) : Option (Group ρ) :=
  let cl := g.calls c
  if cl.ctxs ≠ [] ∧ cl.started = false then some (g.setCall c { cl with started := true })
  else none

/-- `c.run` stores what `fn` returned. -/
def finish (g : Group ρ) (c : Nat) (r : ρ) : Option (Group ρ) :=
  let cl := g.calls c
  if cl.started ∧ cl.result = none then some (g.setCall c { cl with result := some r }) else none

/-- `close(c.ready)` once the result is stored. -/
def close (g : Group ρ) (c : Nat) : Option (Group ρ) :=
  let cl := g.calls c
  if cl.result.isSome ∧ cl.ready = false then some (g.setCall c { cl with ready := true }) else none

/-- The goroutine of `do`: once `ready` is closed, `delete(g.m, key)` under `g.mu`. -/
def cleanup (g : Group ρ) (c : Nat) : Option (Group ρ) :=
  let cl := g.calls c
  if cl.ready ∧ cl.cleaned = false then
    some { g.setCall c { cl with cleaned := true } with m := Function.update g.m cl.key none }
  else none

/-- The caller's context is canceled. -/
def cancel (g : Group ρ) (w : Nat) : Group ρ := g.setCaller w { g.callers w with canceled := true }

/-- `Done` (or `Err`) of the shared context, which `fn` has from the time it begins: it
signals. -/
def signal (g : Group ρ) (c : Nat) : Option (Group ρ) :=
  if (g.calls c).started then some (g.signalCall c) else none

/-- `case <-c.ready` of the `select` of `wait`: what `fn` returned. -/
def ready (g : Group ρ) (w : Nat) : Option (Group ρ) :=
  let cr := g.callers w
  match cr.pc with
  | .waiting c =>
    let cl := g.calls c
    match cl.ready, cl.result with
    | true, some r => some (g.setCaller w { cr with pc := .done (.result r) })
    | _, _ => none
  | _ => none

/-- `case <-ctx.Done()` of the `select` of `wait`: `c.ctx.Done()` signals. -/
def ctxDone (g : Group ρ) (w : Nat) : Option (Group ρ) :=
  let cr := g.callers w
  match cr.pc with
  | .waiting c =>
    if cr.canceled then some ((g.signalCall c).setCaller w { cr with pc := .sharedSelect c })
    else none
  | _ => none

/-- The `select` on `c.ctx.Done()`: if the shared context is done the caller waits for `fn` to
return, else it leaves with the error of its context. -/
def sharedSelect (g : Group ρ) (w : Nat) : Option (Group ρ) :=
  let cr := g.callers w
  match cr.pc with
  | .sharedSelect c =>
    if (g.calls c).sharedDone then some (g.setCaller w { cr with pc := .draining c })
    else some (g.setCaller w { cr with pc := .done .canceled })
  | _ => none

/-- `<-c.ready` after the shared context was done: what `fn` returned. -/
def drained (g : Group ρ) (w : Nat) : Option (Group ρ) :=
  let cr := g.callers w
  match cr.pc with
  | .draining c =>
    let cl := g.calls c
    match cl.ready, cl.result with
    | true, some r => some (g.setCaller w { cr with pc := .done (.result r) })
    | _, _ => none
  | _ => none

/-- One step of one goroutine, where it can take it. -/
def step (g : Group ρ) : Action ρ → Option (Group ρ)
  | .do_ w => g.do_ w
  | .wait w => g.wait w
  | .run c => g.run c
  | .finish c r => g.finish c r
  | .close c => g.close c
  | .cleanup c => g.cleanup c
  | .cancel w => some (g.cancel w)
  | .signal c => g.signal c
  | .ready w => g.ready w
  | .ctxDone w => g.ctxDone w
  | .sharedSelect w => g.sharedSelect w
  | .drained w => g.drained w

/-- An interleaving of steps. -/
def runAll (g : Group ρ) (acts : List (Action ρ)) : Option (Group ρ) := acts.foldlM step g

end Group

/-! ## What the calls and the callers keep -/

namespace Call

/-- What holds of every call: its key is deleted only once `ready` is closed, `ready` is closed
only once `fn` has returned, `fn` returns only once begun, and begins only once a caller has
registered. -/
structure Wf (cl : Call ρ) : Prop where
  cleaned_ready : cl.cleaned = true → cl.ready = true
  ready_result : cl.ready = true → cl.result.isSome = true
  result_started : cl.result.isSome = true → cl.started = true
  started_ctxs : cl.started = true → cl.ctxs ≠ []

theorem wf_newCall (key : String) : (newCall key : Call ρ).Wf := ⟨nofun, nofun, nofun, nofun⟩

/-- How a call changes along a run: its key stays, callers are only added, and only while
`ready` is open; what has begun, returned, closed or been deleted stays so. -/
structure Grows (cl cl' : Call ρ) : Prop where
  key : cl'.key = cl.key
  ctxs : cl.ctxs <+: cl'.ctxs
  ctxs_ready : cl.ready = true → cl'.ctxs = cl.ctxs
  started : cl.started = true → cl'.started = true
  result : ∀ r, cl.result = some r → cl'.result = some r
  ready : cl.ready = true → cl'.ready = true
  cleaned : cl.cleaned = true → cl'.cleaned = true

theorem Grows.refl (cl : Call ρ) : cl.Grows cl :=
  ⟨rfl, List.prefix_refl _, fun _ => rfl, id, fun _ h => h, id, id⟩

theorem Grows.trans {cl₁ cl₂ cl₃ : Call ρ} (h₁ : cl₁.Grows cl₂) (h₂ : cl₂.Grows cl₃) :
    cl₁.Grows cl₃ where
  key := h₂.key.trans h₁.key
  ctxs := h₁.ctxs.trans h₂.ctxs
  ctxs_ready hr := (h₂.ctxs_ready (h₁.ready hr)).trans (h₁.ctxs_ready hr)
  started hs := h₂.started (h₁.started hs)
  result r hr := h₂.result r (h₁.result r hr)
  ready hr := h₂.ready (h₁.ready hr)
  cleaned hc := h₂.cleaned (h₁.cleaned hc)

variable {cl : Call ρ}

theorem grows_register (w : Nat) (h : cl.ready = false) :
    cl.Grows { cl with ctxs := cl.ctxs ++ [w] } :=
  ⟨rfl, List.prefix_append _ _, fun hr => by simp [h] at hr, id, fun _ h => h, id, id⟩

theorem grows_start : cl.Grows { cl with started := true } :=
  ⟨rfl, List.prefix_refl _, fun _ => rfl, fun _ => rfl, fun _ h => h, id, id⟩

theorem grows_finish (r : ρ) (h : cl.result = none) : cl.Grows { cl with result := some r } :=
  ⟨rfl, List.prefix_refl _, fun _ => rfl, id, fun _ hr => by simp [h] at hr, id, id⟩

theorem grows_close : cl.Grows { cl with ready := true } :=
  ⟨rfl, List.prefix_refl _, fun _ => rfl, id, fun _ h => h, fun _ => rfl, id⟩

theorem grows_cleanup : cl.Grows { cl with cleaned := true } :=
  ⟨rfl, List.prefix_refl _, fun _ => rfl, id, fun _ h => h, id, fun _ => rfl⟩

theorem grows_sharedDone (b : Bool) : cl.Grows { cl with sharedDone := b } :=
  ⟨rfl, List.prefix_refl _, fun _ => rfl, id, fun _ h => h, id, id⟩

end Call

namespace Group

variable {g g' : Group ρ} {c w : Nat} {cl : Call ρ} {cr : Caller ρ}

section Setters

variable (g c w cl cr)

@[simp] theorem setCall_m : (g.setCall c cl).m = g.m := rfl
@[simp] theorem setCall_numCalls : (g.setCall c cl).numCalls = g.numCalls := rfl
@[simp] theorem setCall_calls : (g.setCall c cl).calls = Function.update g.calls c cl := rfl
@[simp] theorem setCall_callers : (g.setCall c cl).callers = g.callers := rfl
@[simp] theorem setCaller_m : (g.setCaller w cr).m = g.m := rfl
@[simp] theorem setCaller_numCalls : (g.setCaller w cr).numCalls = g.numCalls := rfl
@[simp] theorem setCaller_calls : (g.setCaller w cr).calls = g.calls := rfl
@[simp] theorem setCaller_callers :
    (g.setCaller w cr).callers = Function.update g.callers w cr := rfl

@[simp] theorem addCall_m (key : String) :
    (g.addCall key).m = Function.update g.m key (some g.numCalls) := rfl

@[simp] theorem addCall_numCalls (key : String) : (g.addCall key).numCalls = g.numCalls + 1 := rfl
@[simp] theorem addCall_calls (key : String) :
    (g.addCall key).calls = Function.update g.calls g.numCalls (newCall key) := rfl

@[simp] theorem addCall_callers (key : String) : (g.addCall key).callers = g.callers := rfl

theorem setCall_self : g.setCall c (g.calls c) = g := by simp [setCall]

/-- `signal` changes at most whether the shared context of the call is done. -/
theorem signalCall_eq : ∃ b, g.signalCall c = g.setCall c { g.calls c with sharedDone := b } := by
  dsimp only [signalCall]
  split_ifs
  · exact ⟨_, (setCall_self g c).symm⟩
  · exact ⟨true, rfl⟩
  · exact ⟨_, (setCall_self g c).symm⟩

@[simp] theorem signalCall_callers : (g.signalCall c).callers = g.callers := by
  obtain ⟨b, hb⟩ := signalCall_eq g c
  rw [hb, setCall_callers]

@[simp] theorem signalCall_numCalls : (g.signalCall c).numCalls = g.numCalls := by
  obtain ⟨b, hb⟩ := signalCall_eq g c
  rw [hb, setCall_numCalls]

@[simp] theorem signalCall_ctxs (c' : Nat) : ((g.signalCall c).calls c').ctxs = (g.calls c').ctxs := by
  obtain ⟨b, hb⟩ := signalCall_eq g c
  rw [hb]
  by_cases e : c' = c
  · subst e
    simp
  · simp [e]

end Setters

theorem signalCall_calls_of_ne {c' : Nat} (e : c' ≠ c) : (g.signalCall c).calls c' = g.calls c' := by
  obtain ⟨b, hb⟩ := signalCall_eq g c
  rw [hb]
  simp [e]

/-- The shared context is done after `signal` only if it was, or all the callers registered
are canceled. -/
theorem signalCall_sharedDone (h : ((g.signalCall c).calls c).sharedDone = true) :
    (g.calls c).sharedDone = true ∨ ∀ w ∈ (g.calls c).ctxs, (g.callers w).canceled = true := by
  dsimp only [signalCall] at h
  split_ifs at h with h₁ h₂
  · exact .inl h
  · exact .inr (by simpa using h₂)
  · exact .inl h

/-! ### The invariant -/

/-- What the calls and the map keep: calls not made yet have no callers; the map holds, for each
key, the one call of the key not yet deleted; and of the calls of a key all but the newest are
deleted. -/
structure CallsOk (g : Group ρ) : Prop where
  fresh : ∀ c, g.numCalls ≤ c → (g.calls c).ctxs = []
  map_some : ∀ k c, g.m k = some c →
    c < g.numCalls ∧ (g.calls c).key = k ∧ (g.calls c).cleaned = false
  map_live : ∀ c < g.numCalls, (g.calls c).cleaned = false → g.m (g.calls c).key = some c
  older_cleaned : ∀ c c', c < c' → c' < g.numCalls →
    (g.calls c).key = (g.calls c').key → (g.calls c).cleaned = true
  wf : ∀ c, (g.calls c).Wf

/-- The caller `w` is registered with the call `c` of the key `key`. -/
def Registered (g : Group ρ) (w : Nat) (key : String) (c : Nat) : Prop :=
  c < g.numCalls ∧ (g.calls c).key = key ∧ w ∈ (g.calls c).ctxs

/-- What holds of the caller `w`, whose state is `cr`, at each place `p` of `Do`: before `c.mu`
it has a call of its key, and after it is registered with one; it reaches the `select` on the
shared context only with its own context done; and it has returned what `fn` returned on a
call it registered with, the error of its context once that is done, or `errRetryTimeout` once
the backoff reached three seconds. -/
def CallerOk (g : Group ρ) (w : Nat) (cr : Caller ρ) : Pc ρ → Prop
  | .start => True
  | .waitLock c => c < g.numCalls ∧ (g.calls c).key = cr.key
  | .waiting c => g.Registered w cr.key c
  | .sharedSelect c => g.Registered w cr.key c ∧ cr.canceled = true
  | .draining c => g.Registered w cr.key c
  | .done (.result r) =>
    ∃ c, g.Registered w cr.key c ∧ (g.calls c).ready = true ∧ (g.calls c).result = some r
  | .done .canceled => cr.canceled = true
  | .done .retryTimeout => 3000 ≤ cr.backoff

/-- What a caller has reads only the calls. -/
@[simp] theorem callerOk_setCaller {w' : Nat} {cr' : Caller ρ} {p : Pc ρ} :
    (g.setCaller w cr).CallerOk w' cr' p ↔ g.CallerOk w' cr' p := by
  cases p <;> rfl

/-- `sharedContext.signal` closes `done` only once the contexts of all the callers registered
until then are done: those callers stay at the front of `ctxs`, canceled. -/
def SharedOk (g : Group ρ) : Prop :=
  ∀ c < g.numCalls, (g.calls c).sharedDone = true →
    ∃ l rest, (g.calls c).ctxs = l ++ rest ∧ l ≠ [] ∧ ∀ w ∈ l, (g.callers w).canceled = true

/-- What every run of the group keeps. -/
structure Inv (g : Group ρ) : Prop where
  calls : g.CallsOk
  callers : ∀ w, g.CallerOk w (g.callers w) (g.callers w).pc
  shared : g.SharedOk

theorem CallsOk.lt_of_started (h : g.CallsOk) (hs : (g.calls c).started = true) :
    c < g.numCalls := by
  by_contra hc
  exact (h.wf c).started_ctxs hs (h.fresh c (Nat.le_of_not_lt hc))

theorem CallsOk.lt_of_ready (h : g.CallsOk) (hr : (g.calls c).ready = true) : c < g.numCalls :=
  h.lt_of_started ((h.wf c).result_started ((h.wf c).ready_result hr))

theorem Inv.at {p : Pc ρ} (hi : g.Inv) (hpc : (g.callers w).pc = p) :
    g.CallerOk w (g.callers w) p :=
  hpc ▸ hi.callers w

/-! ### How a run changes a group -/

/-- How a group changes along a run: calls are only added, each grows, and each caller keeps
its key and, once canceled, stays so. -/
structure Grows (g g' : Group ρ) : Prop where
  numCalls_le : g.numCalls ≤ g'.numCalls
  calls : ∀ c < g.numCalls, (g.calls c).Grows (g'.calls c)
  key : ∀ w, (g'.callers w).key = (g.callers w).key
  canceled : ∀ w, (g.callers w).canceled = true → (g'.callers w).canceled = true

theorem Grows.refl (g : Group ρ) : g.Grows g :=
  ⟨Nat.le_refl _, fun _ _ => Call.Grows.refl _, fun _ => rfl, fun _ h => h⟩

theorem Grows.trans {g₁ g₂ g₃ : Group ρ} (h₁ : g₁.Grows g₂) (h₂ : g₂.Grows g₃) : g₁.Grows g₃ where
  numCalls_le := Nat.le_trans h₁.numCalls_le h₂.numCalls_le
  calls c hc := (h₁.calls c hc).trans (h₂.calls c (Nat.lt_of_lt_of_le hc h₁.numCalls_le))
  key w := (h₂.key w).trans (h₁.key w)
  canceled w hw := h₂.canceled w (h₁.canceled w hw)

theorem grows_setCall (h : (g.calls c).Grows cl) : g.Grows (g.setCall c cl) := by
  refine ⟨Nat.le_refl _, fun c' _ => ?_, fun _ => rfl, fun _ h => h⟩
  by_cases e : c' = c
  · subst e
    simpa using h
  · simpa [e] using Call.Grows.refl (g.calls c')

theorem grows_setCaller (hk : cr.key = (g.callers w).key)
    (hc : (g.callers w).canceled = true → cr.canceled = true) : g.Grows (g.setCaller w cr) := by
  refine ⟨Nat.le_refl _, fun c _ => Call.Grows.refl _, fun w' => ?_, fun w' hw => ?_⟩
  · by_cases e : w' = w
    · subst e
      simpa using hk
    · simp [e]
  · by_cases e : w' = w
    · subst e
      simpa using hc hw
    · simpa [e] using hw

theorem grows_addCall (key : String) : g.Grows (g.addCall key) := by
  refine ⟨Nat.le_succ _, fun c hc => ?_, fun _ => rfl, fun _ h => h⟩
  have e : c ≠ g.numCalls := Nat.ne_of_lt hc
  simpa [addCall, e] using Call.Grows.refl (g.calls c)

theorem grows_signalCall : g.Grows (g.signalCall c) := by
  obtain ⟨b, hb⟩ := signalCall_eq g c
  rw [hb]
  exact grows_setCall (Call.grows_sharedDone b)

theorem Registered.grow {key : String} (hg : g.Grows g') (h : g.Registered w key c) :
    g'.Registered w key c := by
  obtain ⟨hc, hk, hw⟩ := h
  have hcl := hg.calls c hc
  exact ⟨Nat.lt_of_lt_of_le hc hg.numCalls_le, hcl.key.trans hk, hcl.ctxs.subset hw⟩

/-- What a caller has keeps, as the calls grow. -/
theorem CallerOk.grow (hg : g.Grows g') : ∀ {p : Pc ρ}, g.CallerOk w cr p → g'.CallerOk w cr p
  | .start, _ => trivial
  | .waitLock c, ⟨hc, hk⟩ => ⟨Nat.lt_of_lt_of_le hc hg.numCalls_le, ((hg.calls c hc).key).trans hk⟩
  | .waiting _, h => Registered.grow hg h
  | .sharedSelect _, ⟨h, hw⟩ => ⟨Registered.grow hg h, hw⟩
  | .draining _, h => Registered.grow hg h
  | .done (.result r), ⟨c, h, hr, hres⟩ =>
    ⟨c, Registered.grow hg h, (hg.calls c h.1).ready hr, (hg.calls c h.1).result r hres⟩
  | .done .canceled, h => h
  | .done .retryTimeout, h => h

theorem SharedOk.grow (hs : g.SharedOk) (hg : g.Grows g')
    (hsd : ∀ c < g'.numCalls, (g'.calls c).sharedDone = true →
      c < g.numCalls ∧ (g.calls c).sharedDone = true) : g'.SharedOk := by
  intro c hc hd
  obtain ⟨hc₀, hd₀⟩ := hsd c hc hd
  obtain ⟨l, rest, he, hl, hall⟩ := hs c hc₀ hd₀
  -- the callers registered since are behind them
  obtain ⟨more, hmore⟩ := (hg.calls c hc₀).ctxs
  exact ⟨l, rest ++ more, by rw [← hmore, he, List.append_assoc], hl,
    fun w hw => hg.canceled w (hall w hw)⟩

/-! ### The steps that change calls, and those that change callers -/

theorem CallsOk.setCaller (h : g.CallsOk) : (g.setCaller w cr).CallsOk :=
  ⟨h.fresh, h.map_some, h.map_live, h.older_cleaned, h.wf⟩

/-- A call changed in what the map does not read keeps the calls and the map as they must be. -/
theorem CallsOk.setCall (h : g.CallsOk) (hc : c < g.numCalls) (hkey : cl.key = (g.calls c).key)
    (hcl : cl.cleaned = (g.calls c).cleaned) (hwf : cl.Wf) : (g.setCall c cl).CallsOk := by
  have hk : ∀ c', ((g.setCall c cl).calls c').key = (g.calls c').key := fun c' => by
    by_cases e : c' = c
    · subst e
      simpa using hkey
    · simp [e]
  have hd : ∀ c', ((g.setCall c cl).calls c').cleaned = (g.calls c').cleaned := fun c' => by
    by_cases e : c' = c
    · subst e
      simpa using hcl
    · simp [e]
  refine ⟨fun c' hc' => ?_, fun k c' hm => ?_, fun c' hc' hd' => ?_,
    fun c₁ c₂ h₁ h₂ he => ?_, fun c' => ?_⟩
  · have e : c' ≠ c := by
      simp only [setCall_numCalls] at hc'
      omega
    simpa [e] using h.fresh c' hc'
  · rw [hk, hd]
    exact h.map_some k c' hm
  · rw [hk]
    rw [hd] at hd'
    exact h.map_live c' hc' hd'
  · rw [hd]
    rw [hk, hk] at he
    exact h.older_cleaned c₁ c₂ h₁ h₂ he
  · by_cases e : c' = c
    · subst e
      simpa using hwf
    · simpa [e] using h.wf c'

theorem SharedOk.setCall (hs : g.SharedOk) (hg : (g.calls c).Grows cl)
    (hsd : cl.sharedDone = (g.calls c).sharedDone) : (g.setCall c cl).SharedOk := by
  refine hs.grow (grows_setCall hg) fun c' hc' hd => ⟨hc', ?_⟩
  by_cases e : c' = c
  · subst e
    simpa [hsd] using hd
  · simpa [e] using hd

theorem SharedOk.setCaller (hs : g.SharedOk) (hk : cr.key = (g.callers w).key)
    (hc : (g.callers w).canceled = true → cr.canceled = true) : (g.setCaller w cr).SharedOk :=
  hs.grow (grows_setCaller hk hc) fun _ hc' hd => ⟨hc', hd⟩

/-- `signal` on a call with callers keeps what the shared contexts are. -/
theorem SharedOk.signalCall (hs : g.SharedOk) (hne : (g.calls c).ctxs ≠ []) :
    (g.signalCall c).SharedOk := by
  intro c' hc' hd
  rw [signalCall_numCalls] at hc'
  simp only [signalCall_ctxs, signalCall_callers]
  by_cases e : c' = c
  · subst e
    rcases signalCall_sharedDone hd with hd₀ | hall
    · exact hs c' hc' hd₀
    · -- the callers registered are all canceled: they are the front part
      exact ⟨(g.calls c').ctxs, [], (List.append_nil _).symm, hne, hall⟩
  · rw [signalCall_calls_of_ne e] at hd
    exact hs c' hc' hd

/-- A caller that changes where it is, with its key and what it has, keeps the invariant. -/
theorem Inv.setCaller (hi : g.Inv) (hok : g.CallerOk w cr cr.pc) (hk : cr.key = (g.callers w).key)
    (hc : (g.callers w).canceled = true → cr.canceled = true) : (g.setCaller w cr).Inv := by
  refine ⟨hi.calls.setCaller, fun w' => ?_, hi.shared.setCaller hk hc⟩
  by_cases e : w' = w
  · subst e
    simpa using hok
  · simpa [e] using hi.callers w'

/-- A step that changes calls and not callers keeps the invariant where it keeps the calls and
the shared contexts. -/
theorem Inv.of_calls (hi : g.Inv) (hc : g'.CallsOk) (hg : g.Grows g') (hw : g'.callers = g.callers)
    (hs : g'.SharedOk) : g'.Inv :=
  ⟨hc, fun w => hw ▸ CallerOk.grow hg (hi.callers w), hs⟩

theorem Inv.setCall (hi : g.Inv) (hc : c < g.numCalls) (hg : (g.calls c).Grows cl)
    (hcl : cl.cleaned = (g.calls c).cleaned) (hsd : cl.sharedDone = (g.calls c).sharedDone)
    (hwf : cl.Wf) : (g.setCall c cl).Inv :=
  hi.of_calls (hi.calls.setCall hc hg.key hcl hwf) (grows_setCall hg) rfl (hi.shared.setCall hg hsd)

/-- A new call of a key that the map has no call of. -/
theorem CallsOk.addCall {key : String} (h : g.CallsOk) (hm : g.m key = none) :
    (g.addCall key).CallsOk := by
  -- the calls of the key made before are all deleted, since the map has none
  have hold : ∀ c < g.numCalls, (g.calls c).key = key → (g.calls c).cleaned = true := by
    intro c hc hk
    by_contra hd
    have hmc := h.map_live c hc (by simpa using hd)
    rw [hk, hm] at hmc
    cases hmc
  refine ⟨fun c hc => ?_, fun k c hmk => ?_, fun c hc hd => ?_,
    fun c₁ c₂ h₁ h₂ hk => ?_, fun c => ?_⟩
  · rw [addCall_numCalls] at hc
    have e : c ≠ g.numCalls := by omega
    simpa [e] using h.fresh c (by omega)
  · by_cases ek : k = key
    · subst ek
      simp only [addCall_m, Function.update_self, Option.some.injEq] at hmk
      subst hmk
      simp [newCall]
    · have hmk' : g.m k = some c := by simpa [ek] using hmk
      obtain ⟨hc, hk, hd⟩ := h.map_some k c hmk'
      have e : c ≠ g.numCalls := Nat.ne_of_lt hc
      simp only [addCall_numCalls, addCall_calls, Function.update_of_ne e]
      exact ⟨Nat.lt_succ_of_lt hc, hk, hd⟩
  · by_cases e : c = g.numCalls
    · subst e
      simp [newCall]
    · rw [addCall_numCalls] at hc
      have hc' : c < g.numCalls := by omega
      simp only [addCall_calls, Function.update_of_ne e] at hd ⊢
      have hk : (g.calls c).key ≠ key := fun hk => by simp [hold c hc' hk] at hd
      rw [addCall_m, Function.update_of_ne hk]
      exact h.map_live c hc' hd
  · rw [addCall_numCalls] at h₂
    have e₁ : c₁ ≠ g.numCalls := by omega
    simp only [addCall_calls, Function.update_of_ne e₁] at hk ⊢
    by_cases e₂ : c₂ = g.numCalls
    · subst e₂
      rw [Function.update_self] at hk
      exact hold c₁ (by omega) hk
    · rw [Function.update_of_ne e₂] at hk
      exact h.older_cleaned c₁ c₂ h₁ (by omega) hk
  · by_cases e : c = g.numCalls
    · subst e
      simpa using Call.wf_newCall key
    · simpa [e] using h.wf c

theorem SharedOk.addCall {key : String} (hs : g.SharedOk) : (g.addCall key).SharedOk := by
  refine hs.grow (grows_addCall key) fun c hc hd => ?_
  -- the new call's shared context is not done
  have e : c ≠ g.numCalls := by
    rintro rfl
    simp [newCall] at hd
  rw [addCall_numCalls] at hc
  simp only [addCall_calls, Function.update_of_ne e] at hd
  exact ⟨by omega, hd⟩

theorem Inv.addCall {key : String} (hi : g.Inv) (hm : g.m key = none) : (g.addCall key).Inv :=
  hi.of_calls (hi.calls.addCall hm) (grows_addCall key) rfl hi.shared.addCall

/-- The goroutine of `do` deletes the key of a ready call: the entry it deletes is that call's. -/
theorem CallsOk.cleanup (h : g.CallsOk) (hr : (g.calls c).ready = true)
    (hd : (g.calls c).cleaned = false) :
    ({ g.setCall c { g.calls c with cleaned := true } with
      m := Function.update g.m (g.calls c).key none } : Group ρ).CallsOk := by
  have hc : c < g.numCalls := h.lt_of_ready hr
  have hmc : g.m (g.calls c).key = some c := h.map_live c hc hd
  refine ⟨fun c' hc' => ?_, fun k c' hm => ?_, fun c' hc' hd' => ?_,
    fun c₁ c₂ h₁ h₂ hk => ?_, fun c' => ?_⟩
  · simp only [setCall_numCalls] at hc'
    have e : c' ≠ c := by omega
    simpa [e] using h.fresh c' hc'
  · -- an entry left is of another key, so of another call
    have ek : k ≠ (g.calls c).key := by
      rintro rfl
      simp at hm
    have hm' : g.m k = some c' := by simpa [ek] using hm
    obtain ⟨hc', hk, hd'⟩ := h.map_some k c' hm'
    have e : c' ≠ c := by
      rintro rfl
      exact ek hk.symm
    simp only [setCall_numCalls, setCall_calls, Function.update_of_ne e]
    exact ⟨hc', hk, hd'⟩
  · -- a call not deleted is another one, of another key
    have e : c' ≠ c := by
      rintro rfl
      simp at hd'
    simp only [setCall_calls, Function.update_of_ne e] at hd' ⊢
    have hk : (g.calls c').key ≠ (g.calls c).key := by
      intro hk
      have hmc' := h.map_live c' hc' hd'
      rw [hk, hmc] at hmc'
      exact e (Option.some.inj hmc').symm
    rw [Function.update_of_ne hk]
    exact h.map_live c' hc' hd'
  · by_cases e₁ : c₁ = c
    · subst e₁
      simp
    · by_cases e₂ : c₂ = c
      · subst e₂
        simp only [setCall_calls, Function.update_of_ne e₁, Function.update_self] at hk ⊢
        exact h.older_cleaned c₁ c₂ h₁ h₂ hk
      · simp only [setCall_calls, Function.update_of_ne e₁, Function.update_of_ne e₂] at hk ⊢
        exact h.older_cleaned c₁ c₂ h₁ h₂ hk
  · by_cases e : c' = c
    · subst e
      have hwf := h.wf c'
      simpa using (⟨fun _ => hr, hwf.ready_result, hwf.result_started, hwf.started_ctxs⟩ :
        Call.Wf { g.calls c' with cleaned := true })
    · simpa [e] using h.wf c'

theorem CallsOk.signalCall (h : g.CallsOk) (hc : c < g.numCalls) : (g.signalCall c).CallsOk := by
  obtain ⟨b, hb⟩ := signalCall_eq g c
  have hwf := h.wf c
  rw [hb]
  exact h.setCall hc rfl rfl ⟨hwf.cleaned_ready, hwf.ready_result, hwf.result_started, hwf.started_ctxs⟩

theorem Inv.signalCall (hi : g.Inv) (hc : c < g.numCalls) (hne : (g.calls c).ctxs ≠ []) :
    (g.signalCall c).Inv :=
  hi.of_calls (hi.calls.signalCall hc) grows_signalCall (signalCall_callers g c)
    (hi.shared.signalCall hne)

theorem CallerOk.cancel : ∀ {p : Pc ρ}, g.CallerOk w cr p →
    g.CallerOk w { cr with canceled := true } p
  | .start, h => h
  | .waitLock _, h => h
  | .waiting _, h => h
  | .sharedSelect _, ⟨h, _⟩ => ⟨h, rfl⟩
  | .draining _, h => h
  | .done (.result _), h => h
  | .done .canceled, _ => rfl
  | .done .retryTimeout, h => h

/-! ### What each step can do -/

theorem do_eq_some (h : g.do_ w = some g') : (g.callers w).pc = .start ∧
    ((∃ c, g.m (g.callers w).key = some c ∧
        g' = g.setCaller w { g.callers w with pc := .waitLock c }) ∨
      (g.m (g.callers w).key = none ∧ g' = (g.addCall (g.callers w).key).setCaller w
        { g.callers w with pc := .waitLock g.numCalls })) := by
  dsimp only [do_] at h
  split at h
  · rename_i hpc
    refine ⟨hpc, ?_⟩
    split at h
    · rename_i c hm
      exact .inl ⟨c, hm, (Option.some.inj h).symm⟩
    · rename_i hm
      exact .inr ⟨hm, (Option.some.inj h).symm⟩
  · cases h

theorem wait_eq_some (h : g.wait w = some g') : ∃ c, (g.callers w).pc = .waitLock c ∧
    ((g.calls c).ready = true ∧ 3000 ≤ (g.callers w).backoff ∧
        g' = g.setCaller w { g.callers w with pc := .done .retryTimeout } ∨
      (g.calls c).ready = true ∧ (g.callers w).backoff < 3000 ∧
        g' = g.setCaller w { g.callers w with
          pc := .start, backoff := if 0 < (g.callers w).backoff then (g.callers w).backoff * 2 else 1 } ∨
      (g.calls c).ready = false ∧
        g' = (g.setCall c { g.calls c with ctxs := (g.calls c).ctxs ++ [w] }).setCaller w
          { g.callers w with pc := .waiting c }) := by
  dsimp only [wait] at h
  split at h
  · rename_i c hpc
    refine ⟨c, hpc, ?_⟩
    by_cases hr : (g.calls c).ready = true
    · rw [if_pos hr] at h
      by_cases hb : 3000 ≤ (g.callers w).backoff
      · rw [if_pos hb] at h
        exact .inl ⟨hr, hb, (Option.some.inj h).symm⟩
      · rw [if_neg hb] at h
        exact .inr (.inl ⟨hr, Nat.lt_of_not_le hb, (Option.some.inj h).symm⟩)
    · rw [if_neg hr] at h
      exact .inr (.inr ⟨by simpa using hr, (Option.some.inj h).symm⟩)
  · cases h

theorem run_eq_some (h : g.run c = some g') : (g.calls c).ctxs ≠ [] ∧
    (g.calls c).started = false ∧ g' = g.setCall c { g.calls c with started := true } := by
  dsimp only [run] at h
  split_ifs at h with hg
  exact ⟨hg.1, hg.2, (Option.some.inj h).symm⟩

theorem finish_eq_some {r : ρ} (h : g.finish c r = some g') : (g.calls c).started = true ∧
    (g.calls c).result = none ∧ g' = g.setCall c { g.calls c with result := some r } := by
  dsimp only [finish] at h
  split_ifs at h with hg
  exact ⟨hg.1, hg.2, (Option.some.inj h).symm⟩

theorem close_eq_some (h : g.close c = some g') : (g.calls c).result.isSome = true ∧
    (g.calls c).ready = false ∧ g' = g.setCall c { g.calls c with ready := true } := by
  dsimp only [close] at h
  split_ifs at h with hg
  exact ⟨hg.1, hg.2, (Option.some.inj h).symm⟩

theorem cleanup_eq_some (h : g.cleanup c = some g') : (g.calls c).ready = true ∧
    (g.calls c).cleaned = false ∧
    g' = { g.setCall c { g.calls c with cleaned := true } with
      m := Function.update g.m (g.calls c).key none } := by
  dsimp only [cleanup] at h
  split_ifs at h with hg
  exact ⟨hg.1, hg.2, (Option.some.inj h).symm⟩

theorem signal_eq_some (h : g.signal c = some g') :
    (g.calls c).started = true ∧ g' = g.signalCall c := by
  dsimp only [signal] at h
  split_ifs at h with hg
  exact ⟨hg, (Option.some.inj h).symm⟩

theorem ready_eq_some (h : g.ready w = some g') : ∃ c r, (g.callers w).pc = .waiting c ∧
    (g.calls c).ready = true ∧ (g.calls c).result = some r ∧
    g' = g.setCaller w { g.callers w with pc := .done (.result r) } := by
  dsimp only [ready] at h
  split at h
  · rename_i c hpc
    split at h
    · rename_i r hr hres
      exact ⟨c, r, hpc, hr, hres, (Option.some.inj h).symm⟩
    · cases h
  · cases h

theorem ctxDone_eq_some (h : g.ctxDone w = some g') : ∃ c, (g.callers w).pc = .waiting c ∧
    (g.callers w).canceled = true ∧
    g' = (g.signalCall c).setCaller w { g.callers w with pc := .sharedSelect c } := by
  dsimp only [ctxDone] at h
  split at h
  · rename_i c hpc
    split_ifs at h with hc
    exact ⟨c, hpc, hc, (Option.some.inj h).symm⟩
  · cases h

theorem sharedSelect_eq_some (h : g.sharedSelect w = some g') :
    ∃ c, (g.callers w).pc = .sharedSelect c ∧
      ((g.calls c).sharedDone = true ∧ g' = g.setCaller w { g.callers w with pc := .draining c } ∨
        g' = g.setCaller w { g.callers w with pc := .done .canceled }) := by
  dsimp only [sharedSelect] at h
  split at h
  · rename_i c hpc
    refine ⟨c, hpc, ?_⟩
    split_ifs at h with hd
    · exact .inl ⟨hd, (Option.some.inj h).symm⟩
    · exact .inr (Option.some.inj h).symm
  · cases h

theorem drained_eq_some (h : g.drained w = some g') : ∃ c r, (g.callers w).pc = .draining c ∧
    (g.calls c).ready = true ∧ (g.calls c).result = some r ∧
    g' = g.setCaller w { g.callers w with pc := .done (.result r) } := by
  dsimp only [drained] at h
  split at h
  · rename_i c hpc
    split at h
    · rename_i r hr hres
      exact ⟨c, r, hpc, hr, hres, (Option.some.inj h).symm⟩
    · cases h
  · cases h

/-! ### Each step keeps the invariant -/

theorem do_inv (hi : g.Inv) (h : g.do_ w = some g') : g'.Inv := by
  obtain ⟨-, ⟨c, hm, rfl⟩ | ⟨hm, rfl⟩⟩ := do_eq_some h
  · -- the call in the map is one of the key
    obtain ⟨hc, hk, -⟩ := hi.calls.map_some _ c hm
    exact hi.setCaller ⟨hc, hk⟩ rfl id
  · exact (hi.addCall hm).setCaller ⟨Nat.lt_succ_self _, by simp [newCall]⟩ rfl id

theorem wait_inv (hi : g.Inv) (h : g.wait w = some g') : g'.Inv := by
  obtain ⟨c, hpc, ⟨-, hb, rfl⟩ | ⟨-, -, rfl⟩ | ⟨hr, rfl⟩⟩ := wait_eq_some h
  · exact hi.setCaller hb rfl id
  · exact hi.setCaller trivial rfl id
  · -- the caller is registered with a call that is not ready
    obtain ⟨hc, hk⟩ := hi.at hpc
    have hwf := hi.calls.wf c
    have hi' := hi.setCall hc (Call.grows_register w hr) rfl rfl
      ⟨hwf.cleaned_ready, hwf.ready_result, hwf.result_started, fun _ => by simp⟩
    exact hi'.setCaller ⟨hc, by simpa using hk, by simp⟩ rfl id

theorem run_inv (hi : g.Inv) (h : g.run c = some g') : g'.Inv := by
  obtain ⟨hne, -, rfl⟩ := run_eq_some h
  have hc : c < g.numCalls := by
    by_contra hc
    exact hne (hi.calls.fresh c (Nat.le_of_not_lt hc))
  have hwf := hi.calls.wf c
  exact hi.setCall hc Call.grows_start rfl rfl
    ⟨hwf.cleaned_ready, hwf.ready_result, fun _ => rfl, fun _ => hne⟩

theorem finish_inv {r : ρ} (hi : g.Inv) (h : g.finish c r = some g') : g'.Inv := by
  obtain ⟨hs, hres, rfl⟩ := finish_eq_some h
  have hwf := hi.calls.wf c
  exact hi.setCall (hi.calls.lt_of_started hs) (Call.grows_finish r hres) rfl rfl
    ⟨hwf.cleaned_ready, fun _ => rfl, fun _ => hs, hwf.started_ctxs⟩

theorem close_inv (hi : g.Inv) (h : g.close c = some g') : g'.Inv := by
  obtain ⟨hres, -, rfl⟩ := close_eq_some h
  have hwf := hi.calls.wf c
  exact hi.setCall (hi.calls.lt_of_started (hwf.result_started hres)) Call.grows_close rfl rfl
    ⟨fun _ => rfl, fun _ => hres, hwf.result_started, hwf.started_ctxs⟩

theorem cleanup_inv (hi : g.Inv) (h : g.cleanup c = some g') : g'.Inv := by
  obtain ⟨hr, hd, rfl⟩ := cleanup_eq_some h
  have hg := grows_setCall (g := g) (c := c) Call.grows_cleanup
  exact hi.of_calls (hi.calls.cleanup hr hd) ⟨hg.1, hg.2, hg.3, hg.4⟩ rfl
    (hi.shared.setCall Call.grows_cleanup rfl)

theorem cancel_inv (hi : g.Inv) : (g.cancel w).Inv :=
  hi.setCaller (CallerOk.cancel (hi.callers w)) rfl fun _ => rfl

theorem signal_inv (hi : g.Inv) (h : g.signal c = some g') : g'.Inv := by
  obtain ⟨hs, rfl⟩ := signal_eq_some h
  exact hi.signalCall (hi.calls.lt_of_started hs) ((hi.calls.wf c).started_ctxs hs)

theorem ready_inv (hi : g.Inv) (h : g.ready w = some g') : g'.Inv := by
  obtain ⟨c, r, hpc, hr, hres, rfl⟩ := ready_eq_some h
  exact hi.setCaller ⟨c, hi.at hpc, hr, hres⟩ rfl id

theorem ctxDone_inv (hi : g.Inv) (h : g.ctxDone w = some g') : g'.Inv := by
  obtain ⟨c, hpc, hcan, rfl⟩ := ctxDone_eq_some h
  have hreg : g.Registered w (g.callers w).key c := hi.at hpc
  have hi' := hi.signalCall hreg.1 (List.ne_nil_of_mem hreg.2.2)
  exact hi'.setCaller ⟨Registered.grow grows_signalCall hreg, hcan⟩
    (by rw [signalCall_callers]) (by rw [signalCall_callers]; exact id)

theorem sharedSelect_inv (hi : g.Inv) (h : g.sharedSelect w = some g') : g'.Inv := by
  obtain ⟨c, hpc, ⟨-, rfl⟩ | rfl⟩ := sharedSelect_eq_some h
  · exact hi.setCaller (hi.at hpc).1 rfl id
  · exact hi.setCaller (hi.at hpc).2 rfl id

theorem drained_inv (hi : g.Inv) (h : g.drained w = some g') : g'.Inv := by
  obtain ⟨c, r, hpc, hr, hres, rfl⟩ := drained_eq_some h
  exact hi.setCaller ⟨c, hi.at hpc, hr, hres⟩ rfl id

theorem inv_init (keys : Nat → String) : (init keys : Group ρ).Inv where
  calls :=
    { fresh := fun _ _ => rfl
      map_some := fun _ _ h => nomatch h
      map_live := fun _ h => absurd h (Nat.not_lt_zero _)
      older_cleaned := fun _ _ _ h => absurd h (Nat.not_lt_zero _)
      wf := fun _ => Call.wf_newCall "" }
  callers _ := trivial
  shared _ h := absurd h (Nat.not_lt_zero _)

theorem step_inv {a : Action ρ} (hi : g.Inv) (h : g.step a = some g') : g'.Inv := by
  cases a with
  | do_ w => exact do_inv hi h
  | wait w => exact wait_inv hi h
  | run c => exact run_inv hi h
  | finish c r => exact finish_inv hi h
  | close c => exact close_inv hi h
  | cleanup c => exact cleanup_inv hi h
  | cancel w =>
    cases h
    exact cancel_inv hi
  | signal c => exact signal_inv hi h
  | ready w => exact ready_inv hi h
  | ctxDone w => exact ctxDone_inv hi h
  | sharedSelect w => exact sharedSelect_inv hi h
  | drained w => exact drained_inv hi h

/-- Every step grows the group. -/
theorem step_grows {a : Action ρ} (h : g.step a = some g') : g.Grows g' := by
  cases a with
  | do_ w =>
    obtain ⟨-, ⟨c, -, rfl⟩ | ⟨-, rfl⟩⟩ := do_eq_some h
    · exact grows_setCaller rfl id
    · exact (grows_addCall _).trans (grows_setCaller rfl id)
  | wait w =>
    obtain ⟨c, -, ⟨-, -, rfl⟩ | ⟨-, -, rfl⟩ | ⟨hr, rfl⟩⟩ := wait_eq_some h
    · exact grows_setCaller rfl id
    · exact grows_setCaller rfl id
    · exact (grows_setCall (Call.grows_register w hr)).trans (grows_setCaller rfl id)
  | run c =>
    obtain ⟨-, -, rfl⟩ := run_eq_some h
    exact grows_setCall Call.grows_start
  | finish c r =>
    obtain ⟨-, hres, rfl⟩ := finish_eq_some h
    exact grows_setCall (Call.grows_finish r hres)
  | close c =>
    obtain ⟨-, -, rfl⟩ := close_eq_some h
    exact grows_setCall Call.grows_close
  | cleanup c =>
    obtain ⟨-, -, rfl⟩ := cleanup_eq_some h
    have hg := grows_setCall (g := g) (c := c) Call.grows_cleanup
    exact ⟨hg.1, hg.2, hg.3, hg.4⟩
  | cancel w =>
    cases h
    exact grows_setCaller rfl fun _ => rfl
  | signal c =>
    obtain ⟨-, rfl⟩ := signal_eq_some h
    exact grows_signalCall
  | ready w =>
    obtain ⟨c, r, -, -, -, rfl⟩ := ready_eq_some h
    exact grows_setCaller rfl id
  | ctxDone w =>
    obtain ⟨c, -, -, rfl⟩ := ctxDone_eq_some h
    exact grows_signalCall.trans
      (grows_setCaller (by rw [signalCall_callers]) (by rw [signalCall_callers]; exact id))
  | sharedSelect w =>
    obtain ⟨c, -, ⟨-, rfl⟩ | rfl⟩ := sharedSelect_eq_some h
    · exact grows_setCaller rfl id
    · exact grows_setCaller rfl id
  | drained w =>
    obtain ⟨c, r, -, -, -, rfl⟩ := drained_eq_some h
    exact grows_setCaller rfl id

/-! ### Every run -/

variable {acts : List (Action ρ)}

theorem runAll_inv (h : g.runAll acts = some g') (hi : g.Inv) : g'.Inv :=
  Loop.foldlM_keeps Inv (fun _ _ _ _ hs hi => step_inv hi hs) h hi

theorem runAll_grows (h : g.runAll acts = some g') : g.Grows g' :=
  Loop.foldlM_rel Grows Grows.refl (fun h₁ h₂ => h₁.trans h₂) (fun _ _ _ _ hs => step_grows hs) h

theorem inv_of_run {keys : Nat → String} (h : (init keys).runAll acts = some g) : g.Inv :=
  runAll_inv h (inv_init keys)

/-! ### What every run of the group does -/

/-- A run of three callers of one key: the first two share a call; the third comes after its
entry is deleted, is registered with a new call, and is canceled before `fn` begins. -/
def threeCallers : List (Action Unit) :=
  [.do_ 0, .wait 0, .run 0, .do_ 1, .wait 1, .finish 0 (), .close 0, .ready 0, .ready 1,
    .cleanup 0, .do_ 2, .wait 2, .cancel 2, .ctxDone 2, .sharedSelect 2]

variable {keys : Nat → String}

/-- Of the calls made for one key, every one but the newest has had `fn` return, `ready` closed
and its entry deleted: the runs of `fn` for a key come one after another, never two at once. -/
theorem calls_of_key_serialized (h : (init keys).runAll acts = some g) (c c' : Nat) (hlt : c < c')
    (hc' : c' < g.numCalls) (hkey : (g.calls c).key = (g.calls c').key) :
    (g.calls c).cleaned = true ∧ (g.calls c).ready = true ∧ (g.calls c).result.isSome = true := by
  have hi := inv_of_run h
  have hcl := hi.calls.older_cleaned c c' hlt hc' hkey
  have hr := (hi.calls.wf c).cleaned_ready hcl
  exact ⟨hcl, hr, (hi.calls.wf c).ready_result hr⟩

theorem calls_of_key_serialized_run :
    ∃ g : Group Unit, (init fun _ => "k").runAll threeCallers = some g ∧
      (g.calls 0).cleaned = true ∧ (g.calls 0).ready = true ∧ (g.calls 0).result.isSome = true :=
  have h : (init fun _ => "k").runAll threeCallers = some _ := rfl
  ⟨_, h, calls_of_key_serialized h 0 1 (by decide) (by decide) (by decide)⟩

/-- The map holds, for each key, exactly the call of the key that has not been deleted: `do`
puts a call only where the map has none, and the goroutine of a call deletes that call's entry
and no other. -/
theorem map_holds_live_call (h : (init keys).runAll acts = some g) (k : String) (c : Nat) :
    g.m k = some c ↔ c < g.numCalls ∧ (g.calls c).key = k ∧ (g.calls c).cleaned = false := by
  have hi := (inv_of_run h).calls
  constructor
  · exact hi.map_some k c
  · rintro ⟨hc, rfl, hd⟩
    exact hi.map_live c hc hd

theorem map_holds_live_call_run :
    ∃ g : Group Unit, (init fun _ => "k").runAll threeCallers = some g ∧
      (g.m "k" = some 1 ↔ 1 < g.numCalls ∧ (g.calls 1).key = "k" ∧ (g.calls 1).cleaned = false) :=
  have h : (init fun _ => "k").runAll threeCallers = some _ := rfl
  ⟨_, h, map_holds_live_call h "k" 1⟩

/-- What `Do` returns to a caller: what `fn` returned on a call of the caller's key that it
registered with and whose `ready` is closed; the error of its context only once that is done;
and `errRetryTimeout` only once the backoff reached three seconds. -/
theorem do_returns (h : (init keys).runAll acts = some g) (w : Nat) :
    (∀ r, (g.callers w).pc = .done (.result r) → ∃ c < g.numCalls, (g.calls c).key = keys w ∧
        w ∈ (g.calls c).ctxs ∧ (g.calls c).ready = true ∧ (g.calls c).result = some r) ∧
      ((g.callers w).pc = .done .canceled → (g.callers w).canceled = true) ∧
      ((g.callers w).pc = .done .retryTimeout → 3000 ≤ (g.callers w).backoff) := by
  have hi := inv_of_run h
  -- the caller asks for the key it came with
  have hk : (g.callers w).key = keys w := (runAll_grows h).key w
  refine ⟨fun r hpc => ?_, hi.at, hi.at⟩
  obtain ⟨c, ⟨hc, hkc, hw⟩, hr, hres⟩ := hi.at hpc
  exact ⟨c, hc, hkc.trans hk, hw, hr, hres⟩

theorem do_returns_run :
    ∃ g : Group Unit, (init fun _ => "k").runAll threeCallers = some g ∧
      (∀ r, (g.callers 1).pc = .done (.result r) → ∃ c < g.numCalls, (g.calls c).key = "k" ∧
          1 ∈ (g.calls c).ctxs ∧ (g.calls c).ready = true ∧ (g.calls c).result = some r) ∧
        ((g.callers 1).pc = .done .canceled → (g.callers 1).canceled = true) ∧
        ((g.callers 1).pc = .done .retryTimeout → 3000 ≤ (g.callers 1).backoff) :=
  have h : (init fun _ => "k").runAll threeCallers = some _ := rfl
  ⟨_, h, do_returns h 1⟩

/-- A call whose `ready` is closed takes no more callers, and what `fn` returned on it stays, in
every continuation of the run: a caller joins only a call still in flight. -/
theorem ready_call_frozen {acts' : List (Action ρ)} {g'' : Group ρ}
    (h : (init keys).runAll acts = some g) (c : Nat) (hr : (g.calls c).ready = true)
    (h' : g.runAll acts' = some g'') :
    (g''.calls c).ctxs = (g.calls c).ctxs ∧ (g''.calls c).result = (g.calls c).result ∧
      (g''.calls c).ready = true := by
  have hi := inv_of_run h
  have hg := (runAll_grows h').calls c (hi.calls.lt_of_ready hr)
  obtain ⟨r, hres⟩ := Option.isSome_iff_exists.mp ((hi.calls.wf c).ready_result hr)
  exact ⟨hg.ctxs_ready hr, by rw [hres]; exact hg.result r hres, hg.ready hr⟩

/-- After the first caller's call returned, a second caller of the key finds it in the map, gets
`errRetry` and backs off. -/
theorem ready_call_frozen_run :
    ∃ g g' : Group Unit,
      (init fun _ => "k").runAll [.do_ 0, .wait 0, .run 0, .finish 0 (), .close 0] = some g ∧
      g.runAll [.do_ 1, .wait 1] = some g' ∧
      (g'.calls 0).ctxs = (g.calls 0).ctxs ∧ (g'.calls 0).result = (g.calls 0).result ∧
        (g'.calls 0).ready = true :=
  have h : (init fun _ => "k").runAll [.do_ 0, .wait 0, .run 0, .finish 0 (), .close 0] =
    some _ := rfl
  have h' : Group.runAll _ [.do_ 1, .wait 1] = some _ := rfl
  ⟨_, _, h, h', ready_call_frozen h 0 (by decide) h'⟩

/-- The shared context of `fn` is done only once the contexts of all the callers registered
until then are: they are canceled, and stay in front of those registered since. -/
theorem shared_done_all_canceled (h : (init keys).runAll acts = some g) (c : Nat)
    (hc : c < g.numCalls) (hd : (g.calls c).sharedDone = true) :
    ∃ l rest, (g.calls c).ctxs = l ++ rest ∧ l ≠ [] ∧ ∀ w ∈ l, (g.callers w).canceled = true :=
  (inv_of_run h).shared c hc hd

theorem shared_done_all_canceled_run :
    ∃ g : Group Unit, (init fun _ => "k").runAll threeCallers = some g ∧
      ∃ l rest, (g.calls 1).ctxs = l ++ rest ∧ l ≠ [] ∧ ∀ w ∈ l, (g.callers w).canceled = true :=
  have h : (init fun _ => "k").runAll threeCallers = some _ := rfl
  ⟨_, h, shared_done_all_canceled h 1 (by decide) (by decide)⟩

end Group

end Flightcontrol

end Buildkit
