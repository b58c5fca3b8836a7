import Mathlib.Data.List.Basic
import Buildkit.Lib.Loop

/-!
# Shared results

`SharedResult` of `solver/result.go`: a result that can be cloned. `Clone` splits the current
result with `dup` into two `splitResult`s that share a counter `sem`, keeps the first and returns
the second, so that after `n` clones the shared result holds a chain of `n` pairs, each wrapping
the first result of the pair before it and the first pair wrapping the result the shared result
was made with. A `splitResult` counts its own releases and errors from the second one on; the
release that brings the shared counter to two releases the result the pair wraps.
`SharedCachedResult` delegates `Clone` and `Release` to its `SharedResult`.

A run that releases the shared result at most once and only after its last clone, and each
handle only after `Clone` returned it, releases the base result at most once, and has released
it exactly when the shared result and every handle have been released
(`run_releases_base_once`). The proof keeps the counters linked along the chain (`Linked`): the
result below a pair has been released once its pair's `sem` reached two, and a release of a
handle keeps this (`releaseTarget_spec`). Nothing guards the shared result itself: before a
clone its `main` is the base result, which a second `Release` releases again, and a clone made
after the `Release` wraps a result already released (`sharedResult_release_twice`).

Representation. The two `splitResult`s of one `dup` are one record `Dup`, with the counter of each
and the shared `sem`; a result is the base result or a side of a pair, by pointer. What the
release of the base result returns is left out: it is called, and the model counts the calls.
Each call is one step: `Clone` and the shared result's `Release` hold its lock, and the atomic
additions of a `splitResult`'s `Release` only ever compare a counter with the number of additions
made to it, so an interleaving of them gives the results of the same calls made one after another.
The recursion of `Release` through the chain is given fuel.
-/

namespace Buildkit

namespace SharedResult

/-- A `Result` of the shared result: the one it was made with, or one side of a `dup`. -/
inductive Target
  | base
  | split (c : Nat) (second : Bool)
  deriving DecidableEq, Repr

/-- The two `splitResult`s of one `dup`: the result both wrap, the `released` counter of each,
and the `sem` they share. -/
structure Dup where
  result : Target
  releasedFirst : Nat
  releasedSecond : Nat
  sem : Nat
  deriving DecidableEq, Repr

/-- The `released` counter of one side. -/
def Dup.released (d : Dup) (second : Bool) : Nat :=
  if second then d.releasedSecond else d.releasedFirst

/-- One side's `released` counter set to `n`. -/
def Dup.setReleased (d : Dup) (second : Bool) (n : Nat) : Dup :=
  if second then { d with releasedSecond := n } else { d with releasedFirst := n }

/-- A `SharedResult`: its `main`, the pairs its clones made, and how often the release of the
result it was made with has been called. -/
structure State where
  main : Target
  dups : List Dup
  baseReleases : Nat
  deriving DecidableEq, Repr

/-- `NewSharedResult`. -/
def newSharedResult : State := ⟨.base, [], 0⟩

namespace State

/-- `Clone`: `dup` of `main`; the first result becomes `main` and the second is returned. -/
def clone (st : State) : Target × State :=
  (.split st.dups.length true,
    { st with main := .split st.dups.length false, dups := st.dups ++ [⟨st.main, 0, 0, 0⟩] })

/-- `Release` of a result: the base result's release is counted; a `splitResult` errors if it was
released before, and otherwise releases the result it wraps once its pair's `sem` reaches two. -/
def releaseTarget : Nat → State → Target → Option (Except String Unit × State)
  | _, st, .base => some (.ok (), { st with baseReleases := st.baseReleases + 1 })
  | 0, _, .split _ _ => none
  | fuel + 1, st, .split c second => do
    let d ← st.dups[c]?
    let released := d.released second + 1
    let d := d.setReleased second released
    if released > 1 then
      pure (.error "releasing already released reference", { st with dups := st.dups.set c d })
    else
      let d := { d with sem := d.sem + 1 }
      let st := { st with dups := st.dups.set c d }
      if d.sem = 2 then releaseTarget fuel st d.result else pure (.ok (), st)

/-- The fuel of a release: the chain of results is at most as long as there are pairs. -/
def releaseFuel (st : State) : Nat := st.dups.length + 1

end State

/-- The calls on a shared result: `Clone`, `Release`, and `Release` of the handle the `c`-th
`Clone` returned. -/
inductive Op
  | clone
  | release
  | releaseClone (c : Nat)
  deriving DecidableEq

namespace State

/-- One call, with what `Release` returns; `none` when a release does not end. -/
def step (st : State) : Op → Option (Except String Unit × State)
  | .clone => some (.ok (), st.clone.2)
  | .release => st.releaseTarget st.releaseFuel st.main
  | .releaseClone c => st.releaseTarget st.releaseFuel (.split c true)

/-- A sequence of calls. -/
def run (st : State) (ops : List Op) : Option State :=
  ops.foldlM (fun st op => (st.step op).map (·.2)) st

end State

/-! ## The counters a release leaves -/

@[simp] theorem released_setReleased_self (d : Dup) (s : Bool) (n : Nat) :
    (d.setReleased s n).released s = n := by
  cases s <;> rfl

@[simp] theorem released_setReleased_ne (d : Dup) {s s' : Bool} (h : s' ≠ s) (n : Nat) :
    (d.setReleased s n).released s' = d.released s' := by
  cases s <;> cases s' <;> simp_all [Dup.setReleased, Dup.released]

@[simp] theorem result_setReleased (d : Dup) (s : Bool) (n : Nat) :
    (d.setReleased s n).result = d.result := by
  cases s <;> rfl

@[simp] theorem sem_setReleased (d : Dup) (s : Bool) (n : Nat) :
    (d.setReleased s n).sem = d.sem := by
  cases s <;> rfl

@[simp] theorem released_withSem (d : Dup) (n : Nat) (s : Bool) :
    ({ d with sem := n } : Dup).released s = d.released s := by
  cases s <;> rfl

/-- The sides released so far, which is what `sem` counts. -/
def Dup.sides (d : Dup) : Nat := min 1 d.releasedFirst + min 1 d.releasedSecond

theorem sides_eq (d : Dup) (s : Bool) :
    d.sides = min 1 (d.released s) + min 1 (d.released (!s)) := by
  cases s <;> simp [Dup.sides, Dup.released, Nat.add_comm]

/-- The result pair `c` wraps: the base result under the first pair, else the first side of the
pair before, which was `main` when pair `c` was made. -/
def below : Nat → Target
  | 0 => .base
  | c + 1 => .split c false

theorem below_injective {c c' : Nat} (h : below c = below c') : c = c' := by
  cases c <;> cases c' <;> simp_all [below]

namespace State

/-- How often the release of a result has been called. -/
def count (st : State) : Target → Nat
  | .base => st.baseReleases
  | .split c second => ((st.dups[c]?).map (·.released second)).getD 0

/-- `t` is no pair's result: it is `main`, or a handle `Clone` returned. -/
def Unwrapped (st : State) (t : Target) : Prop := ∀ c < st.dups.length, below c ≠ t

/-- The shape that clones give a shared result: each pair wraps the result below it, `main` is
the result below the last pair, and `sem` counts the sides released. -/
structure Shape (st : State) : Prop where
  main_eq : st.main = below st.dups.length
  result_eq : ∀ (c : Nat) (d : Dup), st.dups[c]? = some d → d.result = below c
  sem_eq : ∀ (c : Nat) (d : Dup), st.dups[c]? = some d → d.sem = d.sides

/-- The release of each wrapped result has been called once its pair's `sem` has reached two,
and not before; except the release of `hole`, still to come though its pair's `sem` has. -/
def Linked (st : State) (hole : Option Target) : Prop :=
  ∀ (c : Nat) (d : Dup), st.dups[c]? = some d →
    (hole = some (below c) → d.sem = 2 ∧ st.count (below c) = 0) ∧
    (hole ≠ some (below c) → st.count (below c) = if d.sem = 2 then 1 else 0)

/-- The pair `c` replaced by `d`. -/
def setDup (st : State) (c : Nat) (d : Dup) : State := { st with dups := st.dups.set c d }

theorem count_setDup {st : State} {c : Nat} {d d' : Dup} (hc : st.dups[c]? = some d) (t : Target) :
    (st.setDup c d').count t =
      match t with
      | .split c' s => if c' = c then d'.released s else st.count t
      | .base => st.count t := by
  have hlt : c < st.dups.length := (List.getElem?_eq_some_iff.mp hc).1
  cases t with
  | base => rfl
  | split c' s =>
    by_cases h : c' = c
    · subst h
      simp [count, setDup, hlt]
    · simp [count, setDup, h, Ne.symm h]

/-- A pair after `setDup c d'`: `d'` at `c`, the others as they were. -/
theorem getElem?_setDup {st : State} {c : Nat} {d d' : Dup} (hc : st.dups[c]? = some d)
    {c' : Nat} {e : Dup} (he : (st.setDup c d').dups[c']? = some e) :
    (c' = c ∧ e = d') ∨ (c' ≠ c ∧ st.dups[c']? = some e) := by
  have hlt : c < st.dups.length := (List.getElem?_eq_some_iff.mp hc).1
  by_cases h : c' = c
  · subst h
    simp only [setDup, List.getElem?_set_self hlt, Option.some.injEq] at he
    exact .inl ⟨rfl, he.symm⟩
  · rw [setDup, List.getElem?_set_ne (Ne.symm h)] at he
    exact .inr ⟨h, he⟩

/-- A write to one side of pair `c` changes no other count. -/
theorem count_setDup_ne {st : State} {c : Nat} {s : Bool} {d d' : Dup}
    (hc : st.dups[c]? = some d) (hd : d'.released (!s) = d.released (!s)) {u : Target}
    (hu : u ≠ .split c s) : (st.setDup c d').count u = st.count u := by
  rw [count_setDup hc]
  cases u with
  | base => rfl
  | split c' s' =>
    dsimp only
    split
    · next h =>
      subst h
      have hs : s' = !s := by cases s <;> cases s' <;> simp_all
      subst hs
      simp [count, hc, hd]
    · rfl

theorem count_setDup_self {st : State} {c : Nat} {d d' : Dup} (hc : st.dups[c]? = some d)
    (s : Bool) : (st.setDup c d').count (.split c s) = d'.released s := by
  simp [count_setDup hc]

theorem Shape.setDup {st : State} (hs : st.Shape) {c : Nat} {d d' : Dup}
    (hc : st.dups[c]? = some d) (hr : d'.result = d.result) (hsem : d'.sem = d'.sides) :
    (st.setDup c d').Shape where
  main_eq := by simpa [State.setDup] using hs.main_eq
  result_eq c' e he := by
    rcases getElem?_setDup hc he with ⟨rfl, rfl⟩ | ⟨-, he⟩
    · rw [hr]; exact hs.result_eq _ _ hc
    · exact hs.result_eq _ _ he
  sem_eq c' e he := by
    rcases getElem?_setDup hc he with ⟨rfl, rfl⟩ | ⟨-, he⟩
    · exact hsem
    · exact hs.sem_eq _ _ he

/-- The result a pair wraps is not one of its sides. -/
theorem below_ne_split (c : Nat) (s : Bool) : below c ≠ .split c s := by
  cases c <;> simp [below]

section

variable {st : State} {c : Nat} {s : Bool} {d : Dup}

/-- What a handle's release may assume of the counters: no pair wraps it. -/
theorem Linked.some_of_unwrapped (hl : st.Linked none) {t : Target} (ht : st.Unwrapped t) :
    st.Linked (some t) := by
  intro c' e he
  have hne : below c' ≠ t := ht c' (List.getElem?_eq_some_iff.mp he).1 
  refine ⟨fun h => absurd (Option.some.inj h).symm hne, fun _ => (hl c' e he).2 nofun⟩

/-- A second release of a side of pair `c` only counts it: the side is a handle, since a
wrapped result is released at most once, and the other counters stay. -/
theorem Linked.setDup_released (hl : st.Linked (some (.split c s)))
    (hc : st.dups[c]? = some d) (hr : 1 ≤ d.released s) :
    (st.setDup c (d.setReleased s (d.released s + 1))).Linked none := by
  intro c' e he
  refine ⟨nofun, fun _ => ?_⟩
  have hd : (d.setReleased s (d.released s + 1)).released (!s) = d.released (!s) :=
    released_setReleased_ne d (by cases s <;> simp) _
  rcases getElem?_setDup hc he with ⟨rfl, rfl⟩ | ⟨hne, he⟩
  · -- the pair of the side: what it wraps is not the side, and its `sem` is as it was
    rw [count_setDup_ne hc hd (below_ne_split c' s), sem_setReleased]
    exact (hl c' d hc).2 fun h => below_ne_split c' s (Option.some.inj h).symm
  · by_cases hb : below c' = .split c s
    · -- a wrapped side would be the hole, released never
      have := ((hl c' e he).1 (by rw [hb])).2
      rw [hb] at this
      simp [count, hc] at this
      omega
    · rw [count_setDup_ne hc hd hb]
      exact (hl c' e he).2 fun h => hb (Option.some.inj h).symm

/-- A first release of a side of pair `c` counts it and adds one to `sem`. If that makes two,
the result the pair wraps is the hole, whose release comes next. -/
theorem Linked.setDup_first (hs : st.Shape) (hl : st.Linked (some (.split c s)))
    (hc : st.dups[c]? = some d) (hr : d.released s = 0) :
    (st.setDup c { d.setReleased s 1 with sem := d.sem + 1 }).Linked
      (if d.sem + 1 = 2 then some (below c) else none) := by
  intro c' e he
  have hd : ({ d.setReleased s 1 with sem := d.sem + 1 } : Dup).released (!s) = d.released (!s) := by
    rw [released_withSem]
    exact released_setReleased_ne d (by cases s <;> simp) _
  rcases getElem?_setDup hc he with ⟨rfl, rfl⟩ | ⟨hne, he⟩
  · -- the pair of the side: the result it wraps was not released, as one side was not
    have h0 : st.count (below c') = 0 := by
      have hsem := hs.sem_eq c' d hc
      rw [sides_eq d s, hr] at hsem
      rw [(hl c' d hc).2 fun h => below_ne_split c' s (Option.some.inj h).symm]
      have : d.sem ≠ 2 := by omega
      simp [this]
    rw [count_setDup_ne hc hd (below_ne_split c' s), h0]
    refine ⟨fun h => ?_, fun h => ?_⟩
    · split at h
      · exact ⟨‹_›, rfl⟩
      · cases h
    · split at h
      · exact absurd rfl h
      · simp [*]
  · have hne' : some (below c) ≠ some (below c') := fun h => hne (below_injective (Option.some.inj h)).symm
    have hhole : (if d.sem + 1 = 2 then some (below c) else none) ≠ some (below c') := by
      split
      · exact hne'
      · nofun
    refine ⟨fun h => absurd h hhole, fun _ => ?_⟩
    by_cases hb : below c' = .split c s
    · -- the side was the hole: released now, its pair's `sem` at two
      have h2 := ((hl c' e he).1 (by rw [hb])).1
      rw [hb, count_setDup_self hc, released_withSem, released_setReleased_self, h2, if_pos rfl]
    · rw [count_setDup_ne hc hd hb]
      exact (hl c' e he).2 fun h => hb (Option.some.inj h).symm

theorem count_setDup_succ (hc : st.dups[c]? = some d) {d' : Dup}
    (hs : d'.released s = d.released s + 1) (hd : d'.released (!s) = d.released (!s))
    (u : Target) : (st.setDup c d').count u = st.count u + if u = .split c s then 1 else 0 := by
  by_cases hu : u = .split c s
  · subst hu
    rw [count_setDup_self hc, hs, if_pos rfl]
    simp [count, hc]
  · rw [count_setDup_ne hc hd hu, if_neg hu, Nat.add_zero]

theorem count_incBase (u : Target) :
    ({ st with baseReleases := st.baseReleases + 1 } : State).count u =
      st.count u + if u = .base then 1 else 0 := by
  cases u <;> simp [count]

/-- The release of the base result, when its pair's `sem` has reached two. -/
theorem Linked.incBase (hl : st.Linked (some .base)) :
    ({ st with baseReleases := st.baseReleases + 1 } : State).Linked none := by
  intro c' e he
  refine ⟨nofun, fun _ => ?_⟩
  rw [count_incBase]
  by_cases hb : below c' = .base
  · obtain ⟨h2, h0⟩ := (hl c' e he).1 (by rw [hb])
    rw [hb] at h0 ⊢
    simp [h0, h2]
  · rw [if_neg hb, Nat.add_zero]
    exact (hl c' e he).2 fun h => hb (Option.some.inj h).symm

theorem releaseTarget_base (fuel : Nat) (st : State) :
    st.releaseTarget fuel .base = some (.ok (), { st with baseReleases := st.baseReleases + 1 }) := by
  cases fuel <;> rfl

theorem releaseTarget_split {fuel : Nat} (hc : st.dups[c]? = some d) :
    st.releaseTarget (fuel + 1) (.split c s) =
      if d.released s + 1 > 1 then
        some (.error "releasing already released reference",
          st.setDup c (d.setReleased s (d.released s + 1)))
      else if d.sem + 1 = 2 then
        (st.setDup c { d.setReleased s (d.released s + 1) with sem := d.sem + 1 }).releaseTarget
          fuel d.result
      else some (.ok (), st.setDup c { d.setReleased s (d.released s + 1) with sem := d.sem + 1 }) := by
  rw [releaseTarget, hc]
  simp only [Option.bind_eq_bind, Option.bind_some, sem_setReleased, result_setReleased]
  rfl

@[simp] theorem length_setDup (st : State) (c : Nat) (d : Dup) :
    (st.setDup c d).dups.length = st.dups.length := by
  simp [State.setDup]

/-- By induction on the fuel: the release of a handle, or of a result whose pair's `sem` has
reached two, ends with the counters linked again, and counts one more release of that result
and of no other handle. -/
theorem releaseTarget_spec (fuel : Nat) : ∀ (st : State) (t : Target), st.Shape →
    st.Linked (some t) → (∀ c s, t = .split c s → c < fuel ∧ c < st.dups.length) →
    ∃ r st', st.releaseTarget fuel t = some (r, st') ∧ st'.Shape ∧ st'.Linked none ∧
      st'.dups.length = st.dups.length ∧
      ∀ u, st.Unwrapped u → st'.count u = st.count u + if u = t then 1 else 0 := by
  induction fuel with
  | zero =>
    intro st t hs hl ht
    cases t with
    | base => exact ⟨_, _, releaseTarget_base 0 st, ⟨hs.main_eq, hs.result_eq, hs.sem_eq⟩, hl.incBase, rfl,
        fun u _ => count_incBase u⟩
    | split c s => exact absurd (ht c s rfl).1 (Nat.not_lt_zero c)
  | succ fuel ih =>
    intro st t hs hl ht
    cases t with
    | base => exact ⟨_, _, releaseTarget_base _ st, ⟨hs.main_eq, hs.result_eq, hs.sem_eq⟩, hl.incBase, rfl,
        fun u _ => count_incBase u⟩
    | split c s =>
      obtain ⟨hcf, hcl⟩ := ht c s rfl
      obtain ⟨d, hc⟩ : ∃ d, st.dups[c]? = some d := ⟨_, List.getElem?_eq_getElem hcl⟩
      have hother : ∀ n, (d.setReleased s n).released (!s) = d.released (!s) :=
        released_setReleased_ne d (by cases s <;> simp)
      rw [releaseTarget_split hc]
      rcases Nat.eq_zero_or_pos (d.released s) with hr | hr
      · -- a first release: `sem` goes up, and at two the release goes on with what the pair wraps
        rw [hr, if_neg (by omega)]
        have hl₁ := hl.setDup_first hs hc hr
        have hs₁ : (st.setDup c { d.setReleased s 1 with sem := d.sem + 1 }).Shape := by
          refine hs.setDup hc (by simp) ?_
          have hsem := hs.sem_eq c d hc
          rw [sides_eq d s, hr] at hsem
          rw [sides_eq _ s]
          simp only [released_withSem, released_setReleased_self, hother]
          show d.sem + 1 = _
          omega
        have hcount : ∀ u, (st.setDup c { d.setReleased s 1 with sem := d.sem + 1 }).count u =
            st.count u + if u = .split c s then 1 else 0 :=
          count_setDup_succ hc (by simp only [released_withSem, released_setReleased_self, hr])
            (by simp only [released_withSem, hother])
        split
        · next h2 =>
          rw [if_pos h2] at hl₁
          rw [hs.result_eq c d hc]
          obtain ⟨r, st', h', hs', hl', hlen', hcount'⟩ := ih _ (below c) hs₁ hl₁ (by
            intro c' s' hb
            cases c with
            | zero => cases hb
            | succ c =>
              simp only [below, Target.split.injEq] at hb
              obtain ⟨rfl, -⟩ := hb
              exact ⟨by omega, by simp; omega⟩)
          refine ⟨r, st', h', hs', hl', by simp [hlen'], fun u hu => ?_⟩
          -- what the pair wraps is no handle
          have hne : u ≠ below c := fun h => hu c hcl h.symm
          rw [hcount' u (fun c' hc' => hu c' (by simpa using hc')), if_neg hne, Nat.add_zero,
            hcount u]
        · next h2 =>
          rw [if_neg h2] at hl₁
          exact ⟨_, _, rfl, hs₁, hl₁, by simp, fun u _ => hcount u⟩
      · -- a repeated release only counts it
        rw [if_pos (by omega)]
        refine ⟨_, _, rfl, hs.setDup hc (by simp) ?_, hl.setDup_released hc hr, by simp,
          fun u _ => count_setDup_succ hc (by simp) (hother _) u⟩
        have hsem := hs.sem_eq c d hc
        rw [sides_eq d s] at hsem
        rw [sem_setReleased, hsem, sides_eq _ s, released_setReleased_self, hother]
        omega

/-! ## Whether the base result has been released -/

/-- By induction down the chain: the result below pair `k` has been released exactly when
`main` and every handle from the `k`-th on have been. -/
theorem one_le_count_below (hs : st.Shape) (hl : st.Linked none) (m : Nat) :
    ∀ k, k + m = st.dups.length → (1 ≤ st.count (below k) ↔ 1 ≤ st.count (below st.dups.length) ∧
      ∀ c, k ≤ c → c < st.dups.length → 1 ≤ st.count (.split c true)) := by
  induction m with
  | zero =>
    intro k hk
    subst hk
    exact ⟨fun h => ⟨h, fun c h₁ h₂ => absurd h₂ (by omega)⟩, fun h => h.1⟩
  | succ m ih =>
    intro k hk
    obtain ⟨d, hc⟩ : ∃ d, st.dups[k]? = some d := ⟨_, List.getElem?_eq_getElem (by omega)⟩
    -- the pair `k` wraps the result below it, released once both its sides are
    have hbelow := (hl k d hc).2 nofun
    have hsem := hs.sem_eq k d hc
    have hfirst : st.count (.split k false) = d.releasedFirst := by simp [count, hc, Dup.released]
    have hsecond : st.count (.split k true) = d.releasedSecond := by simp [count, hc, Dup.released]
    have hk : 1 ≤ st.count (below k) ↔ 1 ≤ st.count (below (k + 1)) ∧ 1 ≤ st.count (.split k true) := by
      rw [hbelow, show below (k + 1) = .split k false from rfl, hfirst, hsecond, hsem, Dup.sides]
      split <;> omega
    rw [hk, ih (k + 1) (by omega)]
    constructor
    · rintro ⟨⟨hmain, hc'⟩, hk'⟩
      refine ⟨hmain, fun c h₁ h₂ => ?_⟩
      rcases Nat.eq_or_lt_of_le h₁ with rfl | h₁
      · exact hk'
      · exact hc' c h₁ h₂
    · rintro ⟨hmain, hc'⟩
      exact ⟨⟨hmain, fun c h₁ h₂ => hc' c (by omega) h₂⟩, hc' k (Nat.le_refl k) (by omega)⟩

/-- The base result has been released exactly when `main` and every handle have been. -/
theorem one_le_baseReleases_iff (hs : st.Shape) (hl : st.Linked none) :
    1 ≤ st.baseReleases ↔ 1 ≤ st.count st.main ∧
      ∀ c < st.dups.length, 1 ≤ st.count (.split c true) := by
  rw [hs.main_eq]
  have h := one_le_count_below hs hl st.dups.length 0 (Nat.zero_add _)
  simp only [Nat.zero_le, true_implies] at h
  exact h

/-- Once a clone has been made, the base result has been released at most once. -/
theorem baseReleases_le_one (hl : st.Linked none) (h : st.dups ≠ []) : st.baseReleases ≤ 1 := by
  obtain ⟨d, hd⟩ : ∃ d, st.dups[0]? = some d := by
    cases hds : st.dups with
    | nil => exact absurd hds h
    | cons d ds => exact ⟨d, rfl⟩
  have := (hl 0 d hd).2 nofun
  simp only [below, count] at this
  split at this <;> omega

/-! ## Runs -/

/-- A run that releases each handle only after `Clone` returned it, and after the shared result's
`Release` makes neither a `Clone` nor another `Release` of the shared result. -/
def Disciplined (ops : List Op) : Prop :=
  ∀ pre op post, ops = pre ++ op :: post →
    (Op.release ∈ pre → op ≠ .clone ∧ op ≠ .release) ∧
      ∀ c, op = .releaseClone c → c < pre.count .clone

/-- What the calls `done` leave: the shape and the linked counters, a pair per clone, and as many
releases of `main` and of each handle as the calls made, the shared result's at most one. -/
structure Ran (done : List Op) (st : State) : Prop where
  shape : st.Shape
  linked : st.Linked none
  length_eq : st.dups.length = done.count .clone
  count_main : st.count st.main = done.count .release
  release_le : done.count .release ≤ 1
  count_handle : ∀ c < st.dups.length, st.count (.split c true) = done.count (.releaseClone c)
  unmade : ∀ c, st.dups.length ≤ c → done.count (.releaseClone c) = 0

theorem ran_nil : Ran [] newSharedResult where
  shape := ⟨rfl, fun _ _ h => by simp [newSharedResult] at h, fun _ _ h => by simp [newSharedResult] at h⟩
  linked _ _ h := by simp [newSharedResult] at h
  length_eq := rfl
  count_main := rfl
  release_le := Nat.zero_le _
  count_handle _ h := absurd h (Nat.not_lt_zero _)
  unmade _ _ := rfl

theorem count_clone (st : State) {u : Target} (hu : ∀ c s, u = .split c s → c < st.dups.length) :
    st.clone.2.count u = st.count u := by
  cases u with
  | base => rfl
  | split c s => simp [count, clone, List.getElem?_append_left (hu c s rfl)]

/-- A `Clone` before the shared result's `Release` wraps `main`, which has not been released. -/
theorem Ran.clone {done : List Op} (hr : Ran done st) (hrel : Op.release ∉ done) :
    Ran (done ++ [.clone]) st.clone.2 := by
  have hmain : st.count st.main = 0 := by rw [hr.count_main, List.count_eq_zero_of_not_mem hrel]
  -- what lies below the new pair, and the old pairs, keep their counts
  have hold : ∀ c ≤ st.dups.length, st.clone.2.count (below c) = st.count (below c) := by
    intro c hc
    refine count_clone st fun c' s h => ?_
    cases c with
    | zero => cases h
    | succ c =>
      simp only [below, Target.split.injEq] at h
      omega
  have hdup : ∀ c e, st.clone.2.dups[c]? = some e →
      (c < st.dups.length ∧ st.dups[c]? = some e) ∨ (c = st.dups.length ∧ e = ⟨st.main, 0, 0, 0⟩) := by
    intro c e he
    simp only [State.clone, List.getElem?_append, List.getElem?_singleton] at he
    split at he
    · exact .inl ⟨‹_›, he⟩
    · split at he
      · exact .inr ⟨by omega, (Option.some.inj he).symm⟩
      · cases he
  refine ⟨⟨by simp [State.clone, below], fun c e he => ?_, fun c e he => ?_⟩, fun c e he => ?_,
    by simp [State.clone, hr.length_eq], ?_, by simpa using hr.release_le, fun c hc => ?_,
    fun c hc => ?_⟩
  · rcases hdup c e he with ⟨hc, he⟩ | ⟨rfl, rfl⟩
    · exact hr.shape.result_eq c e he
    · exact hr.shape.main_eq
  · rcases hdup c e he with ⟨hc, he⟩ | ⟨rfl, rfl⟩
    · exact hr.shape.sem_eq c e he
    · rfl
  · refine ⟨nofun, fun _ => ?_⟩
    rcases hdup c e he with ⟨hc, he⟩ | ⟨rfl, rfl⟩
    · rw [hold c (Nat.le_of_lt hc)]
      exact (hr.linked c e he).2 nofun
    · rw [hold _ (Nat.le_refl _), ← hr.shape.main_eq, hmain]
      rfl
  · simp [State.clone, count, List.count_eq_zero_of_not_mem hrel]
    rfl
  · have hlen : st.clone.2.dups.length = st.dups.length + 1 := by simp [State.clone]
    rw [List.count_append, List.count_singleton, if_neg nofun, Nat.add_zero]
    rcases Nat.lt_or_ge c st.dups.length with hc' | hc'
    · rw [count_clone st fun c' s h => by cases h; exact hc', hr.count_handle c hc']
    · -- the handle the clone returns has not been released
      have hc'' : c = st.dups.length := by omega
      subst hc''
      rw [hr.unmade _ (Nat.le_refl _)]
      simp [State.clone, count, Dup.released]
  · simp only [State.clone, List.length_append, List.length_singleton] at hc
    rw [List.count_append, List.count_singleton, if_neg nofun, Nat.add_zero]
    exact hr.unmade c (by omega)

/-- A result below a pair is never a handle `Clone` returned. -/
theorem below_ne_handle (k c : Nat) : below k ≠ .split c true := by
  cases k <;> simp [below]

theorem unwrapped_handle (c : Nat) : st.Unwrapped (.split c true) :=
  fun c' _ h => below_ne_handle c' c h

theorem Shape.unwrapped_main (hs : st.Shape) : st.Unwrapped st.main := by
  intro c hc h
  rw [hs.main_eq] at h
  exact absurd (below_injective h) (by omega)

/-- The fuel of a release is enough for `main` and for every handle. -/
theorem Shape.fuel_main (hs : st.Shape) :
    ∀ c s, st.main = .split c s → c < st.releaseFuel ∧ c < st.dups.length := by
  intro c s h
  rw [hs.main_eq] at h
  cases hlen : st.dups.length with
  | zero => rw [hlen] at h; cases h
  | succ n =>
    rw [hlen] at h
    simp only [below, Target.split.injEq] at h
    rw [releaseFuel, hlen, ← h.1]
    omega

/-- The shared result's first `Release` counts one release of `main` and of no handle. -/
theorem Ran.release {done : List Op} (hr : Ran done st) (hrel : Op.release ∉ done) :
    ∃ r st', st.step .release = some (r, st') ∧ Ran (done ++ [.release]) st' := by
  obtain ⟨r, st', h, hs', hl', hlen', hcount'⟩ := releaseTarget_spec st.releaseFuel st st.main
    hr.shape (hr.linked.some_of_unwrapped hr.shape.unwrapped_main) hr.shape.fuel_main
  have hmain' : st'.main = st.main := by rw [hs'.main_eq, hlen', ← hr.shape.main_eq]
  have hne : ∀ c, st.main ≠ .split c true := fun c h => below_ne_handle _ c (hr.shape.main_eq ▸ h)
  refine ⟨r, st', h, hs', hl', by simp [hlen', hr.length_eq], ?_, ?_, fun c hc => ?_,
    fun c hc => ?_⟩
  · rw [hmain', hcount' _ hr.shape.unwrapped_main, if_pos rfl, hr.count_main, List.count_append]
    rfl
  · rw [List.count_append, List.count_eq_zero_of_not_mem hrel]
    simp
  · rw [hcount' _ (unwrapped_handle c), if_neg fun h => hne c h.symm,
      hr.count_handle c (hlen' ▸ hc), List.count_append]
    simp
  · rw [List.count_append, hr.unmade c (hlen' ▸ hc)]
    simp

/-- The release of a handle counts one release of it and of no other handle, nor of `main`. -/
theorem Ran.releaseClone {done : List Op} (hr : Ran done st) {c : Nat} (hc : c < st.dups.length) :
    ∃ r st', st.step (.releaseClone c) = some (r, st') ∧ Ran (done ++ [.releaseClone c]) st' := by
  obtain ⟨r, st', h, hs', hl', hlen', hcount'⟩ := releaseTarget_spec st.releaseFuel st
    (.split c true) hr.shape (hr.linked.some_of_unwrapped (unwrapped_handle c))
    (fun c' s h => by cases h; exact ⟨by simp [releaseFuel]; omega, hc⟩)
  have hmain' : st'.main = st.main := by rw [hs'.main_eq, hlen', ← hr.shape.main_eq]
  have hne : st.main ≠ .split c true := fun h => below_ne_handle _ c (hr.shape.main_eq ▸ h)
  refine ⟨r, st', h, hs', hl', by simp [hlen', hr.length_eq], ?_, by simpa using hr.release_le,
    fun c' hc' => ?_, fun c' hc' => ?_⟩
  · rw [hmain', hcount' _ hr.shape.unwrapped_main, if_neg hne, hr.count_main, List.count_append]
    simp
  · rw [hcount' _ (unwrapped_handle c'), hr.count_handle c' (hlen' ▸ hc'), List.count_append,
      List.count_singleton]
    by_cases h : c' = c
    · subst h
      simp
    · simp [h, Ne.symm h]
  · rw [List.count_append, hr.unmade c' (hlen' ▸ hc'), List.count_singleton]
    have : c ≠ c' := by omega
    simp [this]

/-- Every run that releases the shared result at most once, and only after its last clone, and
each handle only after it was returned, ends; it releases the base result at most once, and it
has released it exactly when the shared result and each handle have been released. -/
theorem run_releases_base_once {ops : List Op} (hops : Disciplined ops) :
    ∃ st, newSharedResult.run ops = some st ∧ st.baseReleases ≤ 1 ∧
      (1 ≤ st.baseReleases ↔ Op.release ∈ ops ∧ ∀ c < ops.count .clone, Op.releaseClone c ∈ ops) := by
  -- each call keeps `Ran`, as the run's discipline allows it
  have hstep : ∀ done op rest st, done ++ op :: rest = ops → Ran done st →
      ∃ st', (st.step op).map (·.2) = some st' ∧ Ran (done ++ [op]) st' := by
    intro done op rest st hl hran
    obtain ⟨hrel, hclone⟩ := hops done op rest hl.symm
    cases op with
    | clone =>
      have hnot : Op.release ∉ done := fun h => (hrel h).1 rfl
      exact ⟨_, rfl, hran.clone hnot⟩
    | release =>
      have hnot : Op.release ∉ done := fun h => (hrel h).2 rfl
      obtain ⟨r, st', h, hran'⟩ := hran.release hnot
      exact ⟨st', by simp [h], hran'⟩
    | releaseClone c =>
      obtain ⟨r, st', h, hran'⟩ := hran.releaseClone (hran.length_eq ▸ hclone c rfl)
      exact ⟨st', by simp [h], hran'⟩
  obtain ⟨st, h, hr⟩ := Loop.foldlM_rule (fun done st => Ran done st) ops hstep ran_nil
  refine ⟨st, h, ?_, ?_⟩
  · by_cases hd : st.dups = []
    · -- without a clone, `main` is the base result
      have hbase : st.main = .base := by rw [hr.shape.main_eq, hd]; rfl
      have := hr.count_main
      rw [hbase] at this
      exact (show st.baseReleases = _ from this) ▸ hr.release_le
    · exact baseReleases_le_one hr.linked hd
  · rw [one_le_baseReleases_iff hr.shape hr.linked, hr.count_main, ← hr.length_eq,
      Nat.one_le_iff_ne_zero, ← Nat.pos_iff_ne_zero, List.count_pos_iff]
    refine and_congr_right fun _ => forall₂_congr fun c hc => ?_
    rw [hr.count_handle c hc, Nat.one_le_iff_ne_zero, ← Nat.pos_iff_ne_zero, List.count_pos_iff]

/-- A clone, the release of its handle, then the release of the shared result: the run keeps the
discipline, and releases the base result once. -/
theorem run_releases_base_once_cloned :
    Disciplined [.clone, .releaseClone 0, .release] ∧
      ∃ st, newSharedResult.run [.clone, .releaseClone 0, .release] = some st ∧
        st.baseReleases ≤ 1 ∧
        (1 ≤ st.baseReleases ↔ Op.release ∈ [Op.clone, .releaseClone 0, .release] ∧
          ∀ c < [Op.clone, .releaseClone 0, .release].count .clone,
            Op.releaseClone c ∈ [Op.clone, .releaseClone 0, .release]) := by
  -- the calls before each one, for each way the run splits around it
  have hd : Disciplined [.clone, .releaseClone 0, .release] := by
    intro pre op post h
    rcases pre with _ | ⟨x, _ | ⟨y, _ | ⟨z, pre⟩⟩⟩ <;>
      simp only [List.cons_append, List.nil_append, List.cons.injEq] at h
    · obtain ⟨rfl, -⟩ := h
      simp
    · obtain ⟨rfl, rfl, -⟩ := h
      simp
    · obtain ⟨rfl, rfl, rfl, -⟩ := h
      simp
    · simp at h
  exact ⟨hd, run_releases_base_once hd⟩

/-- Without a clone `main` is the base result itself, which no counter guards: a second `Release`
of the shared result releases the base result again, with no error. A `Clone` after the
`Release` wraps the released result: the base result has been released once before the handle
the clone returned is released, and that release returns no error either. -/
theorem sharedResult_release_twice :
    ((newSharedResult.step .release).bind fun r => r.2.step .release).map
        (fun r => (r.1, r.2.baseReleases)) = some (.ok (), 2) ∧
      (newSharedResult.run [.release, .clone]).map (·.baseReleases) = some 1 ∧
      ((newSharedResult.run [.release, .clone]).bind (·.step (.releaseClone 0))).map
        (fun r => (r.1, r.2.baseReleases)) = some (.ok (), 1) := by
  decide

end

end State

end SharedResult

end Buildkit
