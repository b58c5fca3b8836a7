import Mathlib.Data.List.Nodup
import Mathlib.Logic.Function.Basic
import Buildkit.Lib.Outcome

/-!
# The work queue of the scheduler

`scheduler` of `solver/scheduler.go` keeps the edges to dispatch in a singly linked list of
`dispatcher`s, from `next` to `last`, and their set in `waitq`. `signal` appends an edge that is
not in the set, and an iteration of `loop` takes the first dispatcher off and dispatches its
edge. Both do their work on the queue holding `muQ`, so an interleaving of the two is a sequence
of these steps (`run`).

What the queue is for is a FIFO of the edges signalled and not yet taken, each once: a signal
appends an edge that is not in it, and the loop takes the first (`Fifo`). The queue holds a FIFO
(`Holds`) when the dispatchers from `next` are linked one to the next up to `last`, the last to
nothing, and carry its edges; and `waitq` is their set. Each step keeps that and does to the FIFO
what it is for (`signal_holds`, `pop_holds`), so every run from a new scheduler takes the edges
the FIFO takes, in that order, and leaves a queue that holds what is left of it
(`run_refines_fifo`).

Representation. A `dispatcher` is a node on a heap and a pointer is its index; the heap only
grows, since the collector frees a dispatcher only when nothing points to it. `waitq` is a
function to `Bool`. The dispatch of an edge and the condition variable are left out: `dispatch`
runs without `muQ` and reaches the queue only through `signal`.
-/

namespace Buildkit

namespace Scheduler

/-- `dispatcher`. -/
structure Dispatcher (E : Type) where
  next : Option Nat
  e : E
  deriving DecidableEq, Repr

/-- The fields of `scheduler` that hold the queue. -/
structure Queue (E : Type) where
  heap : List (Dispatcher E)
  waitq : E → Bool
  next : Option Nat
  last : Option Nat

variable {E : Type}

/-- The queue of `newScheduler`. -/
def Queue.empty : Queue E := ⟨[], fun _ => false, none, none⟩

section Steps

variable [DecidableEq E]

/-- `signal`: an edge not in `waitq` gets a new dispatcher, linked after `last`. -/
def signal (s : Queue E) (e : E) : Queue E :=
  if s.waitq e then s
  else
    let d := s.heap.length
    let heap := s.heap ++ [⟨none, e⟩]
    match s.last with
    | none => { heap, waitq := Function.update s.waitq e true, next := some d, last := some d }
    | some l =>
      { heap := heap.modify l fun n => { n with next := some d },
        waitq := Function.update s.waitq e true, next := s.next, last := some d }

/-- The part of an iteration of `loop` under `muQ`: the first dispatcher is taken off the list
and its edge returned to be dispatched, none where the list is empty and the loop waits. -/
def pop (s : Queue E) : Outcome (Option E × Queue E) :=
  match s.next with
  | none => pure (none, s)
  | some l => do
    let d ← Outcome.index s.heap l
    pure (some d.e, { s with
      last := if s.last = some l then none else s.last
      next := d.next
      waitq := Function.update s.waitq d.e false })

/-- A step of the scheduler on its queue: a `signal`, or an iteration of the loop. -/
inductive Op (E : Type)
  | signal (e : E)
  | pop

/-- A run of steps: the edges the loop takes, in order, and the queue after them. -/
def run : List (Op E) → Queue E → Outcome (List E × Queue E)
  | [], s => pure ([], s)
  | .signal e :: ops, s => run ops (signal s e)
  | .pop :: ops, s => do
    let (r, s) ← pop s
    let (out, s) ← run ops s
    pure (r.toList ++ out, s)

/-! ## What the queue is for -/

namespace Fifo

/-- A signal appends an edge that is not waiting. -/
def signal (q : List E) (e : E) : List E := if e ∈ q then q else q ++ [e]

/-- The loop takes the first edge. -/
def pop : List E → Option E × List E
  | [] => (none, [])
  | e :: q => (some e, q)

/-- A run of steps on the FIFO: the edges taken, and what is left. -/
def run : List (Op E) → List E → List E × List E
  | [], q => ([], q)
  | .signal e :: ops, q => run ops (signal q e)
  | .pop :: ops, q =>
    let (r, q) := pop q
    let (out, q) := run ops q
    (r.toList ++ out, q)

theorem nodup_signal {q : List E} (h : q.Nodup) (e : E) : (signal q e).Nodup := by
  unfold signal
  split
  · exact h
  · next he =>
    exact List.nodup_append.mpr ⟨h, List.nodup_singleton e, fun a ha b hb hab =>
      he (List.mem_singleton.mp hb ▸ hab ▸ ha)⟩

theorem mem_signal {q : List E} {e x : E} : x ∈ signal q e ↔ x ∈ q ∨ x = e := by
  unfold signal
  split
  · next he => exact ⟨.inl, fun h => h.elim id fun hx => hx ▸ he⟩
  · simp

end Fifo

end Steps

/-! ## The linked list -/

/-- The dispatchers at `ps` are each linked to the next, and the last one to `t`. -/
def Seg (heap : List (Dispatcher E)) : List Nat → Option Nat → Prop
  | [], _ => True
  | p :: ps, t => ∃ d, heap[p]? = some d ∧ d.next = ps.head?.or t ∧ Seg heap ps t

/-- The edge of the dispatcher at `p`. -/
def edgeOf (heap : List (Dispatcher E)) (p : Nat) : Option E := (heap[p]?).map (·.e)

/-- The dispatchers from `next` to `last` are those at `ps`, linked in order, the last to
nothing, and their edges are `q`. -/
structure Spells (s : Queue E) (ps : List Nat) (q : List E) : Prop where
  next : s.next = ps.head?
  last : s.last = ps.getLast?
  seg : Seg s.heap ps none
  nodup : ps.Nodup
  edges : ps.filterMap (edgeOf s.heap) = q

/-- The queue holds the FIFO `q`: its list spells `q`, which has no edge twice, and `waitq` is the
set of its edges. -/
structure Holds (s : Queue E) (q : List E) : Prop where
  spells : ∃ ps, Spells s ps q
  nodup : q.Nodup
  waitq : ∀ e, s.waitq e = true ↔ e ∈ q

section Seg

variable {heap : List (Dispatcher E)}

theorem Seg.lt_length {ps : List Nat} {t : Option Nat} (h : Seg heap ps t) :
    ∀ p ∈ ps, p < heap.length := by
  induction ps with
  | nil => simp
  | cons p ps ih =>
    obtain ⟨d, hd, -, hs⟩ := h
    intro x hx
    rcases List.mem_cons.mp hx with rfl | hx
    · exact (List.getElem?_eq_some_iff.mp hd).1
    · exact ih hs x hx

/-- A segment stays where the heap grows. -/
theorem Seg.append_heap {ps : List Nat} {t : Option Nat} (h : Seg heap ps t)
    (extra : List (Dispatcher E)) : Seg (heap ++ extra) ps t := by
  induction ps with
  | nil => trivial
  | cons p ps ih =>
    obtain ⟨d, hd, hnext, hs⟩ := h
    exact ⟨d, by rw [List.getElem?_append_left (List.getElem?_eq_some_iff.mp hd).1, hd], hnext,
      ih hs⟩

/-- Linking the last dispatcher of a segment to `t'` makes it a segment to `t'`. -/
theorem Seg.setLast {ps : List Nat} {t : Option Nat} (h : Seg heap ps t) (hnd : ps.Nodup)
    {l : Nat} (hl : ps.getLast? = some l) (t' : Option Nat) :
    Seg (heap.modify l fun n => { n with next := t' }) ps t' := by
  induction ps with
  | nil => cases hl
  | cons p ps ih =>
    obtain ⟨d, hd, hnext, hs⟩ := h
    cases ps with
    | nil =>
      -- the one dispatcher is the last
      simp only [List.getLast?_singleton, Option.some.injEq] at hl
      subst hl
      exact ⟨{ d with next := t' }, by simp [hd], by simp, trivial⟩
    | cons p' ps =>
      -- the first dispatcher is not the last, and keeps its link
      have hpl : l ≠ p := by
        rintro rfl
        exact (List.nodup_cons.mp hnd).1 (List.mem_of_getLast? (by simpa using hl))
      refine ⟨d, by simp [hd, hpl], by simpa using hnext, ?_⟩
      exact ih hs (List.nodup_cons.mp hnd).2 (by simpa using hl)

/-- A segment to `d` followed by a segment from `d` is one segment. -/
theorem Seg.append {ps rest : List Nat} {d : Nat} {t : Option Nat} (h₁ : Seg heap ps (some d))
    (h₂ : Seg heap (d :: rest) t) : Seg heap (ps ++ d :: rest) t := by
  induction ps with
  | nil => exact h₂
  | cons p ps ih =>
    obtain ⟨n, hn, hnext, hs⟩ := h₁
    refine ⟨n, hn, ?_, ih hs⟩
    rw [hnext]
    cases ps <;> rfl

theorem edgeOf_modify_next (l : Nat) (t : Option Nat) (p : Nat) :
    edgeOf (heap.modify l fun n => { n with next := t }) p = edgeOf heap p := by
  unfold edgeOf
  rw [List.getElem?_modify]
  cases heap[p]? <;> by_cases h : l = p <;> simp [h]

theorem filterMap_edgeOf_append {ps : List Nat} (hps : ∀ p ∈ ps, p < heap.length)
    (extra : List (Dispatcher E)) :
    ps.filterMap (edgeOf (heap ++ extra)) = ps.filterMap (edgeOf heap) := by
  refine List.filterMap_congr fun p hp => ?_
  simp [edgeOf, List.getElem?_append_left (hps p hp)]

end Seg

theorem holds_empty : Holds (Queue.empty : Queue E) [] :=
  ⟨⟨[], rfl, rfl, trivial, List.nodup_nil, rfl⟩, List.nodup_nil, fun _ => by simp [Queue.empty]⟩

/-- `last` is nothing exactly when `next` is, and otherwise the dispatcher it points to links to
nothing. -/
theorem Holds.last_final {s : Queue E} {q : List E} (h : Holds s q) :
    (s.last = none ↔ s.next = none) ∧
      ∀ l, s.last = some l → ∃ d, s.heap[l]? = some d ∧ d.next = none := by
  obtain ⟨ps, hs⟩ := h.spells
  refine ⟨by rw [hs.last, hs.next, List.getLast?_eq_none_iff, List.head?_eq_none_iff], ?_⟩
  intro l hl
  rw [hs.last] at hl
  -- the last dispatcher of a segment to nothing links to nothing
  have key : ∀ (ps : List Nat), Seg s.heap ps none → ps.getLast? = some l →
      ∃ d, s.heap[l]? = some d ∧ d.next = none := by
    intro ps
    induction ps with
    | nil => intro _ h; cases h
    | cons p ps ih =>
      intro hseg hlast
      obtain ⟨d, hd, hnext, hseg'⟩ := hseg
      cases ps with
      | nil =>
        simp only [List.getLast?_singleton, Option.some.injEq] at hlast
        exact ⟨d, hlast ▸ hd, by simpa using hnext⟩
      | cons p' ps => exact ih hseg' (by simpa using hlast)
  exact key ps hs.seg hl

variable [DecidableEq E]

/-! ## Each step keeps the FIFO -/

/-- The new dispatcher of `signal`, at the end of the heap, extends the list. -/
theorem Spells.push {s : Queue E} {ps : List Nat} {q : List E} (h : Spells s ps q) (e : E) :
    let d := s.heap.length
    let heap := s.heap ++ [⟨none, e⟩]
    Spells { heap := match s.last with
                     | none => heap
                     | some l => heap.modify l fun n => { n with next := some d },
             waitq := Function.update s.waitq e true,
             next := if s.last = none then some d else s.next, last := some d }
      (ps ++ [d]) (q ++ [e]) := by
  intro d heap
  have hlt := h.seg.lt_length
  have hd : d ∉ ps := fun hd => Nat.lt_irrefl d (hlt d hd)
  have hnd : (ps ++ [d]).Nodup := List.nodup_append.mpr ⟨h.nodup, List.nodup_singleton d,
    fun a ha b hb => by rw [List.mem_singleton.mp hb]; exact fun hab => hd (hab ▸ ha)⟩
  have hnode : heap[d]? = some ⟨none, e⟩ := by simp [heap, d]
  have hedges : (ps ++ [d]).filterMap (edgeOf heap) = q ++ [e] := by
    rw [List.filterMap_append, filterMap_edgeOf_append hlt, h.edges]
    simp [edgeOf, hnode]
  cases hl : s.last with
  | none =>
    -- an empty list: the new dispatcher is all of it
    have hps : ps = [] := List.getLast?_eq_none_iff.mp (h.last ▸ hl)
    subst hps
    exact ⟨rfl, rfl, ⟨⟨none, e⟩, hnode, rfl, trivial⟩, hnd, by simpa using hedges⟩
  | some l =>
    -- the last dispatcher is linked to the new one
    have hlast : ps.getLast? = some l := h.last ▸ hl
    have hne : ps ≠ [] := fun hps => by simp [hps] at hlast
    have hld : l ≠ d := fun hld => hd (hld ▸ List.mem_of_getLast? hlast)
    refine ⟨?_, by simp, ?_, hnd, ?_⟩
    · simp only [reduceCtorEq, if_false, h.next, List.head?_append]
      cases ps with
      | nil => exact absurd rfl hne
      | cons => rfl
    · refine Seg.append ((h.seg.append_heap _).setLast h.nodup hlast _)
        ⟨⟨none, e⟩, ?_, rfl, trivial⟩
      simp [hnode, hld]
    · simp only
      rw [← hedges]
      exact List.filterMap_congr fun p _ => edgeOf_modify_next l _ p

/-- `signal` appends an edge that is not waiting. -/
theorem signal_holds {s : Queue E} {q : List E} (h : Holds s q) (e : E) :
    Holds (signal s e) (Fifo.signal q e) := by
  by_cases hw : s.waitq e = true
  · have he : e ∈ q := (h.waitq e).mp hw
    simp only [signal, hw, if_true, Fifo.signal, he]
    exact h
  · have he : e ∉ q := fun he => hw ((h.waitq e).mpr he)
    obtain ⟨ps, hs⟩ := h.spells
    have hpush := hs.push e
    refine ⟨⟨ps ++ [s.heap.length], ?_⟩, Fifo.nodup_signal h.nodup e, fun x => ?_⟩
    · simp only [Fifo.signal, he, if_false]
      unfold signal
      rw [if_neg hw]
      cases hl : s.last <;> simpa [hl] using hpush
    · rw [Fifo.mem_signal, ← h.waitq x]
      unfold signal
      rw [if_neg hw]
      cases s.last <;> by_cases hx : x = e <;> simp [hx]

/-- An iteration of the loop takes the first edge of the FIFO. -/
theorem pop_holds {s : Queue E} {q : List E} (h : Holds s q) :
    ∃ s', pop s = .ok ((Fifo.pop q).1, s') ∧ Holds s' (Fifo.pop q).2 := by
  obtain ⟨ps, hs⟩ := h.spells
  cases ps with
  | nil =>
    -- an empty list: nothing is taken
    have hq : q = [] := by simpa using hs.edges.symm
    subst hq
    exact ⟨s, by simp [pop, hs.next, Fifo.pop], h⟩
  | cons l ps =>
    obtain ⟨d, hd, hnext, hseg⟩ := hs.seg
    have hq : q = d.e :: ps.filterMap (edgeOf s.heap) := by
      rw [← hs.edges, List.filterMap_cons]
      simp [edgeOf, hd]
    have hl : l ∉ ps := (List.nodup_cons.mp hs.nodup).1
    subst hq
    have hnd := h.nodup
    refine ⟨{ s with
        last := if s.last = some l then none else s.last
        next := d.next
        waitq := Function.update s.waitq d.e false },
      by simp [pop, hs.next, Outcome.index_eq_ok.mpr hd, Fifo.pop], ⟨⟨ps, ?_⟩, hnd.of_cons, ?_⟩⟩
    · refine ⟨by simpa using hnext, ?_, hseg, (List.nodup_cons.mp hs.nodup).2, rfl⟩
      -- `last` is cleared when the dispatcher taken was the last one
      by_cases hps : ps = []
      · subst hps
        simp [hs.last]
      · have hne : ps.getLast? ≠ some l := fun h' => hl (List.mem_of_getLast? h')
        have hlast : s.last = ps.getLast? := by
          rw [hs.last]
          cases ps with
          | nil => exact absurd rfl hps
          | cons => rfl
        simp [hlast, hne]
    · intro x
      simp only [Fifo.pop]
      by_cases hx : x = d.e
      · subst hx
        simpa [Function.update_apply] using (List.nodup_cons.mp hnd).1
      · simp [hx, h.waitq x]

/-! ## Every run -/

/-- Over a run, the queue takes the edges the FIFO takes and holds what is left of it. -/
theorem run_holds : ∀ (ops : List (Op E)) {s : Queue E} {q : List E}, Holds s q →
    ∃ s', run ops s = .ok ((Fifo.run ops q).1, s') ∧ Holds s' (Fifo.run ops q).2
  | [], s, _, h => ⟨s, rfl, h⟩
  | .signal e :: ops, _, _, h => run_holds ops (signal_holds h e)
  | .pop :: ops, s, q, h => by
    obtain ⟨s₁, hpop, h₁⟩ := pop_holds h
    obtain ⟨s₂, hrun, h₂⟩ := run_holds ops h₁
    refine ⟨s₂, ?_, h₂⟩
    simp only [run, hpop, Outcome.ok_bind, hrun, Fifo.run]
    rfl

/-- Every interleaving of signals and iterations of the loop, from a new scheduler, takes the
edges in the order of the FIFO of first signals, and leaves a list of dispatchers from `next`
that spells the FIFO, has no edge twice, has `waitq` as its set of edges, and ends at `last`,
which is nothing exactly when `next` is. -/
theorem run_refines_fifo (ops : List (Op E)) :
    ∃ s, run ops Queue.empty = .ok ((Fifo.run ops []).1, s) ∧ Holds s (Fifo.run ops []).2 ∧
      (s.last = none ↔ s.next = none) ∧
      ∀ l, s.last = some l → ∃ d, s.heap[l]? = some d ∧ d.next = none := by
  obtain ⟨s, hrun, hs⟩ := run_holds ops holds_empty
  exact ⟨s, hrun, hs, hs.last_final⟩

end Scheduler

end Buildkit
