import Mathlib
import Buildkit.Cache.Manager
import Buildkit.Lib.Loop

/-!
# The rescan loop of `DiskUsage`

After reading the records, `DiskUsage` of `cache/manager.go` counts down the handles that
children hold on their parents: a record scanned with no handle left gives up its handles on its
parent, one, or two for a mutable record whose twin it stands for (`doubleRef`), and the parent
is scanned again. A record is reported `InUse` if some handle is left on it.

The loop ends, whatever order Go's map iteration takes (`rescan_wellFounded`): a record gives up
its parent's handles only when it is scanned with a count of exactly zero, and it is scanned
again only after a child has lowered that count, so it does so at most once. Where every
parent is in the map, it never dereferences a missing entry and some run reaches the end
(`exists_rescans_done`). A record whose children are leaves ends with its count less what its
children held by nobody give up on it (`refsOf_rescans_done`).

The counts are right only if each child's handles on its parent are counted once. Between
`finalize` and the goroutine that removes the mutable twin it marked dead, the twin is still in
`cm.records`, and no longer shares data with the committed record: `DiskUsage` keeps both. The
dead mutable record gives up two handles of the parent, its own and the committed record's, and
the committed record gives up its own again. A parent that a caller still holds is then reported
not in use (`diskUsage_reports_held_record_unused`).
-/

namespace Buildkit

namespace Cache

/-- What the rescan loop of `DiskUsage` works on: the usage of each record by ID, the map `m`, and
the IDs still to scan, the set `rescan`. -/
structure Scan where
  m : List (Nat × Usage)
  rescan : List Nat
  deriving DecidableEq, Repr

/-- The handles a child holds on its parent: two for a mutable record that stands for its twin
too (`doubleRef`). -/
def Usage.weight (v : Usage) : Int := if v.doubleRef then 2 else 1

/-- `m[p].refs` lowered by `n`. -/
def decRefs (m : List (Nat × Usage)) (p : Nat) (n : Int) : List (Nat × Usage) :=
  m.map fun e => if e.1 = p then (e.1, { e.2 with refs := e.2.refs - n }) else e

/-- The body of the loop on an ID of `rescan`: a record no handle holds any more gives up the
handles it holds on its parent, which is scanned again; the ID leaves `rescan`. -/
def rescanStep (sc : Scan) (id : Nat) : Outcome Scan := do
  let v ← Outcome.deref (sc.m.lookup id)
  if v.refs = 0 then
    match v.parent with
    | some p => do
      -- `m[v.parent].refs--`, once more for a `doubleRef`
      let _ ← Outcome.deref (sc.m.lookup p)
      pure ⟨decRefs sc.m p v.weight, (sc.rescan.insert p).filter (· ≠ id)⟩
    | none => pure ⟨sc.m, sc.rescan.filter (· ≠ id)⟩
  else pure ⟨sc.m, sc.rescan.filter (· ≠ id)⟩

/-- The loop runs from one scan to another, each step on an ID still to scan. Go's iteration over
the map `rescan` may meet its IDs in any order, those added during the iteration included. -/
inductive Rescans : Scan → Scan → Prop
  | refl (sc : Scan) : Rescans sc sc
  | step {sc sc' sc'' : Scan} {id : Nat} : id ∈ sc.rescan → rescanStep sc id = .ok sc' →
      Rescans sc' sc'' → Rescans sc sc''

/-- The scan `DiskUsage` starts from: the usage of each record, every one to scan. -/
def start (s : State) : Scan := ⟨usage s, (usage s).map (·.1)⟩

/-- `InUse` as `DiskUsage` reports it from the scan it ends with. -/
def inUse (sc : Scan) (id : Nat) : Option Bool := (sc.m.lookup id).map fun v => decide (0 < v.refs)

/-! ## What one step does -/

theorem mem_of_lookup {l : List (Nat × Usage)} {a : Nat} {b : Usage} (h : l.lookup a = some b) :
    (a, b) ∈ l := by
  obtain ⟨l₁, l₂, rfl, -⟩ := List.lookup_eq_some_iff.mp h
  simp

/-- What a step does: `id` leaves the scan, and a record no handle holds gives up its handles
on the parent. -/
theorem rescanStep_ok {sc sc' : Scan} {id : Nat} (h : rescanStep sc id = .ok sc') :
    ∃ v, sc.m.lookup id = some v ∧
      ((v.refs = 0 ∧ ∃ p, v.parent = some p ∧ (sc.m.lookup p).isSome ∧
          sc' = ⟨decRefs sc.m p v.weight, (sc.rescan.insert p).filter (· ≠ id)⟩) ∨
        (¬ (v.refs = 0 ∧ v.parent.isSome) ∧ sc' = ⟨sc.m, sc.rescan.filter (· ≠ id)⟩)) := by
  obtain ⟨v, hv, h⟩ := Outcome.bind_eq_ok.mp h
  rw [Outcome.deref_eq_ok] at hv
  refine ⟨v, hv, ?_⟩
  by_cases h0 : v.refs = 0
  · rw [if_pos h0] at h
    cases hp : v.parent with
    | none =>
      rw [hp] at h
      cases h
      exact .inr ⟨by simp, rfl⟩
    | some p =>
      rw [hp] at h
      obtain ⟨pv, hpv, h⟩ := Outcome.bind_eq_ok.mp h
      cases h
      exact .inl ⟨h0, p, rfl, by rw [Outcome.deref_eq_ok.mp hpv]; rfl, rfl⟩
  · rw [if_neg h0] at h
    cases h
    exact .inr ⟨by simp [h0], rfl⟩

theorem weight_pos (v : Usage) : 0 < v.weight := by
  unfold Usage.weight
  split <;> omega

/-! ## The loop ends -/

/-- A record the loop may still count down: it has handles, or none and is still to scan. -/
def live (rescan : List Nat) (e : Nat × Usage) : Bool :=
  decide (0 < e.2.refs ∨ (e.2.refs = 0 ∧ e.1 ∈ rescan))

/-- The potential of a scan. A record gives up the handles it holds on its parent when it is
scanned with none of its own left, and it is scanned again only after a child took a handle from
it; so it does so at most once, and each step lowers the potential. -/
def potential (sc : Scan) : Nat := sc.rescan.length + 2 * sc.m.countP (live sc.rescan)

theorem length_filter_ne_lt {l : List Nat} {id : Nat} (h : id ∈ l) :
    (l.filter (· ≠ id)).length < l.length :=
  List.length_filter_lt_length_iff_exists.mpr ⟨id, h, by simp⟩

theorem potential_lt {sc sc' : Scan} {id : Nat} (hid : id ∈ sc.rescan)
    (h : rescanStep sc id = .ok sc') : potential sc' < potential sc := by
  obtain ⟨v, hv, ⟨h0, p, -, -, rfl⟩ | ⟨-, rfl⟩⟩ := rescanStep_ok h
  · -- `id` gives up its handles on `p`, which is scanned again
    have hlen : ((sc.rescan.insert p).filter (· ≠ id)).length ≤ sc.rescan.length := by
      have h₁ := length_filter_ne_lt (List.mem_insert_iff.mpr (.inr hid) : id ∈ sc.rescan.insert p)
      have h₂ := List.length_insert (a := p) (l := sc.rescan)
      split at h₂ <;> omega
    have hw := weight_pos v
    have hcount : (decRefs sc.m p v.weight).countP (live ((sc.rescan.insert p).filter (· ≠ id))) <
        sc.m.countP (live sc.rescan) := by
      apply List.countP_map_lt
      · intro e _ he
        by_cases hep : e.1 = p
        · simp only [hep, if_true, live, decide_eq_true_eq] at he ⊢
          omega
        · simp only [if_neg hep, live, decide_eq_true_eq, List.mem_filter, List.mem_insert_iff]
            at he ⊢
          rcases he with he | ⟨he, (he' | he'), -⟩
          · exact .inl he
          · exact absurd he' hep
          · exact .inr ⟨he, he'⟩
      · refine ⟨(id, v), mem_of_lookup hv, by simp [live, h0, hid], ?_⟩
        by_cases hip : id = p
        · simp only [hip, if_true, live, h0, decide_eq_false_iff_not]
          rintro (h | ⟨h, -⟩) <;> omega
        · simp [hip, live, h0]
    dsimp only [potential]
    omega
  · have hlen := length_filter_ne_lt hid
    have hcount : sc.m.countP (live (sc.rescan.filter (· ≠ id))) ≤ sc.m.countP (live sc.rescan) :=
      List.countP_mono_left fun e _ he => by
        simp only [live, decide_eq_true_eq, List.mem_filter] at he ⊢
        exact he.imp_right fun h => ⟨h.1, h.2.1⟩
    dsimp only [potential]
    omega

/-- The loop ends, whatever order it meets the IDs in: no scan starts an endless run. -/
theorem rescan_wellFounded :
    WellFounded fun sc' sc : Scan => ∃ id ∈ sc.rescan, rescanStep sc id = .ok sc' :=
  Subrelation.wf (fun ⟨_, hid, h⟩ => potential_lt hid h) (measure potential).wf

/-! ## The map under `decRefs` -/

theorem lookup_decRefs (m : List (Nat × Usage)) (p : Nat) (n : Int) (a : Nat) :
    (decRefs m p n).lookup a =
      (m.lookup a).map fun v => if a = p then { v with refs := v.refs - n } else v := by
  induction m with
  | nil => rfl
  | cons e m ih =>
    obtain ⟨k, v⟩ := e
    have hcons : decRefs ((k, v) :: m) p n =
        (if k = p then (k, { v with refs := v.refs - n }) else (k, v)) :: decRefs m p n := rfl
    rw [hcons]
    by_cases hk : a = k
    · subst hk
      by_cases hp : a = p <;> simp [hp]
    · have hk' : (a == k) = false := by simpa using hk
      split <;> simp [List.lookup_cons, hk', ih]

theorem isSome_lookup_decRefs (m : List (Nat × Usage)) (p : Nat) (n : Int) (a : Nat) :
    ((decRefs m p n).lookup a).isSome = (m.lookup a).isSome := by
  rw [lookup_decRefs, Option.isSome_map]

/-- `decRefs` changes only the count of handles: each entry keeps its ID, its parent and its
`doubleRef`. -/
theorem mem_decRefs {m : List (Nat × Usage)} {p : Nat} {n : Int} {e : Nat × Usage}
    (he : e ∈ decRefs m p n) :
    ∃ e₀ ∈ m, e.1 = e₀.1 ∧ e.2.parent = e₀.2.parent ∧ e.2.doubleRef = e₀.2.doubleRef := by
  obtain ⟨e₀, he₀, rfl⟩ := List.mem_map.mp he
  refine ⟨e₀, he₀, ?_⟩
  split <;> simp

theorem map_fst_decRefs (m : List (Nat × Usage)) (p : Nat) (n : Int) :
    (decRefs m p n).map (·.1) = m.map (·.1) := by
  rw [decRefs, List.map_map]
  exact List.map_congr_left fun e _ => by dsimp only [Function.comp]; split <;> rfl

/-! ## The loop never dereferences a missing entry where parents are in the map -/

/-- Every ID to scan, and the parent of every record of the map, is in the map. -/
structure Scan.Closed (sc : Scan) : Prop where
  parent : ∀ e ∈ sc.m, e.2.parent.all fun p => (sc.m.lookup p).isSome
  rescan : ∀ id ∈ sc.rescan, (sc.m.lookup id).isSome

theorem Scan.Closed.lookup_parent {sc : Scan} (hc : sc.Closed) {e : Nat × Usage} (he : e ∈ sc.m)
    {p : Nat} (hp : e.2.parent = some p) : (sc.m.lookup p).isSome := by
  have h := hc.parent e he
  rw [hp] at h
  simpa using h

/-- From a closed scan, a step on any ID to scan ends without a fault, on a closed scan. -/
theorem Scan.Closed.rescanStep {sc : Scan} (hc : sc.Closed) {id : Nat} (hid : id ∈ sc.rescan) :
    ∃ sc', Cache.rescanStep sc id = .ok sc' ∧ sc'.Closed := by
  obtain ⟨v, hv⟩ := Option.isSome_iff_exists.mp (hc.rescan id hid)
  -- the entries to scan afterwards come from the old ones and the parent
  have hkeep : ∀ (R : List Nat), (∀ x ∈ R, (sc.m.lookup x).isSome) →
      ∀ x ∈ R.filter (· ≠ id), (sc.m.lookup x).isSome :=
    fun R hR x hx => hR x (List.mem_filter.mp hx).1
  by_cases hprop : v.refs = 0 ∧ v.parent.isSome
  · obtain ⟨h0, hps⟩ := hprop
    obtain ⟨p, hp⟩ := Option.isSome_iff_exists.mp hps
    have hpm := hc.lookup_parent (mem_of_lookup hv) hp
    obtain ⟨pv, hpv⟩ := Option.isSome_iff_exists.mp hpm
    refine ⟨⟨decRefs sc.m p v.weight, (sc.rescan.insert p).filter (· ≠ id)⟩, ?_, ?_, ?_⟩
    · simp only [Cache.rescanStep, hv, hpv, Outcome.deref_some, Outcome.ok_bind, if_pos h0, hp]
      rfl
    · intro e he
      obtain ⟨e₀, he₀, -, hpar, -⟩ := mem_decRefs he
      simp only [isSome_lookup_decRefs, hpar]
      exact hc.parent e₀ he₀
    · intro x hx
      rw [isSome_lookup_decRefs]
      refine hkeep _ (fun y hy => ?_) x hx
      rcases List.mem_insert_iff.mp hy with rfl | hy
      · exact hpm
      · exact hc.rescan y hy
  · refine ⟨⟨sc.m, sc.rescan.filter (· ≠ id)⟩, ?_, hc.parent, hkeep _ hc.rescan⟩
    simp only [Cache.rescanStep, hv, Outcome.deref_some, Outcome.ok_bind]
    by_cases h0 : v.refs = 0
    · cases hp : v.parent with
      | none => simp [h0]
      | some p => exact absurd ⟨h0, by simp [hp]⟩ hprop
    · simp [h0]

/-- From a closed scan the loop ends: some run scans every ID to the end, and by
`rescan_wellFounded` every run does. -/
theorem exists_rescans_done (sc : Scan) (hc : sc.Closed) :
    ∃ sc', Rescans sc sc' ∧ sc'.rescan = [] := by
  induction sc using rescan_wellFounded.induction with
  | _ sc ih =>
    cases hr : sc.rescan with
    | nil => exact ⟨sc, .refl sc, hr⟩
    | cons id rest =>
      have hid : id ∈ sc.rescan := by rw [hr]; exact List.mem_cons_self
      obtain ⟨sc', hstep, hc'⟩ := hc.rescanStep hid
      obtain ⟨sc'', hrun, hdone⟩ := ih sc' ⟨id, hid, hstep⟩ hc'
      exact ⟨sc'', .step hid hstep hrun, hdone⟩

/-! ## What the children of a record give up on it -/

/-- `m[p].refs`, `0` for a record missing from the map. -/
def refsOf (m : List (Nat × Usage)) (p : Nat) : Int := ((m.lookup p).map (·.refs)).getD 0

/-- A child of `p` still to scan that no handle holds: scanned, it gives up its handles of `p`. -/
def owing (p : Nat) (rescan : List Nat) (e : Nat × Usage) : Bool :=
  decide (e.2.parent = some p ∧ e.2.refs = 0 ∧ e.1 ∈ rescan)

/-- The handles of `p` that its children still to scan will give up. -/
def owed (sc : Scan) (p : Nat) : Int :=
  (sc.m.map fun e => if owing p sc.rescan e then e.2.weight else 0).sum

/-- Every child of `p` in the map is a leaf: no record of the map is a child of it. -/
def LeafChildren (m : List (Nat × Usage)) (p : Nat) : Prop :=
  ∀ e ∈ m, e.2.parent = some p → ∀ e' ∈ m, e'.2.parent ≠ some e.1

instance (m : List (Nat × Usage)) (p : Nat) : Decidable (LeafChildren m p) :=
  inferInstanceAs (Decidable (∀ e ∈ m, e.2.parent = some p → ∀ e' ∈ m, e'.2.parent ≠ some e.1))

theorem refsOf_decRefs (m : List (Nat × Usage)) (q : Nat) (n : Int) (p : Nat) :
    refsOf (decRefs m q n) p = if p = q ∧ (m.lookup p).isSome then refsOf m p - n else refsOf m p := by
  unfold refsOf
  rw [lookup_decRefs]
  cases m.lookup p with
  | none => simp
  | some v => by_cases hpq : p = q <;> simp [hpq]

theorem weight_decRefs_entry (q : Nat) (n : Int) (e : Nat × Usage) :
    (if e.1 = q then (e.1, { e.2 with refs := e.2.refs - n }) else e).2.weight = e.2.weight := by
  split <;> rfl

/-- A sum of weights over a map with unique IDs, where one entry stops counting: it drops by
that entry's weight if it counted. -/
theorem sum_weight_erase {m : List (Nat × Usage)} (hnd : (m.map (·.1)).Nodup) {id : Nat}
    {v : Usage} (hv : (id, v) ∈ m) {P P' : Nat × Usage → Bool}
    (hP : ∀ e ∈ m, P' e = (P e && decide (e.1 ≠ id))) :
    (m.map fun e => if P' e then e.2.weight else 0).sum =
      (m.map fun e => if P e then e.2.weight else 0).sum - (if P (id, v) then v.weight else 0) := by
  induction m with
  | nil => cases hv
  | cons e m ih =>
    obtain ⟨he, hnd⟩ := List.nodup_cons.mp hnd
    have hP' : ∀ e' ∈ m, P' e' = (P e' && decide (e'.1 ≠ id)) :=
      fun e' he' => hP e' (List.mem_cons_of_mem e he')
    rw [List.map_cons, List.map_cons, List.sum_cons, List.sum_cons]
    rcases List.mem_cons.mp hv with rfl | hv
    · -- the entry that stops counting is the first: the others keep theirs
      have hrest : ∀ e' ∈ m, P' e' = P e' := fun e' he' => by
        rw [hP' e' he']
        have hne : e'.1 ≠ id := fun h => he (List.mem_map.mpr ⟨e', he', h⟩)
        simp [hne]
      rw [hP _ List.mem_cons_self, List.map_congr_left fun e' he' => by rw [hrest e' he']]
      simp only [ne_eq, not_true_eq_false, decide_false, Bool.and_false, Bool.false_eq_true,
        if_false]
      split <;> omega
    · have hne : e.1 ≠ id := fun h => he (List.mem_map.mpr ⟨(id, v), hv, h.symm⟩)
      rw [ih hnd hv hP', hP e List.mem_cons_self]
      simp only [ne_eq, hne, not_false_eq_true, decide_true, Bool.and_true]
      omega

/-- Where the children of `p` are leaves, a step lowers `p`'s count by what it lowers `p`'s
debt: the child scanned gives up its handles on `p` and owes nothing more, and no other record's
debt or count changes. -/
theorem refsOf_sub_owed_step {sc sc' : Scan} {id p : Nat} (hnd : (sc.m.map (·.1)).Nodup)
    (hleaf : LeafChildren sc.m p) (hid : id ∈ sc.rescan) (h : rescanStep sc id = .ok sc') :
    refsOf sc'.m p - owed sc' p = refsOf sc.m p - owed sc p := by
  obtain ⟨v, hv, ⟨h0, q, hq, hqm, rfl⟩ | ⟨hno, rfl⟩⟩ := rescanStep_ok h
  · have hvm := mem_of_lookup hv
    -- a child of `p` is not `q`, the parent of `id`
    have hnq : ∀ e ∈ sc.m, e.2.parent = some p → e.1 ≠ q := fun e he hep heq =>
      hleaf e he hep (id, v) hvm (heq ▸ hq)
    have howing : ∀ e ∈ sc.m,
        owing p ((sc.rescan.insert q).filter (· ≠ id))
            (if e.1 = q then (e.1, { e.2 with refs := e.2.refs - v.weight }) else e) =
          (owing p sc.rescan e && decide (e.1 ≠ id)) := by
      intro e he
      by_cases heq : e.1 = q
      · have hpar : e.2.parent ≠ some p := fun hep => hnq e he hep heq
        simp [owing, heq, hpar]
      · simp only [heq, if_false, owing, List.mem_filter, List.mem_insert_iff]
        by_cases hep : e.2.parent = some p <;> by_cases hr : e.2.refs = 0 <;>
          by_cases hm : e.1 ∈ sc.rescan <;> simp [hep, hr, hm]
    have howed : owed ⟨decRefs sc.m q v.weight, (sc.rescan.insert q).filter (· ≠ id)⟩ p =
        owed sc p - (if owing p sc.rescan (id, v) then v.weight else 0) := by
      unfold owed
      rw [decRefs, List.map_map]
      rw [← sum_weight_erase hnd hvm howing]
      congr 1
      exact List.map_congr_left fun e _ => by
        simp only [Function.comp, weight_decRefs_entry]
    rw [howed, refsOf_decRefs]
    by_cases hpq : p = q
    · subst hpq
      have : owing p sc.rescan (id, v) = true := by simp [owing, hq, h0, hid]
      rw [if_pos ⟨rfl, hqm⟩, if_pos this]
      omega
    · have : owing p sc.rescan (id, v) = false := by
        simp [owing, hq, Ne.symm hpq]
      rw [if_neg fun h => hpq h.1, this]
      simp
  · have hvm := mem_of_lookup hv
    have howing : ∀ e ∈ sc.m, owing p (sc.rescan.filter (· ≠ id)) e =
        (owing p sc.rescan e && decide (e.1 ≠ id)) := by
      intro e _
      simp only [owing, List.mem_filter]
      by_cases hep : e.2.parent = some p <;> by_cases hr : e.2.refs = 0 <;>
        by_cases hm : e.1 ∈ sc.rescan <;> simp [hep, hr, hm]
    have hv0 : owing p sc.rescan (id, v) = false := by
      simp only [owing, decide_eq_false_iff_not]
      rintro ⟨hp, hr, -⟩
      exact hno ⟨hr, by simp [hp]⟩
    have howed : owed ⟨sc.m, sc.rescan.filter (· ≠ id)⟩ p = owed sc p := by
      unfold owed
      rw [sum_weight_erase hnd hvm howing, hv0]
      simp
    rw [howed]

theorem LeafChildren.decRefs {m : List (Nat × Usage)} {p : Nat} (h : LeafChildren m p) (q : Nat)
    (n : Int) : LeafChildren (Cache.decRefs m q n) p := by
  intro e he hep e' he'
  obtain ⟨e₀, he₀, hk, hpar, -⟩ := mem_decRefs he
  obtain ⟨e₀', he₀', -, hpar', -⟩ := mem_decRefs he'
  rw [hk, hpar']
  exact h e₀ he₀ (hpar ▸ hep) e₀' he₀'

/-- A step changes only counts: the IDs of the map stay, and so do the parents. -/
theorem rescanStep_keeps {sc sc' : Scan} {id p : Nat} (h : rescanStep sc id = .ok sc') :
    sc'.m.map (·.1) = sc.m.map (·.1) ∧ (LeafChildren sc.m p → LeafChildren sc'.m p) := by
  obtain ⟨v, -, ⟨-, q, -, -, rfl⟩ | ⟨-, rfl⟩⟩ := rescanStep_ok h
  · exact ⟨map_fst_decRefs _ _ _, fun hl => hl.decRefs q v.weight⟩
  · exact ⟨rfl, fun hl => hl⟩

theorem map_fst_rescans {sc sc' : Scan} (hrun : Rescans sc sc') :
    sc'.m.map (·.1) = sc.m.map (·.1) := by
  induction hrun with
  | refl => rfl
  | step _ h _ ih => rw [ih, (rescanStep_keeps (p := 0) h).1]

/-- The count of a record whose children are leaves less what they owe it stays the same
along a run. -/
theorem refsOf_sub_owed_rescans {sc sc' : Scan} {p : Nat} (hrun : Rescans sc sc')
    (hnd : (sc.m.map (·.1)).Nodup) (hleaf : LeafChildren sc.m p) :
    refsOf sc'.m p - owed sc' p = refsOf sc.m p - owed sc p := by
  induction hrun with
  | refl => rfl
  | step hid h _ ih =>
    obtain ⟨hkeys, hkeep⟩ := rescanStep_keeps (p := p) h
    rw [ih (hkeys ▸ hnd) (hkeep hleaf), refsOf_sub_owed_step hnd hleaf hid h]

/-- Where the children of `p` are leaves, every run of the loop to its end leaves `p` with its
count less what its children held by nobody give up on it, in whatever order it scans them. -/
theorem refsOf_rescans_done {sc sc' : Scan} {p : Nat} (hrun : Rescans sc sc')
    (hdone : sc'.rescan = []) (hnd : (sc.m.map (·.1)).Nodup) (hleaf : LeafChildren sc.m p) :
    refsOf sc'.m p = refsOf sc.m p - owed sc p := by
  have h := refsOf_sub_owed_rescans hrun hnd hleaf
  have h0 : owed sc' p = 0 := by
    unfold owed
    simp [owing, hdone]
  omega

theorem isSome_lookup_iff {m : List (Nat × Usage)} {a : Nat} :
    (m.lookup a).isSome ↔ a ∈ m.map (·.1) := by
  induction m with
  | nil => simp
  | cons e m ih =>
    obtain ⟨k, v⟩ := e
    by_cases hk : a = k
    · subst hk
      simp
    · have hk' : (a == k) = false := by simpa using hk
      simp [List.lookup_cons, hk', hk, ih]

/-- `InUse` of a record of the map, by its count. -/
theorem inUse_of_mem {sc : Scan} {id : Nat} (h : id ∈ sc.m.map (·.1)) :
    inUse sc id = some (decide (0 < refsOf sc.m id)) := by
  obtain ⟨v, hv⟩ := Option.isSome_iff_exists.mp (isSome_lookup_iff.mpr h)
  simp [inUse, refsOf, hv]

/-! ## A held record reported not in use -/

/-- A record `1` committed from `0` and held by its handle `1`; on it, a mutable record `2` that
keeps its cache, committed as `3`, whose handle is released; then `3` finalized through a handle
from `Get`, which marks `2` dead and starts its removal, and that handle released. -/
def heldParentOps : List Op :=
  [.new none false, .commit 0, .new (some 1) true, .removed 0, .commit 3, .release 5, .get 3,
    .finalize 6 true, .release 6]

/-- What `DiskUsage` reads after `heldParentOps`: record `1` with its three handles, and the dead
mutable record `2` and its committed twin `3` on it, both with none. -/
theorem start_heldParentOps :
    start (run .empty heldParentOps) =
      ⟨[(1, ⟨3, none, false, false⟩), (2, ⟨0, some 1, true, true⟩), (3, ⟨0, some 1, false, false⟩)],
        [1, 2, 3]⟩ := by
  decide

theorem diskUsage_reports_held_record_unused :
    let s : State := run .empty heldParentOps
    -- the handle `1` of record `1` is no record's parent handle; the removal of `2` is pending
    (1 ∈ (s.record 1).refs ∧ (∀ r ∈ s.records, (s.record r).parent ≠ some 1) ∧ 2 ∈ s.pending) ∧
      (∃ sc, Rescans (start s) sc ∧ sc.rescan = []) ∧
      ∀ sc, Rescans (start s) sc → sc.rescan = [] → inUse sc 1 = some false := by
  intro s
  have hstart := start_heldParentOps
  have hc : (start s).Closed := by
    rw [hstart]
    exact ⟨by decide, by decide⟩
  refine ⟨by decide, exists_rescans_done _ hc, fun sc hrun hdone => ?_⟩
  -- the children `2` and `3` of `1` give up three handles of it: all it has
  have hnd : ((start s).m.map (·.1)).Nodup := by rw [hstart]; decide
  have hleaf : LeafChildren (start s).m 1 := by rw [hstart]; decide
  have hmem : 1 ∈ sc.m.map (·.1) := by rw [map_fst_rescans hrun, hstart]; decide
  rw [inUse_of_mem hmem, refsOf_rescans_done hrun hdone hnd hleaf, hstart]
  decide

end Cache

end Buildkit
