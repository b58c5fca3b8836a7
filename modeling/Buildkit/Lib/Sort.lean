import Mathlib
import Buildkit.Lib.Outcome

/-!
# `sort.Slice` with a comparator that may panic

Go's `sort.Slice` calls the `less` it is given on pairs of elements and swaps them; a `less` that
indexes into a slice may panic, and then the sort does. For a slice of at most twelve elements
`quickSort_func` of Go's `sort` package sorts by a shell pass with gap 6 followed by an
insertion sort, and `sortSlice` is these two passes, made in the order in which Go compares and
swaps. A longer slice is partitioned first, by a quicksort; `sortSlice` sorts it by the same
two passes.

What a sort that ends returns is a permutation of its input, whatever the comparator
(`perm_sortSlice`); a sort whose comparator never panics ends (`exists_sortSlice_eq_ok`); and
one by the comparator `key a < key b` of a linear order sorts by the key
(`pairwise_sortSlice_key`).
-/

namespace GoSort

variable {α : Type} (less : α → α → Outcome Bool)

/-- One round of `insertionSort_func`: the element `x` is swapped down the sorted prefix, which
is kept from its last element on, for as long as `less` puts it before the element below it. -/
def insertBack (x : α) : List α → Outcome (List α)
  | [] => pure [x]
  | y :: ys => do
    if ← less x y then
      let ys ← insertBack x ys
      pure (y :: ys)
    else pure (x :: y :: ys)

/-- `insertionSort_func`: each element from the second on is swapped down the prefix before it. -/
def insertionSort (l : List α) : Outcome (List α) := do
  let r ← l.foldlM (fun acc x => insertBack less x acc) []
  pure r.reverse

/-- The shell pass with gap 6 of `quickSort_func`: for each `i` from 6 on, `data[i]` and
`data[i-6]` are swapped where `less(data[i], data[i-6])`. -/
def shellPass (l : List α) : Outcome (List α) :=
  (List.range' 6 (l.length - 6)).foldlM (fun l i =>
    match l[i]?, l[i - 6]? with
    | some x, some y => do
      if ← less x y then pure ((l.set i y).set (i - 6) x) else pure l
    | _, _ => pure l) l

/-- `sort.Slice`. -/
def sortSlice (l : List α) : Outcome (List α) :=
  if l.length > 1 then do
    let l ← shellPass less l
    insertionSort less l
  else pure l

variable {less}

/-- `insertBack` places `x` among the elements of the prefix, whatever `less` answers. -/
theorem perm_insertBack {x : α} {l l' : List α} (h : insertBack less x l = .ok l') :
    l'.Perm (x :: l) := by
  induction l generalizing l' with
  | nil =>
    cases h
    exact .refl _
  | cons y ys ih =>
    obtain ⟨b, -, h⟩ := Outcome.bind_eq_ok.mp h
    cases b with
    | false =>
      cases h
      exact .refl _
    | true =>
      obtain ⟨ys', hys, h⟩ := Outcome.bind_eq_ok.mp h
      cases h
      exact ((ih hys).cons y).trans (.swap x y ys)

/-- The loop of `insertionSort` from an accumulator `acc`: it holds, from its last element on,
the elements of `acc` and those of the prefix already visited. -/
theorem perm_foldlM_insertBack {l acc r : List α}
    (h : l.foldlM (fun acc x => insertBack less x acc) acc = .ok r) : r.Perm (l.reverse ++ acc) := by
  induction l generalizing acc with
  | nil =>
    cases h
    exact .refl _
  | cons x xs ih =>
    rw [List.foldlM_cons] at h
    obtain ⟨acc', hacc, h⟩ := Outcome.bind_eq_ok.mp h
    have hrev : (x :: xs).reverse ++ acc = xs.reverse ++ x :: acc := by simp
    exact hrev ▸ (ih h).trans ((perm_insertBack hacc).append_left _)

theorem perm_insertionSort {l l' : List α} (h : insertionSort less l = .ok l') : l'.Perm l := by
  obtain ⟨r, hr, h⟩ := Outcome.bind_eq_ok.mp h
  cases h
  have hperm : r.Perm l.reverse := by simpa using perm_foldlM_insertBack hr
  exact ((List.reverse_perm r).trans hperm).trans (List.reverse_perm l)

/-- A swap of two elements of a list permutes it. -/
theorem perm_set_set {l : List α} {i j : Nat} {x y : α} (hx : l[i]? = some x)
    (hy : l[j]? = some y) : ((l.set i y).set j x).Perm l := by
  classical
  obtain ⟨hi, rfl⟩ := List.getElem?_eq_some_iff.mp hx
  obtain ⟨hj, rfl⟩ := List.getElem?_eq_some_iff.mp hy
  rw [List.perm_iff_count]
  intro a
  have hj' : j < (l.set i l[j]).length := by simpa using hj
  -- the count of `a` loses `l[i]` and gains `l[j]`, then the other way round
  have hli : (if l[i] == a then 1 else 0) ≤ l.count a := by
    split
    · rename_i ha
      exact List.count_pos_iff.mpr (eq_of_beq ha ▸ List.getElem_mem hi)
    · omega
  rw [List.count_set hj', List.count_set hi, List.getElem_set]
  split <;> simp_all

theorem perm_shellPass {l l' : List α} (h : shellPass less l = .ok l') : l'.Perm l := by
  refine Outcome.foldlM_rel (fun l l' => l'.Perm l) (fun _ => .refl _)
    (fun h₁ h₂ => h₂.trans h₁) ?_ h
  intro i _ s s' hs
  -- the swap is made only where both elements are there
  split at hs
  · rename_i x y hx hy
    obtain ⟨b, -, hs⟩ := Outcome.bind_eq_ok.mp hs
    cases b with
    | false =>
      cases hs
      exact .refl _
    | true =>
      cases hs
      exact perm_set_set hx hy
  · cases hs
    exact .refl _

/-- What a sort that ends returns is a permutation of its input, whatever the comparator. -/
theorem perm_sortSlice {l l' : List α} (h : sortSlice less l = .ok l') : l'.Perm l := by
  unfold sortSlice at h
  split at h
  · obtain ⟨l₁, h₁, h₂⟩ := Outcome.bind_eq_ok.mp h
    exact (perm_insertionSort h₂).trans (perm_shellPass h₁)
  · cases h
    exact .refl _

/-! ## A comparator that never fails -/

section
variable (hless : ∀ a b, ∃ c, less a b = .ok c)
include hless

theorem exists_insertBack_eq_ok (x : α) (l : List α) : ∃ l', insertBack less x l = .ok l' := by
  induction l with
  | nil => exact ⟨[x], rfl⟩
  | cons y ys ih =>
    obtain ⟨c, hc⟩ := hless x y
    obtain ⟨ys', hys⟩ := ih
    cases c with
    | false => exact ⟨x :: y :: ys, by simp [insertBack, hc]⟩
    | true => exact ⟨y :: ys', by simp [insertBack, hc, hys]⟩

theorem exists_shellPass_eq_ok (l : List α) : ∃ l', shellPass less l = .ok l' := by
  refine Outcome.foldlM_eq_ok_of_forall (fun i _ s => ?_) l
  -- a swap is tried only where both elements are there
  split
  · rename_i x y _ _
    obtain ⟨c, hc⟩ := hless x y
    cases c with
    | false => exact ⟨s, by simp [hc]⟩
    | true => exact ⟨(s.set i y).set (i - 6) x, by simp [hc]⟩
  · exact ⟨s, rfl⟩

/-- A sort whose comparator never panics does not either. -/
theorem exists_sortSlice_eq_ok (l : List α) : ∃ l', sortSlice less l = .ok l' := by
  unfold sortSlice
  split
  · obtain ⟨l₁, h₁⟩ := exists_shellPass_eq_ok hless l
    obtain ⟨r, hr⟩ := Outcome.foldlM_eq_ok_of_forall
      (fun x (_ : x ∈ l₁) acc => exists_insertBack_eq_ok hless x acc) []
    exact ⟨r.reverse, by simp [h₁, insertionSort, hr]⟩
  · exact ⟨l, rfl⟩

end

/-! ## A comparator by a key of a linear order -/

section
variable {β : Type} [LinearOrder β] {key : α → β}

/-- With the comparator `key a < key b`, `insertBack` keeps the prefix sorted from its last
element on. -/
theorem pairwise_insertBack_key {x : α} {l l' : List α}
    (h : insertBack (fun a b => pure (decide (key a < key b))) x l = .ok l')
    (hl : l.Pairwise (fun a b => key b ≤ key a)) : l'.Pairwise (fun a b => key b ≤ key a) := by
  induction l generalizing l' with
  | nil =>
    cases h
    exact List.pairwise_singleton _ _
  | cons y ys ih =>
    obtain ⟨hy, hys⟩ := List.pairwise_cons.mp hl
    obtain ⟨b, hb, h⟩ := Outcome.bind_eq_ok.mp h
    cases hb
    by_cases hxy : key x < key y
    · -- `x` is swapped below `y`, which stays above all the rest
      rw [decide_eq_true hxy] at h
      obtain ⟨ys', hys', h⟩ := Outcome.bind_eq_ok.mp h
      cases h
      refine List.pairwise_cons.mpr ⟨fun z hz => ?_, ih hys' hys⟩
      rcases List.mem_cons.mp ((perm_insertBack hys').mem_iff.mp hz) with rfl | hz
      · exact le_of_lt hxy
      · exact hy z hz
    · rw [decide_eq_false hxy] at h
      cases h
      have hyx : key y ≤ key x := not_lt.mp hxy
      refine List.pairwise_cons.mpr ⟨fun z hz => ?_, hl⟩
      rcases List.mem_cons.mp hz with rfl | hz
      · exact hyx
      · exact le_trans (hy z hz) hyx

theorem pairwise_insertionSort_key {l l' : List α}
    (h : insertionSort (fun a b => pure (decide (key a < key b))) l = .ok l') :
    l'.Pairwise (fun a b => key a ≤ key b) := by
  obtain ⟨r, hr, h⟩ := Outcome.bind_eq_ok.mp h
  cases h
  have hr : r.Pairwise (fun a b => key b ≤ key a) :=
    Outcome.foldlM_rel (fun a b => a.Pairwise (fun a b => key b ≤ key a) →
        b.Pairwise (fun a b => key b ≤ key a)) (fun _ h => h) (fun h₁ h₂ h => h₂ (h₁ h))
      (fun _ _ _ _ hs hp => pairwise_insertBack_key hs hp) hr List.Pairwise.nil
  exact List.pairwise_reverse.mpr hr

/-- `sort.Slice` with the comparator `key a < key b` sorts by the key. -/
theorem pairwise_sortSlice_key {l l' : List α}
    (h : sortSlice (fun a b => pure (decide (key a < key b))) l = .ok l') :
    l'.Pairwise (fun a b => key a ≤ key b) := by
  unfold sortSlice at h
  split at h
  · obtain ⟨l₁, -, h₂⟩ := Outcome.bind_eq_ok.mp h
    exact pairwise_insertionSort_key h₂
  · rename_i hlen
    cases h
    -- a slice of at most one element is sorted
    match l, hlen with
    | [], _ => exact .nil
    | [_], _ => exact List.pairwise_singleton _ _
    | _ :: _ :: _, hlen => simp at hlen

end

end GoSort
