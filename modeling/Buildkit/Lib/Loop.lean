import Mathlib.Data.List.Nodup
import Mathlib.Data.List.Perm.Basic

/-!
# Loops over Go maps

Go leaves the order of a `range` loop over a map unspecified, and two loops over the same map
may visit it in different orders. A model fixes nothing about it: an `IterOrder` is any
permutation of the keys, and what is proved of a model holds for every `IterOrder`.

A loop whose body can fail (in a model, a recursion that runs out of fuel) is a `List.foldlM` in
`Option`. `Loop.foldlM_rule` is its invariant rule: an invariant indexed by the part of the list
already visited, which each iteration carries one element further; `Loop.foldlM_rel` relates
the last state of a loop that ends to its first (`Loop.foldlM_keeps`, for an invariant), and `Loop.foldl_inv` is the invariant rule of
a loop that cannot fail. A slice written back after
one of its elements was read and changed keeps what a function sees of the others
(`List.map_set_of_getElem?`, `List.map_modify_of_eq`). A loop
each of whose iterations keeps the elements that pass a test of its own keeps those that pass
them all (`List.mem_foldl_iff`), as a loop that deletes keys from a Go map does
(`List.mem_foldl_erase_iff`).
-/

/-- An iteration order: for each list of keys, the order in which a loop visits them. -/
structure IterOrder (α : Type) where
  order : List α → List α
  perm : ∀ l, (order l).Perm l

namespace IterOrder

variable {α : Type} (ord : IterOrder α)

/-- Visiting the keys in the order they are stored. -/
def stored : IterOrder α := ⟨fun l => l, fun l => .refl l⟩

@[simp] theorem mem_order {a : α} {l : List α} : a ∈ ord.order l ↔ a ∈ l :=
  (ord.perm l).mem_iff

@[simp] theorem order_nil : ord.order [] = [] := List.perm_nil.mp (ord.perm [])

@[simp] theorem order_singleton (a : α) : ord.order [a] = [a] :=
  List.perm_singleton.mp (ord.perm [a])

end IterOrder

namespace Loop

variable {σ α : Type} {f : σ → α → Option σ}

/-- The invariant rule of a loop in `Option`. `I done s` holds of the state `s` reached after
visiting the prefix `done`; each iteration succeeds and carries it one element further. -/
theorem foldlM_rule (I : List α → σ → Prop) (l : List α)
    (step : ∀ done x rest s, done ++ x :: rest = l → I done s →
      ∃ s', f s x = some s' ∧ I (done ++ [x]) s')
    {s : σ} (h : I [] s) : ∃ s', l.foldlM f s = some s' ∧ I l s' := by
  -- induction on the part of the list still to visit, with the visited prefix generalised
  suffices H : ∀ rest done s, done ++ rest = l → I done s →
      ∃ s', rest.foldlM f s = some s' ∧ I l s' from H l [] s rfl h
  intro rest
  induction rest with
  | nil =>
    intro done s hl hs
    rw [List.append_nil] at hl
    exact ⟨s, rfl, hl ▸ hs⟩
  | cons x rest ih =>
    intro done s hl hs
    obtain ⟨s', hf, hs'⟩ := step done x rest s hl hs
    obtain ⟨s'', hrest, hI⟩ := ih (done ++ [x]) s' (by simpa using hl) hs'
    exact ⟨s'', by simp [List.foldlM_cons, hf, hrest], hI⟩

/-- A loop whose body never fails preserves every invariant its body preserves. -/
theorem foldlM_inv (P : σ → Prop) (l : List α)
    (step : ∀ x s, x ∈ l → P s → ∃ s', f s x = some s' ∧ P s')
    {s : σ} (h : P s) : ∃ s', l.foldlM f s = some s' ∧ P s' :=
  foldlM_rule (fun _ => P) l
    (fun done x rest s hl hs => step x s (by rw [← hl]; simp) hs) h

/-- The invariant rule of a pure loop: what every visit of an element of `l` keeps holds after
the loop. -/
theorem foldl_inv {g : σ → α → σ} (P : σ → Prop) (l : List α) (step : ∀ x ∈ l, ∀ s, P s → P (g s x))
    {s : σ} (h : P s) : P (l.foldl g s) := by
  induction l generalizing s with
  | nil => exact h
  | cons x l ih =>
    exact ih (fun y hy => step y (List.mem_cons_of_mem x hy)) (step x List.mem_cons_self s h)

/-- A loop that ends relates its last state to its first by any reflexive and transitive
relation that each iteration that ends keeps. -/
theorem foldlM_rel (R : σ → σ → Prop) (hrefl : ∀ s, R s s)
    (htrans : ∀ {s₁ s₂ s₃}, R s₁ s₂ → R s₂ s₃ → R s₁ s₃) {l : List α}
    (hf : ∀ x ∈ l, ∀ s s', f s x = some s' → R s s') {s s' : σ} (h : l.foldlM f s = some s') :
    R s s' := by
  induction l generalizing s with
  | nil => cases h; exact hrefl _
  | cons x l ih =>
    rw [List.foldlM_cons] at h
    obtain ⟨s₁, h₁, h₂⟩ := Option.bind_eq_some_iff.mp h
    exact htrans (hf x List.mem_cons_self s s₁ h₁)
      (ih (fun y hy => hf y (List.mem_cons_of_mem x hy)) h₂)

/-- A loop whose body never fails does not either. -/
theorem foldlM_eq_some_of_forall {l : List α} (h : ∀ x ∈ l, ∀ s, ∃ s', f s x = some s') (s : σ) :
    ∃ s', l.foldlM f s = some s' := by
  obtain ⟨s', h', -⟩ := foldlM_inv (fun _ => True) l
    (fun x s hx _ => (h x hx s).imp fun _ h => ⟨h, trivial⟩) (s := s) trivial
  exact ⟨s', h'⟩

/-- A bind ends if its first computation does, and the rest from what it gives. -/
theorem exists_bind_eq_some {β γ : Type} {x : Option β} {g : β → Option γ} (hx : ∃ a, x = some a)
    (hg : ∀ a, x = some a → ∃ c, g a = some c) : ∃ c, (x >>= g) = some c := by
  obtain ⟨a, ha⟩ := hx
  obtain ⟨c, hc⟩ := hg a ha
  exact ⟨c, by rw [ha]; exact hc⟩

/-- A loop that ends keeps every invariant that each iteration that ends keeps. -/
theorem foldlM_keeps (P : σ → Prop) {l : List α} (hf : ∀ x ∈ l, ∀ s s', f s x = some s' → P s → P s')
    {s s' : σ} (h : l.foldlM f s = some s') (hs : P s) : P s' :=
  foldlM_rel (fun a b => P a → P b) (fun _ h => h) (fun h₁ h₂ h => h₂ (h₁ h)) hf h hs

/-- `foldlM_keeps` for a loop in `Except`: an iteration that fails ends the loop with its error. -/
theorem foldlM_keeps_ok {ε : Type} {g : σ → α → Except ε σ} (P : σ → Prop) {l : List α}
    (hg : ∀ x ∈ l, ∀ s s', g s x = .ok s' → P s → P s') {s s' : σ} (h : l.foldlM g s = .ok s')
    (hs : P s) : P s' := by
  induction l generalizing s with
  | nil => cases h; exact hs
  | cons x l ih =>
    rw [List.foldlM_cons] at h
    cases hx : g s x with
    | error e => rw [hx] at h; cases h
    | ok s₁ =>
      rw [hx] at h
      exact ih (fun y hy => hg y (List.mem_cons_of_mem x hy)) h (hg x List.mem_cons_self s s₁ hx hs)

/-- The invariant rule of a loop in `Except` that ends: `I done s` holds of the state after the
prefix `done`, and each iteration that ends carries it one element further. -/
theorem foldlM_ok_rule {ε : Type} {g : σ → α → Except ε σ} (I : List α → σ → Prop) {l : List α}
    (hg : ∀ done x rest s s', done ++ x :: rest = l → g s x = .ok s' → I done s →
      I (done ++ [x]) s')
    {s s' : σ} (h : l.foldlM g s = .ok s') (hs : I [] s) : I l s' := by
  -- induction on the part of the list still to visit, with the visited prefix generalised
  suffices H : ∀ rest done s, done ++ rest = l → rest.foldlM g s = .ok s' → I done s → I l s' from
    H l [] s rfl h hs
  intro rest
  induction rest with
  | nil =>
    intro done s₀ hl h₀ hs₀
    cases h₀
    rw [List.append_nil] at hl
    exact hl ▸ hs₀
  | cons x rest ih =>
    intro done s₀ hl h₀ hs₀
    rw [List.foldlM_cons] at h₀
    cases hx : g s₀ x with
    | error e => rw [hx] at h₀; cases h₀
    | ok s₁ =>
      rw [hx] at h₀
      exact ih (done ++ [x]) s₁ (by simpa using hl) h₀ (hg done x rest s₀ s₁ hl hx hs₀)

end Loop

namespace List

/-- Writing an element back to a slice with the same image leaves the image of the slice: the
frame rule of an update that reads an element, changes part of it and stores it again. -/
theorem map_set_of_getElem? {α β : Type} {f : α → β} {l : List α} {i : Nat} {a b : α}
    (hb : l[i]? = some b) (hf : f a = f b) : (l.set i a).map f = l.map f := by
  obtain ⟨hi, rfl⟩ := List.getElem?_eq_some_iff.mp hb
  have hi' : i < (l.map f).length := by simpa
  have : f a = (l.map f)[i] := by simp [hf]
  rw [List.map_set, this, List.set_getElem_self]

/-- Changing an element in a way a function does not see leaves the image of the list. -/
theorem map_modify_of_eq {α β : Type} {f : α → α} {g : α → β} (h : ∀ a, g (f a) = g a)
    (l : List α) (i : Nat) : (l.modify i f).map g = l.map g := by
  apply List.ext_getElem?
  intro j
  rw [List.getElem?_map, List.getElem?_map, List.getElem?_modify]
  cases l[j]? with
  | none => rfl
  | some a => by_cases hij : i = j <;> simp [hij, h]

/-- Inserting the elements of `l` one by one into `acc` gives their union. -/
theorem mem_foldl_insert {α : Type} [DecidableEq α] {a : α} {acc l : List α} :
    a ∈ l.foldl (fun r x => r.insert x) acc ↔ a ∈ acc ∨ a ∈ l := by
  induction l generalizing acc with
  | nil => simp
  | cons x l ih =>
    rw [List.foldl_cons, ih, List.mem_insert_iff, List.mem_cons]
    tauto

theorem nodup_foldl_insert {α : Type} [DecidableEq α] {acc : List α} (h : acc.Nodup) (l : List α) :
    (l.foldl (fun r x => r.insert x) acc).Nodup := by
  induction l generalizing acc with
  | nil => exact h
  | cons x l ih => exact ih (List.Nodup.insert h)

/-- A count that drops at some element of a list and rises at none drops: the potential of a
loop whose step changes the elements of a list. -/
theorem countP_map_lt {α : Type} {p q : α → Bool} {g : α → α} {l : List α}
    (hle : ∀ x ∈ l, q (g x) = true → p x = true)
    (hlt : ∃ x ∈ l, p x = true ∧ q (g x) = false) : (l.map g).countP q < l.countP p := by
  induction l with
  | nil =>
    obtain ⟨x, hx, -⟩ := hlt
    cases hx
  | cons a l ih =>
    have hrest : (l.map g).countP q ≤ l.countP p := by
      rw [List.countP_map]
      exact List.countP_mono_left fun x hx h => hle x (List.mem_cons_of_mem a hx) h
    have ha : q (g a) = true → p a = true := hle a List.mem_cons_self
    rw [List.map_cons, List.countP_cons, List.countP_cons]
    obtain ⟨x, hx, hpx, hqx⟩ := hlt
    rcases List.mem_cons.mp hx with rfl | hx
    · simp only [hpx, hqx, if_true, Bool.false_eq_true, if_false]
      omega
    · have := ih (fun y hy => hle y (List.mem_cons_of_mem a hy)) ⟨x, hx, hpx, hqx⟩
      by_cases hq : q (g a) = true
      · rw [if_pos hq, if_pos (ha hq)]
        omega
      · rw [if_neg hq]
        split <;> omega

theorem mem_foldl_iff {α β : Type} {g : List α → β → List α} (I : List α → Prop)
    (Q : β → α → Prop) (hI : ∀ ps x, I ps → I (g ps x))
    (hg : ∀ ps x a, I ps → (a ∈ g ps x ↔ a ∈ ps ∧ Q x a)) {l : List β} {ps : List α} (hps : I ps)
    {a : α} : a ∈ l.foldl g ps ↔ a ∈ ps ∧ ∀ x ∈ l, Q x a := by
  induction l generalizing ps with
  | nil => simp
  | cons x l ih =>
    rw [List.foldl_cons, ih (hI ps x hps), hg ps x a hps]
    simp only [List.mem_cons, forall_eq_or_imp]
    tauto

section
variable {α β : Type} [DecidableEq α] {g : List α → β → List α} {c : β → Prop} [DecidablePred c]
  {f : β → α}

theorem nodup_erase_step (hg : ∀ ps x, g ps x = if c x then ps.erase (f x) else ps)
    {ps : List α} (hps : ps.Nodup) (x : β) : (g ps x).Nodup := by
  rw [hg]
  split
  · exact hps.erase _
  · exact hps

theorem mem_erase_step (hg : ∀ ps x, g ps x = if c x then ps.erase (f x) else ps)
    {ps : List α} (hps : ps.Nodup) (x : β) (a : α) : a ∈ g ps x ↔ a ∈ ps ∧ (c x → f x ≠ a) := by
  rw [hg]
  split
  · rename_i hc
    rw [hps.mem_erase_iff]
    simp only [hc, forall_const]
    exact ⟨fun h => ⟨h.2, Ne.symm h.1⟩, fun h => ⟨Ne.symm h.2, h.1⟩⟩
  · rename_i hc
    simp [hc]

/-- A loop that deletes from a Go map the key `f x` of each `x` that passes `c`: a key is left
if it was there and no iteration deleted it. -/
theorem mem_foldl_erase_iff (hg : ∀ ps x, g ps x = if c x then ps.erase (f x) else ps)
    {l : List β} {ps : List α} (hps : ps.Nodup) {a : α} :
    a ∈ l.foldl g ps ↔ a ∈ ps ∧ ∀ x ∈ l, c x → f x ≠ a :=
  mem_foldl_iff List.Nodup (fun x a => c x → f x ≠ a) (fun _ x h => nodup_erase_step hg h x)
    (fun _ x a h => mem_erase_step hg h x a) hps

theorem nodup_foldl_erase (hg : ∀ ps x, g ps x = if c x then ps.erase (f x) else ps)
    (l : List β) {ps : List α} (hps : ps.Nodup) : (l.foldl g ps).Nodup :=
  Loop.foldl_inv List.Nodup l (fun x _ _ h => nodup_erase_step hg h x) hps

end

end List
