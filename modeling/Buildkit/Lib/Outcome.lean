import Mathlib.Logic.Basic

/-!
# Calls that return an error or panic

A Go function that returns `(T, error)` ends in one of three ways: with a value, with the error
it returns, or with a run-time panic (an index out of range, a nil pointer dereferenced, a stack
that overflows). `Outcome` keeps the three apart, so that a panic is a result of a model that a
statement can name.

`Outcome.index`, `Outcome.modifyAt`, `Outcome.sliceFrom` and `Outcome.deref` are the run-time
faults the models use: `xs[i]`, `xs[i] = f(xs[i])` at an index of a signed type, `xs[i:]` and
`*p`. Binds propagate an error or a panic; `bind_eq_ok` takes a bind apart, and
`except_bind_eq_ok` one of `Except`; a loop in `Except` that computes a value from each element
and steps with it ends as the loop over the values that a `mapM` computed
(`except_foldlM_bind_eq_ok`), which a rewrite of the errors does not change
(`except_mapM_mapError_eq_ok`); `foldlM_rel` carries a relation through a loop, and
`foldlM_ok_rule` an invariant of the elements visited through one that ends; a loop whose
iterations all end ends (`foldlM_eq_ok_of_forall`), as does one whose iterations keep an
invariant that lets them end (`foldlM_inv`). A call on a state that keeps what it wrote when it
fails is a function to `Outcome Unit` and the state, its steps chained by `andThen`, and by
`bindWith` where a step returns a value as well.
-/

/-- How a call ends: with a value, with an error it returns, or with a run-time panic. -/
inductive Outcome (α : Type) where
  | ok (a : α)
  | error (msg : String)
  | panic (msg : String)
  deriving DecidableEq, Repr

namespace Outcome

variable {α β : Type}

/-- The rest of the call runs on the value; an error or a panic ends it. -/
def bind : Outcome α → (α → Outcome β) → Outcome β
  | ok a, f => f a
  | error m, _ => error m
  | panic m, _ => panic m

instance : Monad Outcome where
  pure := ok
  bind := bind

/-- The monad laws, so that the library's lemmas about loops apply (`List.foldlM_append`). -/
instance : LawfulMonad Outcome :=
  LawfulMonad.mk' Outcome (fun x => by cases x <;> rfl) (fun _ _ => rfl)
    (fun x _ _ => by cases x <;> rfl)

/-- The call ended with a value: a test that a concrete run can decide. -/
def isOk : Outcome α → Bool
  | ok _ => true
  | _ => false

/-- The next step of a call on a state that keeps what a failed step wrote: it runs only if the
step before ended with a value, as `if err != nil { return err }` after a call that mutates. -/
def andThen {σ : Type} (f : σ → Outcome Unit × σ) : Outcome Unit × σ → Outcome Unit × σ
  | (ok (), s) => f s
  | r => r

/-- The rest of a call on a state after a step that returns a value: it runs on the value and the
state the step left, and an error or a panic ends the call in that state, as a scanner stays
where a failed read stopped. -/
def bindWith {σ : Type} : Outcome α × σ → (α → σ → Outcome β × σ) → Outcome β × σ
  | (ok a, s), f => f a s
  | (error m, s), _ => (error m, s)
  | (panic m, s), _ => (panic m, s)

/-- `xs[i]`, which panics out of range. -/
def index (xs : List α) (i : Nat) : Outcome α :=
  match xs[i]? with
  | some a => ok a
  | none => panic "runtime error: index out of range"

/-- `xs[i] = f(xs[i])` at an index of a signed type, which panics out of range on either side. -/
def modifyAt (xs : List α) (i : Int) (f : α → α) : Outcome (List α) :=
  if 0 ≤ i ∧ i < xs.length then ok (xs.modify i.toNat f) else panic "runtime error: index out of range"

/-- `xs[i:]`, which panics when `i` is past the end. -/
def sliceFrom (xs : List α) (i : Nat) : Outcome (List α) :=
  if i ≤ xs.length then ok (xs.drop i) else panic "runtime error: slice bounds out of range"

/-- `*p` of a pointer that may be nil. -/
def deref (p : Option α) : Outcome α :=
  match p with
  | some a => ok a
  | none => panic "runtime error: invalid memory address or nil pointer dereference"

@[simp] theorem pure_eq (a : α) : (pure a : Outcome α) = ok a := rfl

@[simp] theorem ok_bind (a : α) (f : α → Outcome β) : (ok a >>= f) = f a := rfl

@[simp] theorem error_bind (m : String) (f : α → Outcome β) : (error m >>= f) = error m := rfl

@[simp] theorem panic_bind (m : String) (f : α → Outcome β) : (panic m >>= f) = panic m := rfl

theorem bind_eq_ok {x : Outcome α} {f : α → Outcome β} {b : β} :
    (x >>= f) = ok b ↔ ∃ a, x = ok a ∧ f a = ok b := by
  cases x with
  | ok a => simp
  | error m => simp
  | panic m => simp

/-- The bind of `Except`, for the calls that cannot panic, taken apart as `bind_eq_ok` does. -/
theorem except_bind_eq_ok {ε : Type} {x : Except ε α} {f : α → Except ε β} {b : β} :
    (x >>= f) = .ok b ↔ ∃ a, x = .ok a ∧ f a = .ok b := by
  cases x with
  | error m =>
    constructor
    · intro h; cases h
    · rintro ⟨_, h, -⟩; cases h
  | ok a =>
    constructor
    · intro h; exact ⟨a, rfl, h⟩
    · rintro ⟨_, h, hf⟩; cases h; exact hf

/-- A loop in `Except` whose body first computes a value from the element and then steps the
state with it ends as the loop over the values does, once a `mapM` has computed them all. -/
theorem except_foldlM_bind_eq_ok {ε σ : Type} {g : α → Except ε β} {s : σ → β → Except ε σ}
    {l : List α} {init r : σ} :
    l.foldlM (fun acc x => g x >>= s acc) init = .ok r ↔
      ∃ ys, l.mapM g = .ok ys ∧ ys.foldlM s init = .ok r := by
  induction l generalizing init with
  | nil =>
    constructor
    · intro h
      exact ⟨[], rfl, h⟩
    · rintro ⟨ys, h, hr⟩
      cases h
      exact hr
  | cons x l ih =>
    rw [List.foldlM_cons, List.mapM_cons]
    constructor
    · intro h
      obtain ⟨t, ht, h⟩ := except_bind_eq_ok.mp h
      obtain ⟨y, hy, hs⟩ := except_bind_eq_ok.mp ht
      obtain ⟨ys, hys, hr⟩ := ih.mp h
      refine ⟨y :: ys, ?_, ?_⟩
      · rw [hy, hys]
        rfl
      · rw [List.foldlM_cons, hs]
        exact hr
    · rintro ⟨ys, h, hr⟩
      obtain ⟨y, hy, h⟩ := except_bind_eq_ok.mp h
      obtain ⟨ys', hys', h⟩ := except_bind_eq_ok.mp h
      cases h
      rw [List.foldlM_cons] at hr
      obtain ⟨t, ht, hr⟩ := except_bind_eq_ok.mp hr
      rw [hy]
      exact except_bind_eq_ok.mpr ⟨t, ht, ih.mpr ⟨ys', hys', hr⟩⟩

/-- A `mapM` whose call rewrites its errors ends with the values the plain one ends with. -/
theorem except_mapM_mapError_eq_ok {ε ε' : Type} {g : α → Except ε β} {k : α → ε → ε'}
    {l : List α} {ys : List β} :
    l.mapM (fun x => (g x).mapError (k x)) = .ok ys ↔ l.mapM g = .ok ys := by
  induction l generalizing ys with
  | nil =>
    constructor
    · intro h
      cases h
      rfl
    · intro h
      cases h
      rfl
  | cons x l ih =>
    rw [List.mapM_cons, List.mapM_cons]
    cases g x with
    | error e =>
      constructor
      · intro h
        cases h
      · intro h
        cases h
    | ok y =>
      constructor
      · intro h
        obtain ⟨_, hy, h⟩ := except_bind_eq_ok.mp h
        cases hy
        obtain ⟨ys', hys', h⟩ := except_bind_eq_ok.mp h
        cases h
        rw [ih.mp hys']
        rfl
      · intro h
        obtain ⟨_, hy, h⟩ := except_bind_eq_ok.mp h
        cases hy
        obtain ⟨ys', hys', h⟩ := except_bind_eq_ok.mp h
        cases h
        show (l.mapM fun x => (g x).mapError (k x)) >>= _ = _
        rw [ih.mpr hys']
        rfl

/-- A loop that ends with a value relates its last state to its first by any reflexive and
transitive relation that each iteration ending with a value keeps. -/
theorem foldlM_rel {σ : Type} (R : σ → σ → Prop) (hrefl : ∀ s, R s s)
    (htrans : ∀ {s₁ s₂ s₃}, R s₁ s₂ → R s₂ s₃ → R s₁ s₃) {f : σ → α → Outcome σ} {l : List α}
    (hf : ∀ x ∈ l, ∀ s s', f s x = ok s' → R s s') {s s' : σ} (h : l.foldlM f s = ok s') :
    R s s' := by
  induction l generalizing s with
  | nil => cases h; exact hrefl _
  | cons x l ih =>
    rw [List.foldlM_cons] at h
    obtain ⟨s₁, h₁, h₂⟩ := bind_eq_ok.mp h
    exact htrans (hf x List.mem_cons_self s s₁ h₁)
      (ih (fun y hy => hf y (List.mem_cons_of_mem x hy)) h₂)

@[simp] theorem index_of_lt {xs : List α} {i : Nat} (h : i < xs.length) :
    index xs i = ok xs[i] := by
  simp [index, h]

@[simp] theorem index_nil (i : Nat) : index ([] : List α) i = panic "runtime error: index out of range" :=
  rfl

@[simp] theorem modifyAt_of_lt {xs : List α} {i : Int} (h₀ : 0 ≤ i) (h : i < xs.length)
    (f : α → α) : modifyAt xs i f = ok (xs.modify i.toNat f) :=
  if_pos ⟨h₀, h⟩

@[simp] theorem sliceFrom_of_le {xs : List α} {i : Nat} (h : i ≤ xs.length) :
    sliceFrom xs i = ok (xs.drop i) := by
  simp [sliceFrom, h]

@[simp] theorem deref_some (a : α) : deref (some a) = ok a := rfl

@[simp] theorem deref_none : deref (none : Option α) =
    panic "runtime error: invalid memory address or nil pointer dereference" := rfl

@[simp] theorem andThen_ok {σ : Type} (f : σ → Outcome Unit × σ) (s : σ) :
    andThen f (ok (), s) = f s := rfl

@[simp] theorem bindWith_ok {σ : Type} (a : α) (s : σ) (f : α → σ → Outcome β × σ) :
    bindWith (ok a, s) f = f a s := rfl

/-- What holds of the state after each step holds after the call. -/
theorem bindWith_state {σ : Type} (R : σ → Prop) {r : Outcome α × σ} {f : α → σ → Outcome β × σ}
    (hr : R r.2) (hf : ∀ a s, r = (ok a, s) → R (f a s).2) : R (bindWith r f).2 := by
  obtain ⟨o, s⟩ := r
  cases o with
  | ok a => exact hf a s rfl
  | error m => exact hr
  | panic m => exact hr

theorem bindWith_fst_eq_ok {σ : Type} {r : Outcome α × σ} {f : α → σ → Outcome β × σ} {b : β}
    (h : (bindWith r f).1 = ok b) : ∃ a s, r = (ok a, s) ∧ (f a s).1 = ok b := by
  obtain ⟨o, s⟩ := r
  cases o with
  | ok a => exact ⟨a, s, rfl, h⟩
  | error m => cases h
  | panic m => cases h

theorem andThen_of_ne_ok {σ : Type} (f : σ → Outcome Unit × σ) {r : Outcome Unit × σ}
    (h : r.1 ≠ ok ()) : andThen f r = r := by
  obtain ⟨o, s⟩ := r
  cases o with
  | ok u => exact absurd rfl h
  | error m => rfl
  | panic m => rfl

/-- A sequence of steps after one that failed returns what that one did. -/
theorem foldl_andThen_of_ne_ok {σ : Type} (f : α → σ → Outcome Unit × σ) (l : List α)
    {r : Outcome Unit × σ} (h : r.1 ≠ ok ()) : l.foldl (fun r x => andThen (f x) r) r = r := by
  induction l with
  | nil => rfl
  | cons x l ih => rw [List.foldl_cons, andThen_of_ne_ok _ h, ih]

theorem exists_eq_ok_of_isOk {x : Outcome α} (h : x.isOk = true) : ∃ a, x = ok a := by
  cases x with
  | ok a => exact ⟨a, rfl⟩
  | error m => cases h
  | panic m => cases h

/-- `exists_eq_ok_of_isOk` for a call in `Except`. -/
theorem except_exists_eq_ok_of_toBool {ε : Type} {x : Except ε α} (h : x.toBool = true) :
    ∃ a, x = .ok a := by
  cases x with
  | ok a => exact ⟨a, rfl⟩
  | error e => cases h

theorem index_eq_ok {xs : List α} {i : Nat} {a : α} : index xs i = ok a ↔ xs[i]? = some a := by
  unfold index
  split <;> simp_all

theorem deref_eq_ok {p : Option α} {a : α} : deref p = ok a ↔ p = some a := by
  cases p <;> simp

/-- A loop ends with a value if each of its iterations does, from every state. -/
theorem foldlM_eq_ok_of_forall {σ : Type} {f : σ → α → Outcome σ} {l : List α}
    (h : ∀ x ∈ l, ∀ s, ∃ s', f s x = ok s') (s : σ) : ∃ s', l.foldlM f s = ok s' := by
  induction l generalizing s with
  | nil => exact ⟨s, rfl⟩
  | cons x l ih =>
    obtain ⟨s₁, h₁⟩ := h x List.mem_cons_self s
    obtain ⟨s₂, h₂⟩ := ih (fun y hy => h y (List.mem_cons_of_mem x hy)) s₁
    exact ⟨s₂, by rw [List.foldlM_cons, h₁, ok_bind, h₂]⟩

/-- A loop ends with a value when an invariant of its state and of the elements still to come
holds at the start and each iteration keeps it, ending with a value. -/
theorem foldlM_inv {σ : Type} (I : List α → σ → Prop) {f : σ → α → Outcome σ}
    (hf : ∀ x xs s, I (x :: xs) s → ∃ s', f s x = ok s' ∧ I xs s') :
    ∀ (l : List α) (s : σ), I l s → ∃ s', l.foldlM f s = ok s' ∧ I [] s'
  | [], s, hs => ⟨s, rfl, hs⟩
  | x :: xs, s, hs => by
    obtain ⟨s₁, h₁, hs₁⟩ := hf x xs s hs
    obtain ⟨s₂, h₂, hs₂⟩ := foldlM_inv I hf xs s₁ hs₁
    exact ⟨s₂, by rw [List.foldlM_cons, h₁, ok_bind, h₂], hs₂⟩

/-- After a loop that ends with a value, an invariant of the state and of the elements visited
holds of all of them, when each iteration that ends with a value carries it one element
further. -/
theorem foldlM_ok_rule {σ : Type} (I : List α → σ → Prop) {f : σ → α → Outcome σ} {l : List α}
    (hf : ∀ done x s s', x ∈ l → I done s → f s x = ok s' → I (done ++ [x]) s')
    {s s' : σ} (hs : I [] s) (h : l.foldlM f s = ok s') : I l s' := by
  -- induction on the elements still to come, with those visited generalised
  suffices H : ∀ rest done s, done ++ rest = l → I done s → rest.foldlM f s = ok s' → I l s' from
    H l [] s rfl hs h
  intro rest
  induction rest with
  | nil =>
    intro done s hl hs h
    cases h
    simpa [← hl] using hs
  | cons x rest ih =>
    intro done s hl hs h
    rw [List.foldlM_cons] at h
    obtain ⟨s₁, h₁, h₂⟩ := bind_eq_ok.mp h
    exact ih (done ++ [x]) s₁ (by simpa using hl) (hf done x s s₁ (by rw [← hl]; simp) hs h₁) h₂

/-! ### `anyM`, which returns at the first element that answers `true` -/

/-- The call ends with a value, or panics with `m`. -/
def OkOrPanic (m : String) (x : Outcome α) : Prop := (∃ a, x = ok a) ∨ x = panic m

theorem okOrPanic_bind {m : String} {x : Outcome α} {f : α → Outcome β} (hx : OkOrPanic m x)
    (hf : ∀ a, x = ok a → OkOrPanic m (f a)) : OkOrPanic m (x >>= f) := by
  rcases hx with ⟨a, rfl⟩ | rfl
  · exact hf a rfl
  · exact .inr rfl

/-- A loop panics with `m` when one of its iterations does from every state an invariant holds
of, and every iteration ends or panics with `m`, keeping the invariant where it ends. -/
theorem foldlM_eq_panic {σ : Type} {m : String} {f : σ → α → Outcome σ} {l : List α}
    (I : σ → Prop) (hstep : ∀ x ∈ l, ∀ s, I s → OkOrPanic m (f s x))
    (hkeep : ∀ x ∈ l, ∀ s s', I s → f s x = ok s' → I s')
    (hp : ∃ x ∈ l, ∀ s, I s → f s x = panic m) : ∀ s, I s → l.foldlM f s = panic m := by
  induction l with
  | nil =>
    obtain ⟨_, h, _⟩ := hp
    cases h
  | cons x l ih =>
    intro s hs
    rw [List.foldlM_cons]
    obtain ⟨y, hy, hpy⟩ := hp
    rcases List.mem_cons.mp hy with rfl | hy
    · rw [hpy s hs, panic_bind]
    · rcases hstep x List.mem_cons_self s hs with ⟨s', hs'⟩ | hs'
      · rw [hs', ok_bind]
        exact ih (fun z hz => hstep z (List.mem_cons_of_mem x hz))
          (fun z hz => hkeep z (List.mem_cons_of_mem x hz)) ⟨y, hy, hpy⟩ s'
          (hkeep x List.mem_cons_self s s' hs hs')
      · rw [hs', panic_bind]

/-- `anyM` answers `true` only where the call on some element does. -/
theorem anyM_eq_ok_true {f : α → Outcome Bool} {l : List α} (h : l.anyM f = ok true) :
    ∃ a ∈ l, f a = ok true := by
  induction l with
  | nil => cases h
  | cons a l ih =>
    rw [List.anyM_cons] at h
    obtain ⟨b, hb, h⟩ := bind_eq_ok.mp h
    cases b with
    | true => exact ⟨a, List.mem_cons_self, hb⟩
    | false =>
      obtain ⟨a', ha', h'⟩ := ih h
      exact ⟨a', List.mem_cons_of_mem a ha', h'⟩

theorem anyM_okOrPanic {m : String} {f : α → Outcome Bool} {l : List α}
    (h : ∀ a ∈ l, OkOrPanic m (f a)) : OkOrPanic m (l.anyM f) := by
  induction l with
  | nil => exact .inl ⟨false, rfl⟩
  | cons a l ih =>
    rw [List.anyM_cons]
    rcases h a List.mem_cons_self with ⟨b, hb⟩ | hb
    · rw [hb, ok_bind]
      cases b with
      | true => exact .inl ⟨true, rfl⟩
      | false => exact ih fun a' ha' => h a' (List.mem_cons_of_mem a ha')
    · rw [hb, panic_bind]
      exact .inr rfl

/-- `anyM` panics with `m` where it reaches an element on which the call does, each call
before ending with `false` or panicking with `m`. -/
theorem anyM_eq_panic {m : String} {f : α → Outcome Bool} {l : List α}
    (h : ∀ a ∈ l, f a = ok false ∨ f a = panic m) (hp : ∃ a ∈ l, f a = panic m) :
    l.anyM f = panic m := by
  induction l with
  | nil =>
    obtain ⟨_, ha, _⟩ := hp
    cases ha
  | cons a l ih =>
    rw [List.anyM_cons]
    rcases h a List.mem_cons_self with hb | hb
    · rw [hb, ok_bind, if_neg Bool.false_ne_true]
      obtain ⟨a', ha', hpa⟩ := hp
      rcases List.mem_cons.mp ha' with rfl | ha'
      · rw [hb] at hpa
        cases hpa
      · exact ih (fun a'' h'' => h a'' (List.mem_cons_of_mem a h'')) ⟨a', ha', hpa⟩
    · rw [hb, panic_bind]

end Outcome
