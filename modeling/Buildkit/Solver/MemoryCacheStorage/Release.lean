import Buildkit.Solver.MemoryCacheStorage.Invariant
import Mathlib.Data.Finset.Card

/-!
# `Release` of the in-memory store

While `emptyBranchWithParents` runs, the keys whose recursion is still on the stack (`P`) are
known and hold neither results nor links, and the backlinks of every other key stay exact
(`CascadeInv`). A key of the stack is never entered again: a key entered from `t` is in the
backlinks of `t`, so it links to `t` and is not on the stack. Hence the depth is bounded by the
number of keys off the stack, and the fuel `Release` gives suffices.

What a cascade does is `Shrinks`: keys without results whose links all point into a set `X` are
deleted, and only links to `X` are removed. At the top of `Release`, `X` is the set of deleted
keys. `Released` composes the cascades of the loop of `Release` over the keys holding a result.
-/

namespace Buildkit

namespace InMemoryStore

/-! ## Cascades -/

/-- The invariant of the cascade while the keys `P` are on the stack. -/
structure CascadeInv (s : InMemoryStore) (P : List String) : Prop where
  id_eq : ∀ {id k}, s.byID.lookup id = some k → k.id = id
  target_mem : ∀ {id k l t}, s.byID.lookup id = some k → (l, t) ∈ k.links → t ∈ s.byID
  pending : ∀ {t}, t ∈ P →
    ∃ kt, s.byID.lookup t = some kt ∧ kt.results.keys = [] ∧ kt.links = []
  exact : ∀ {t kt p}, s.byID.lookup t = some kt → t ∉ P → (p ∈ kt.backlinks ↔ s.LinksTo p t)
  complete : ∀ {t kt p}, s.byID.lookup t = some kt → s.LinksTo p t → p ∈ kt.backlinks

/-- `s'` comes from `s` by deleting keys without results whose links all point into `X`, and
by removing links to keys of `X`: every other key keeps its ID, results and backlinks, and its
links to keys outside `X`. -/
structure Shrinks (s s' : InMemoryStore) (X : String → Prop) : Prop where
  byResult_eq : s'.byResult = s.byResult
  mem : ∀ {id}, id ∈ s'.byID → id ∈ s.byID
  keep : ∀ {id k'}, s'.byID.lookup id = some k' → ∃ k, s.byID.lookup id = some k ∧
    k'.id = k.id ∧ k'.results = k.results ∧ k'.backlinks = k.backlinks ∧
    (∀ lt ∈ k'.links, lt ∈ k.links) ∧ ∀ lt ∈ k.links, ¬ X lt.2 → lt ∈ k'.links
  gone : ∀ {id k}, s.byID.lookup id = some k → id ∉ s'.byID →
    X id ∧ k.results.keys = [] ∧ ∀ lt ∈ k.links, X lt.2

/-- The number of keys off the stack `P`. -/
def liveOutside (s : InMemoryStore) (P : List String) : Nat :=
  (s.byID.keys.toFinset.filter (· ∉ P)).card

variable {s s' s₁ s₂ : InMemoryStore} {X Y : String → Prop}

namespace Shrinks

theorem refl : s.Shrinks s X where
  byResult_eq := rfl
  mem h := h
  keep {_ k'} h := ⟨k', h, rfl, rfl, rfl, fun _ h => h, fun _ h _ => h⟩
  gone h hn := absurd (mem_byID_of_lookup h) hn

theorem mono (h : s.Shrinks s' X) (hXY : ∀ id, X id → Y id) : s.Shrinks s' Y where
  byResult_eq := h.byResult_eq
  mem := h.mem
  keep hk := by
    obtain ⟨k, hk, hi, hr, hb, hsub, hkept⟩ := h.keep hk
    exact ⟨k, hk, hi, hr, hb, hsub, fun lt hlt hY => hkept lt hlt fun hX => hY (hXY _ hX)⟩
  gone hk hn := by
    obtain ⟨hX, hr, hl⟩ := h.gone hk hn
    exact ⟨hXY _ hX, hr, fun lt hlt => hXY _ (hl lt hlt)⟩

theorem trans (h₁ : s.Shrinks s₁ X) (h₂ : s₁.Shrinks s₂ Y) :
    s.Shrinks s₂ (fun id => X id ∨ Y id) where
  byResult_eq := h₂.byResult_eq.trans h₁.byResult_eq
  mem h := h₁.mem (h₂.mem h)
  keep hk₂ := by
    obtain ⟨k₁, hk₁, hi₁, hr₁, hb₁, hsub₁, hkept₁⟩ := h₂.keep hk₂
    obtain ⟨k, hk, hi, hr, hb, hsub, hkept⟩ := h₁.keep hk₁
    refine ⟨k, hk, hi₁.trans hi, hr₁.trans hr, hb₁.trans hb,
      fun lt hlt => hsub lt (hsub₁ lt hlt), fun lt hlt hXY => ?_⟩
    exact hkept₁ lt (hkept lt hlt fun hX => hXY (.inl hX)) fun hY => hXY (.inr hY)
  gone {id k} hk hn := by
    by_cases hmem : id ∈ s₁.byID
    · -- deleted by the second step: its links in `s` point into `X` or survive into `s₁`
      obtain ⟨k₁, hk₁⟩ := mem_byID_iff.mp hmem
      obtain ⟨hY, hr, hl⟩ := h₂.gone hk₁ hn
      obtain ⟨k', hk', -, hr', -, -, hkept⟩ := h₁.keep hk₁
      rw [hk] at hk'
      cases hk'
      refine ⟨.inr hY, hr' ▸ hr, fun lt hlt => ?_⟩
      by_cases hX : X lt.2
      · exact .inl hX
      · exact .inr (hl lt (hkept lt hlt hX))
    · obtain ⟨hX, hr, hl⟩ := h₁.gone hk hmem
      exact ⟨.inl hX, hr, fun lt hlt => .inl (hl lt hlt)⟩

theorem linksTo (h : s.Shrinks s' X) {p t : String} (hl : s'.LinksTo p t) : s.LinksTo p t := by
  obtain ⟨k', hk', l, hlt⟩ := hl
  obtain ⟨k, hk, -, -, -, hsub, -⟩ := h.keep hk'
  exact ⟨k, hk, l, hsub _ hlt⟩

/-- A link to a key outside `X` survives, together with the key holding it. -/
theorem linksTo_iff (h : s.Shrinks s' X) {p t : String} (ht : ¬ X t) :
    s'.LinksTo p t ↔ s.LinksTo p t := by
  refine ⟨h.linksTo, ?_⟩
  rintro ⟨kp, hkp, l, hl⟩
  by_cases hp : p ∈ s'.byID
  · obtain ⟨kp', hkp'⟩ := mem_byID_iff.mp hp
    obtain ⟨k₀, hk₀, -, -, -, -, hkept⟩ := h.keep hkp'
    rw [hkp] at hk₀
    cases hk₀
    exact ⟨kp', hkp', l, hkept _ hl ht⟩
  · exact absurd ((h.gone hkp hp).2.2 _ hl) ht

end Shrinks

theorem shrinks_removeLinksTo {x kid : String} {p : InMemoryKey} (hp : s.byID.lookup x = some p) :
    s.Shrinks ⟨s.byID.insert x (p.removeLinksTo kid), s.byResult⟩ (· = kid) where
  byResult_eq := rfl
  mem {id} h := by
    rcases (AList.mem_insert _).mp h with rfl | h
    · exact mem_byID_of_lookup hp
    · exact h
  keep {id k'} h := by
    by_cases hid : id = x
    · subst hid
      rw [AList.lookup_insert] at h
      cases h
      exact ⟨p, hp, rfl, rfl, rfl, fun lt hlt => (InMemoryKey.mem_removeLinksTo.mp hlt).1,
        fun lt hlt hne => InMemoryKey.mem_removeLinksTo.mpr ⟨hlt, hne⟩⟩
    · rw [AList.lookup_insert_ne hid] at h
      exact ⟨k', h, rfl, rfl, rfl, fun _ h => h, fun _ h _ => h⟩
  gone hk hn := absurd ((AList.mem_insert _).mpr (.inr (mem_byID_of_lookup hk))) hn

theorem shrinks_erase {kid : String} {k : InMemoryKey} (hk : s.byID.lookup kid = some k)
    (hr : k.results.keys = []) (hl : k.links = []) :
    s.Shrinks ⟨s.byID.erase kid, s.byResult⟩ (· = kid) where
  byResult_eq := rfl
  mem h := (AList.mem_erase.mp h).2
  keep {id k'} h := by
    have hid : id ≠ kid := by
      rintro rfl
      rw [AList.lookup_erase] at h
      cases h
    rw [AList.lookup_erase_ne hid] at h
    exact ⟨k', h, rfl, rfl, rfl, fun _ h => h, fun _ h _ => h⟩
  gone {id k'} hk' hn := by
    have hid : id = kid := by
      by_contra hid
      exact hn (AList.mem_erase.mpr ⟨hid, mem_byID_of_lookup hk'⟩)
    subst hid
    rw [hk] at hk'
    cases hk'
    exact ⟨rfl, hr, by simp [hl]⟩

theorem Shrinks.lookup_eq (h : s.Shrinks s' X) {id : String} {k : InMemoryKey}
    (hk : s.byID.lookup id = some k) (hl : k.links = []) (hmem : id ∈ s'.byID) :
    s'.byID.lookup id = some k := by
  obtain ⟨k', hk'⟩ := mem_byID_iff.mp hmem
  obtain ⟨k₀, hk₀, hi, hr, hb, hsub, -⟩ := h.keep hk'
  rw [hk] at hk₀
  cases hk₀
  have hl' : k'.links = [] := List.eq_nil_iff_forall_not_mem.mpr fun lt hlt => by
    simpa [hl] using hsub lt hlt
  rw [hk', InMemoryKey.ext' hi hr (hl'.trans hl.symm) hb]

theorem not_linksTo_of_links_nil {p t : String} {kp : InMemoryKey}
    (hp : s.byID.lookup p = some kp) (hl : kp.links = []) : ¬ s.LinksTo p t := by
  rintro ⟨kp', hkp', l, hlt⟩
  rw [hp] at hkp'
  cases hkp'
  simp [hl] at hlt

theorem liveOutside_lt {P : List String} {id : String} (hmem : ∀ {x}, x ∈ s'.byID → x ∈ s.byID)
    (hid : id ∈ s.byID) (hP : id ∉ P) : s'.liveOutside (id :: P) < s.liveOutside P := by
  unfold liveOutside
  apply Finset.card_lt_card
  rw [Finset.ssubset_iff_of_subset]
  · exact ⟨id, by simp [← AList.mem_keys, hid, hP], by simp⟩
  · intro x
    simp only [Finset.mem_filter, List.mem_toFinset, ← AList.mem_keys, List.mem_cons, not_or]
    exact fun ⟨hx, _, hxP⟩ => ⟨hmem hx, hxP⟩

theorem liveOutside_nil_lt_releaseFuel : s.liveOutside [] < s.releaseFuel :=
  calc s.liveOutside [] ≤ s.byID.keys.toFinset.card := Finset.card_filter_le _ _
    _ ≤ s.byID.keys.length := List.toFinset_card_le _
    _ < s.releaseFuel := Nat.lt_succ_self _

namespace CascadeInv

variable {P Q Q' : List String} {k : InMemoryKey}

theorem push (h : s.CascadeInv P) (hk : s.byID.lookup k.id = some k)
    (hr : k.results.keys = []) (hl : k.links = []) : s.CascadeInv (k.id :: P) where
  id_eq := h.id_eq
  target_mem := h.target_mem
  pending {t} ht := by
    rcases List.mem_cons.mp ht with rfl | ht
    · exact ⟨k, hk, hr, hl⟩
    · exact h.pending ht
  exact hkt ht := h.exact hkt fun htP => ht (List.mem_cons_of_mem _ htP)
  complete := h.complete

/-- The cascade invariant carries over a shrinking step that keeps the keys of the new stack `Q'`
and leaves every other surviving key outside `X` and the old stack `Q`. -/
theorem shrinks (h : s.CascadeInv Q) (hs : s.Shrinks s' X)
    (htarget : ∀ {id k l t}, s'.byID.lookup id = some k → (l, t) ∈ k.links → t ∈ s'.byID)
    (hpending : ∀ {t}, t ∈ Q' → t ∈ Q ∧ t ∈ s'.byID)
    (hexact : ∀ {t}, t ∈ s'.byID → t ∉ Q' → ¬ X t ∧ t ∉ Q) : s'.CascadeInv Q' where
  id_eq hk' := by
    obtain ⟨k, hk, hi, -⟩ := hs.keep hk'
    rw [hi]
    exact h.id_eq hk
  target_mem := htarget
  pending ht := by
    obtain ⟨htQ, hmem⟩ := hpending ht
    obtain ⟨kt, hkt, hr, hl⟩ := h.pending htQ
    refine ⟨kt, hs.lookup_eq hkt hl hmem, hr, hl⟩
  exact hkt' htQ' := by
    obtain ⟨hX, htQ⟩ := hexact (mem_byID_of_lookup hkt') htQ'
    obtain ⟨kt, hkt, -, -, hb, -, -⟩ := hs.keep hkt'
    rw [hb, hs.linksTo_iff hX]
    exact h.exact hkt htQ
  complete hkt' hl := by
    obtain ⟨kt, hkt, -, -, hb, -, -⟩ := hs.keep hkt'
    rw [hb]
    exact h.complete hkt (hs.linksTo hl)

/-- Removing the links to a key of the stack from one key. -/
theorem removeLinksTo (h : s.CascadeInv Q) {x kid : String} {p : InMemoryKey}
    (hp : s.byID.lookup x = some p) (hkid : kid ∈ Q) :
    (⟨s.byID.insert x (p.removeLinksTo kid), s.byResult⟩ : InMemoryStore).CascadeInv Q := by
  have hs : s.Shrinks ⟨s.byID.insert x (p.removeLinksTo kid), s.byResult⟩ (· = kid) :=
    shrinks_removeLinksTo hp
  have hmem : ∀ {t}, t ∈ s.byID → t ∈ s.byID.insert x (p.removeLinksTo kid) :=
    fun ht => (AList.mem_insert _).mpr (.inr ht)
  refine h.shrinks hs (fun hk hlt => ?_) (fun ht => ?_) (fun _ htQ => ?_)
  · obtain ⟨k, hk, -, -, -, hsub, -⟩ := hs.keep hk
    exact hmem (h.target_mem hk (hsub _ hlt))
  · obtain ⟨kt, hkt, -⟩ := h.pending ht
    exact ⟨ht, hmem (mem_byID_of_lookup hkt)⟩
  · exact ⟨fun hX => htQ (hX ▸ hkid), htQ⟩

/-- Deleting the key on top of the stack once nobody links to it. -/
theorem erase (h : s.CascadeInv (k.id :: P)) (hk : s.byID.lookup k.id = some k)
    (hr : k.results.keys = []) (hl : k.links = []) (hkP : k.id ∉ P)
    (hun : ∀ p, ¬ s.LinksTo p k.id) :
    (⟨s.byID.erase k.id, s.byResult⟩ : InMemoryStore).CascadeInv P := by
  have hs := shrinks_erase hk hr hl
  refine h.shrinks hs (fun hq hlt => ?_) (fun ht => ?_) (fun ht htP => ?_)
  · obtain ⟨q, hq, -, -, -, hsub, -⟩ := hs.keep hq
    refine AList.mem_erase.mpr ⟨?_, h.target_mem hq (hsub _ hlt)⟩
    rintro rfl
    exact hun _ ⟨q, hq, _, hsub _ hlt⟩
  · obtain ⟨kt, hkt, -⟩ := h.pending (List.mem_cons_of_mem _ ht)
    refine ⟨List.mem_cons_of_mem _ ht, AList.mem_erase.mpr ⟨?_, mem_byID_of_lookup hkt⟩⟩
    rintro rfl
    exact hkP ht
  · have hne := (AList.mem_erase.mp ht).1
    exact ⟨hne, by simp [hne, htP]⟩

/-- A key in the backlinks of a key `k` off the stack links to `k`; so it is off the stack, and
it is not `k` itself once `k` has no links. -/
theorem backlink_off_stack (h : s.CascadeInv P) (hk : s.byID.lookup k.id = some k)
    (hkP : k.id ∉ P) (hl : k.links = []) {x : String} (hx : x ∈ k.backlinks) :
    x ∉ k.id :: P := by
  obtain ⟨kx, hkx, hlinks⟩ := (h.exact hk hkP).mp hx
  intro hmem
  rcases List.mem_cons.mp hmem with hxk | hxP
  · subst hxk
    exact not_linksTo_of_links_nil hk hl ⟨kx, hkx, hlinks⟩
  · obtain ⟨kx', hkx', -, hl'⟩ := h.pending hxP
    exact not_linksTo_of_links_nil hkx' hl' ⟨kx, hkx, hlinks⟩

end CascadeInv

theorem Inv.cascadeInv (hs : s.Inv) : s.CascadeInv [] where
  id_eq := hs.id_eq
  target_mem := hs.target_mem
  pending ht := absurd ht List.not_mem_nil
  exact hkt _ := hs.backlinks_iff hkt
  complete hkt hl := (hs.backlinks_iff hkt).mpr hl

/-- What `emptyBranchWithParents` does, given the stack `P` and a budget `n` above the number of
keys off the stack: it succeeds, keeps the cascade invariant, and only deletes keys and the links
to deleted keys. -/
def CascadeSpec (recurse : InMemoryStore → InMemoryKey → Option InMemoryStore) (n : Nat) : Prop :=
  ∀ {P : List String} {s : InMemoryStore} {k : InMemoryKey}, s.CascadeInv P →
    s.byID.lookup k.id = some k → k.id ∉ P → s.liveOutside P < n →
    ∃ s', recurse s k = some s' ∧ s'.CascadeInv P ∧ s.Shrinks s' (· ∉ s'.byID)

/-- The invariant of the loop of `emptyBranchWithParents s k` over the backlinks of `k`, once it
has visited `done`: `k` is on the stack and unchanged, and none of `done` links to it. -/
structure LoopInv (s : InMemoryStore) (P : List String) (k : InMemoryKey) (done : List String)
    (t : InMemoryStore) : Prop where
  cascade : t.CascadeInv (k.id :: P)
  lookup_self : t.byID.lookup k.id = some k
  shrinks : s.Shrinks t (fun id => id ∉ t.byID ∨ id = k.id)
  unlinked : ∀ p ∈ done, ¬ t.LinksTo p k.id

namespace LoopInv

variable {P : List String} {k : InMemoryKey}

theorem init (h : s.CascadeInv P) (hk : s.byID.lookup k.id = some k)
    (hr : k.results.keys = []) (hl : k.links = []) : LoopInv s P k [] s where
  cascade := h.push hk hr hl
  lookup_self := hk
  shrinks := .refl
  unlinked _ hp := absurd hp List.not_mem_nil

/-- One iteration: the links to `k` leave the key `x`, and the recursion into `x` keeps `k`. -/
theorem emptyParent {recurse : InMemoryStore → InMemoryKey → Option InMemoryStore} {n : Nat}
    (hrec : CascadeSpec recurse n) (h : s.CascadeInv P) (hk : s.byID.lookup k.id = some k)
    (hkP : k.id ∉ P) (hl : k.links = []) (hfuel : s.liveOutside P ≤ n) {done : List String}
    {x : String} {t : InMemoryStore} (hx : x ∈ k.backlinks) (hI : LoopInv s P k done t) :
    ∃ t', emptyParent recurse k.id t x = some t' ∧ LoopInv s P k (done ++ [x]) t' := by
  cases hp : t.byID.lookup x with
  | none =>
    refine ⟨t, by simp [InMemoryStore.emptyParent, hp], { hI with unlinked := ?_ }⟩
    intro p hpd ⟨kp, hkp, _⟩
    rcases List.mem_append.mp hpd with hpd | hpx
    · exact hI.unlinked p hpd ⟨kp, hkp, ‹_›⟩
    · rw [List.mem_singleton.mp hpx, hp] at hkp
      cases hkp
  | some p =>
    have hxQ : x ∉ k.id :: P := h.backlink_off_stack hk hkP hl hx
    have hpx : p.id = x := hI.cascade.id_eq hp
    set t₁ : InMemoryStore := ⟨t.byID.insert x (p.removeLinksTo k.id), t.byResult⟩ with ht₁
    have hs₁ : t.Shrinks t₁ (· = k.id) := shrinks_removeLinksTo hp
    have hc₁ : t₁.CascadeInv (k.id :: P) := hI.cascade.removeLinksTo hp List.mem_cons_self
    have hlt : t₁.liveOutside (k.id :: P) < n := by
      have := liveOutside_lt (fun hy => hI.shrinks.mem (hs₁.mem hy)) (mem_byID_of_lookup hk) hkP
      omega
    obtain ⟨t₂, hrec₂, hc₂, hs₂⟩ :=
      hrec (k := p.removeLinksTo k.id) hc₁
        (by rw [InMemoryKey.removeLinksTo_id, hpx, AList.lookup_insert]) (by simpa [hpx] using hxQ) hlt
    have hsub : ∀ {y}, y ∈ t₂.byID → y ∈ t.byID := fun hy => hs₁.mem (hs₂.mem hy)
    refine ⟨t₂, by simpa [InMemoryStore.emptyParent, hp] using hrec₂, ?_⟩
    obtain ⟨kt, hkt, -⟩ := hc₂.pending List.mem_cons_self
    refine ⟨hc₂, (hs₁.trans hs₂).lookup_eq hI.lookup_self hl (mem_byID_of_lookup hkt), ?_, ?_⟩
    · -- deleted keys stay deleted, and `k` is the only key whose links went without it
      refine (hI.shrinks.trans (hs₁.trans hs₂)).mono fun y hy => ?_
      rcases hy with (hy | hy) | hy | hy
      · exact .inl fun h₂ => hy (hsub h₂)
      · exact .inr hy
      · exact .inr hy
      · exact .inl hy
    · intro q hq hlinks
      rcases List.mem_append.mp hq with hq | hqx
      · exact hI.unlinked q hq (hs₁.linksTo (hs₂.linksTo hlinks))
      · -- the key `x` has just lost its links to `k`
        rw [List.mem_singleton.mp hqx] at hlinks
        obtain ⟨kq, hkq, l, hlq⟩ := hs₂.linksTo hlinks
        simp only [t₁, AList.lookup_insert, Option.some.injEq] at hkq
        subst hkq
        exact (InMemoryKey.mem_removeLinksTo.mp hlq).2 rfl

end LoopInv

theorem emptyBranchWithParents_of_ne (ord : IterOrder String) (fuel : Nat) {k : InMemoryKey}
    (hk : ¬ (k.results.keys = [] ∧ k.links = [])) :
    emptyBranchWithParents ord fuel s k = some s := by
  unfold emptyBranchWithParents
  rw [if_neg hk]

/-- The cascade meets its specification, by induction on the fuel: each recursive call is one
level deeper on the stack and has one key fewer off it. -/
theorem emptyBranchWithParents_spec (ord : IterOrder String) (fuel : Nat) :
    CascadeSpec (emptyBranchWithParents ord fuel) fuel := by
  induction fuel with
  | zero => exact fun _ _ _ hfuel => absurd hfuel (Nat.not_lt_zero _)
  | succ n ih =>
    intro P s k h hk hkP hfuel
    by_cases hemp : k.results.keys = [] ∧ k.links = []
    · obtain ⟨t, hloop, hI⟩ := Loop.foldlM_rule (LoopInv s P k) (ord.order k.backlinks)
        (fun done x rest t hsplit hI => hI.emptyParent ih h hk hkP hemp.2 (by omega)
          ((ord.mem_order).mp (by rw [← hsplit]; simp))) (LoopInv.init h hk hemp.1 hemp.2)
      -- whoever links to `k` is in its backlinks, all of which the loop visited
      have hun : ∀ p, ¬ t.LinksTo p k.id := fun p hp =>
        hI.unlinked p ((ord.mem_order).mpr (hI.cascade.complete hI.lookup_self hp)) hp
      have hs₁ := shrinks_erase hI.lookup_self hemp.1 hemp.2
      refine ⟨_, by simp [emptyBranchWithParents, hemp, hloop],
        hI.cascade.erase hI.lookup_self hemp.1 hemp.2 hkP hun, ?_⟩
      refine (hI.shrinks.trans hs₁).mono fun y hy => ?_
      rcases hy with (hy | hy) | hy
      · exact fun hy' => hy (AList.mem_erase.mp hy').2
      · exact fun hy' => (AList.mem_erase.mp hy').1 hy
      · exact fun hy' => (AList.mem_erase.mp hy').1 hy
    · exact ⟨s, emptyBranchWithParents_of_ne ord _ hemp, h, .refl⟩

/-! ## One iteration of `Release` -/

theorem lookup_dropResult (s : InMemoryStore) (r id : String) (k : InMemoryKey) (y : String) :
    (s.dropResult r id k).byID.lookup y =
      if y = id then some { k with results := k.results.erase r } else s.byID.lookup y := by
  by_cases hy : y = id
  · subst hy
    simp [dropResult]
  · simp [dropResult, hy, AList.lookup_insert_ne hy]

theorem byResult_dropResult (s : InMemoryStore) (r id : String) (k : InMemoryKey) (x : String) :
    (s.dropResult r id k).byResult.lookup x =
      if x = r then
        (if ((s.byResult.lookup r).getD []).erase id = [] then none
          else some (((s.byResult.lookup r).getD []).erase id))
      else s.byResult.lookup x := by
  by_cases hx : x = r
  · subst hx
    by_cases he : ((s.byResult.lookup x).getD []).erase id = [] <;> simp [dropResult, he]
  · by_cases he : ((s.byResult.lookup r).getD []).erase id = [] <;>
      simp [dropResult, he, hx, AList.lookup_erase_ne hx, AList.lookup_insert_ne hx]

variable {r id : String} {k : InMemoryKey}

theorem Inv.nodup_getD (hs : s.Inv) (r : String) : ((s.byResult.lookup r).getD []).Nodup := by
  cases h : s.byResult.lookup r with
  | none => exact List.nodup_nil
  | some ids => exact hs.byResult_nodup h

theorem results_dropResult (hk : s.byID.lookup id = some k) {y x : String} :
    (∃ k', (s.dropResult r id k).byID.lookup y = some k' ∧ x ∈ k'.results) ↔
      (∃ k', s.byID.lookup y = some k' ∧ x ∈ k'.results) ∧ ¬ (x = r ∧ y = id) := by
  rw [lookup_dropResult]
  by_cases hy : y = id
  · subst hy
    simp [hk, AList.mem_erase, and_comm]
  · simp [hy]

theorem byResult_mem_dropResult (hs : s.Inv) {y x : String} :
    (∃ ids, (s.dropResult r id k).byResult.lookup x = some ids ∧ y ∈ ids) ↔
      (∃ ids, s.byResult.lookup x = some ids ∧ y ∈ ids) ∧ ¬ (x = r ∧ y = id) := by
  rw [byResult_dropResult, ← mem_getD_byResult]
  by_cases hx : x = r
  · subst hx
    -- the entry of `r` loses `id`, and `id` was listed at most once
    have hmem := (hs.nodup_getD x).mem_erase_iff (a := y) (b := id)
    by_cases he : ((s.byResult.lookup x).getD []).erase id = []
    · simp only [he, if_true, reduceCtorEq, false_and, exists_false, false_iff]
      rw [he] at hmem
      simp only [List.not_mem_nil, false_iff, not_and] at hmem
      tauto
    · simp [he, hmem, and_comm]
  · simp [hx, mem_getD_byResult]

theorem links_dropResult (hk : s.byID.lookup id = some k) {y : String}
    {lt : CacheInfoLink × String} :
    (∃ k', (s.dropResult r id k).byID.lookup y = some k' ∧ lt ∈ k'.links) ↔
      ∃ k', s.byID.lookup y = some k' ∧ lt ∈ k'.links := by
  rw [lookup_dropResult]
  by_cases hy : y = id
  · subst hy
    simp [hk]
  · simp [hy]

theorem linksTo_dropResult (hk : s.byID.lookup id = some k) {p t : String} :
    (s.dropResult r id k).LinksTo p t ↔ s.LinksTo p t := by
  unfold LinksTo
  constructor
  · rintro ⟨kp, hkp, l, hl⟩
    obtain ⟨kp', hkp', hl'⟩ := (links_dropResult hk).mp ⟨kp, hkp, hl⟩
    exact ⟨kp', hkp', l, hl'⟩
  · rintro ⟨kp, hkp, l, hl⟩
    obtain ⟨kp', hkp', hl'⟩ := (links_dropResult (r := r) hk).mpr ⟨kp, hkp, hl⟩
    exact ⟨kp', hkp', l, hl'⟩

theorem mem_dropResult (hk : s.byID.lookup id = some k) {y : String} :
    y ∈ (s.dropResult r id k).byID ↔ y ∈ s.byID := by
  simp only [mem_byID_iff, lookup_dropResult]
  by_cases hy : y = id
  · subst hy
    simp [hk]
  · simp [hy]

theorem Inv.dropResult (hs : s.Inv) (hk : s.byID.lookup id = some k) :
    (s.dropResult r id k).Inv where
  id_eq {y k'} h := by
    rw [lookup_dropResult] at h
    split at h
    · cases h
      subst y
      exact (hs.id_eq hk : k.id = id)
    · exact hs.id_eq h
  results_iff {y x} := by
    rw [results_dropResult hk, byResult_mem_dropResult hs, hs.results_iff]
  byResult_ne {x ids} h := by
    rw [byResult_dropResult] at h
    split_ifs at h with hx he
    · cases h
      exact he
    · exact hs.byResult_ne h
  byResult_nodup {x ids} h := by
    rw [byResult_dropResult] at h
    split_ifs at h with hx he
    · cases h
      exact (hs.nodup_getD r).erase id
    · exact hs.byResult_nodup h
  target_mem {y k' l t} h hlt := by
    obtain ⟨k₀, hk₀, hl₀⟩ := (links_dropResult hk).mp ⟨k', h, hlt⟩
    exact (mem_dropResult hk).mpr (hs.target_mem hk₀ hl₀)
  backlinks_iff {t kt p} h := by
    rw [linksTo_dropResult hk]
    rw [lookup_dropResult] at h
    split at h
    · cases h
      subst t
      exact (hs.backlinks_iff hk : p ∈ k.backlinks ↔ _)
    · exact hs.backlinks_iff h

/-- A cascade from a store satisfying the invariant ends in one: the keys it deletes hold no
results, so the index stays exact. -/
theorem Inv.of_cascade (hs : s.Inv) (hsh : s.Shrinks s' (· ∉ s'.byID))
    (hc : s'.CascadeInv []) : s'.Inv where
  id_eq := hc.id_eq
  results_iff {y x} := by
    rw [hsh.byResult_eq, ← hs.results_iff]
    constructor
    · rintro ⟨k', hk', hx⟩
      obtain ⟨k, hk, -, hr, -⟩ := hsh.keep hk'
      exact ⟨k, hk, hr ▸ hx⟩
    · rintro ⟨k, hk, hx⟩
      by_cases hy : y ∈ s'.byID
      · obtain ⟨k', hk'⟩ := mem_byID_iff.mp hy
        obtain ⟨k₀, hk₀, -, hr, -⟩ := hsh.keep hk'
        rw [hk] at hk₀
        cases hk₀
        exact ⟨k', hk', hr ▸ hx⟩
      · have hkeys := (hsh.gone hk hy).2.1
        rw [AList.mem_keys, hkeys] at hx
        exact absurd hx List.not_mem_nil
  byResult_ne h := hs.byResult_ne (hsh.byResult_eq ▸ h)
  byResult_nodup h := hs.byResult_nodup (hsh.byResult_eq ▸ h)
  target_mem := hc.target_mem
  backlinks_iff hkt := hc.exact hkt List.not_mem_nil

/-! ## What `Release` does -/

/-- `s'` is what `Release r` leaves of `s`: every remaining key keeps its ID, its results other
than `r`, its backlinks, and exactly its links to remaining keys; a key goes only if it held no
result but `r` and its links all pointed to keys that went. -/
structure Released (s s' : InMemoryStore) (r : String) : Prop where
  mem : ∀ {id}, id ∈ s'.byID → id ∈ s.byID
  keep : ∀ {id k'}, s'.byID.lookup id = some k' → ∃ k, s.byID.lookup id = some k ∧
    k'.id = k.id ∧ (∀ x, x ≠ r → k'.results.lookup x = k.results.lookup x) ∧
    k'.backlinks = k.backlinks ∧ ∀ lt, lt ∈ k'.links ↔ lt ∈ k.links ∧ lt.2 ∈ s'.byID
  gone : ∀ {id k}, s.byID.lookup id = some k → id ∉ s'.byID →
    (∀ x ∈ k.results, x = r) ∧ ∀ lt ∈ k.links, lt.2 ∉ s'.byID

theorem Inv.released_refl (hs : s.Inv) (r : String) : s.Released s r where
  mem h := h
  keep {_ k} h := ⟨k, h, rfl, fun _ _ => rfl, rfl, fun _ =>
    ⟨fun hlt => ⟨hlt, hs.target_mem h hlt⟩, fun h => h.1⟩⟩
  gone h hn := absurd (mem_byID_of_lookup h) hn

theorem Released.trans {s₁ s₂ : InMemoryStore} (h₁ : s.Released s₁ r) (h₂ : s₁.Released s₂ r) :
    s.Released s₂ r where
  mem h := h₁.mem (h₂.mem h)
  keep hk₂ := by
    obtain ⟨k₁, hk₁, hi₁, hr₁, hb₁, hl₁⟩ := h₂.keep hk₂
    obtain ⟨k, hk, hi, hr, hb, hl⟩ := h₁.keep hk₁
    refine ⟨k, hk, hi₁.trans hi, fun x hx => (hr₁ x hx).trans (hr x hx), hb₁.trans hb,
      fun lt => ?_⟩
    rw [hl₁, hl]
    exact ⟨fun ⟨⟨hlt, _⟩, h⟩ => ⟨hlt, h⟩, fun ⟨hlt, h⟩ => ⟨⟨hlt, h₂.mem h⟩, h⟩⟩
  gone {id k} hk hn := by
    by_cases h₁mem : id ∈ s₁.byID
    · -- the key went in the second part: what it kept from `s` went with it
      obtain ⟨k₁, hk₁⟩ := mem_byID_iff.mp h₁mem
      obtain ⟨hr₂, hl₂⟩ := h₂.gone hk₁ hn
      obtain ⟨k₀, hk₀, -, hr₁, -, hl₁⟩ := h₁.keep hk₁
      rw [hk] at hk₀
      cases hk₀
      refine ⟨fun x hx => ?_, fun lt hlt => ?_⟩
      · by_contra hxr
        have : x ∈ k₁.results := by
          rw [← AList.lookup_isSome, hr₁ x hxr, AList.lookup_isSome]
          exact hx
        exact hxr (hr₂ x this)
      · by_cases ht : lt.2 ∈ s₁.byID
        · exact hl₂ lt ((hl₁ lt).mpr ⟨hlt, ht⟩)
        · exact fun h => ht (h₂.mem h)
    · obtain ⟨hr, hl⟩ := h₁.gone hk h₁mem
      exact ⟨hr, fun lt hlt h => hl lt hlt (h₂.mem h)⟩

/-- A cascade only takes what `Release` may take. -/
theorem Shrinks.released (h : s.Shrinks s' (· ∉ s'.byID))
    (htarget : ∀ {id k l t}, s'.byID.lookup id = some k → (l, t) ∈ k.links → t ∈ s'.byID) :
    s.Released s' r where
  mem := h.mem
  keep hk' := by
    obtain ⟨k, hk, hi, hr, hb, hsub, hkept⟩ := h.keep hk'
    refine ⟨k, hk, hi, fun x _ => by rw [hr], hb, fun lt => ⟨fun hlt => ?_, fun ⟨hlt, ht⟩ => ?_⟩⟩
    · exact ⟨hsub lt hlt, htarget hk' hlt⟩
    · exact hkept lt hlt (not_not.mpr ht)
  gone hk hn := by
    obtain ⟨-, hr, hl⟩ := h.gone hk hn
    refine ⟨fun x hx => ?_, hl⟩
    rw [AList.mem_keys, hr] at hx
    exact absurd hx List.not_mem_nil

theorem released_dropResult (hs : s.Inv) (hk : s.byID.lookup id = some k) :
    s.Released (s.dropResult r id k) r where
  mem h := (mem_dropResult hk).mp h
  keep {y k'} h := by
    rw [lookup_dropResult] at h
    split at h
    · cases h
      subst y
      refine ⟨k, hk, rfl, fun x hx => AList.lookup_erase_ne hx, rfl, fun lt => ?_⟩
      rw [mem_dropResult hk]
      exact ⟨fun hlt => ⟨hlt, hs.target_mem hk hlt⟩, fun h => h.1⟩
    · refine ⟨k', h, rfl, fun _ _ => rfl, rfl, fun lt => ?_⟩
      rw [mem_dropResult hk]
      exact ⟨fun hlt => ⟨hlt, hs.target_mem h hlt⟩, fun h => h.1⟩
  gone h hn := absurd ((mem_dropResult hk).mpr (mem_byID_of_lookup h)) hn

/-- One iteration of the loop of `Release`: it succeeds, keeps the invariant, only takes what
`Release` may, and takes `id` off the index entry of `r`. -/
theorem Inv.releaseKey (hs : s.Inv) (ord : IterOrder String) (r id : String) :
    ∃ s', releaseKey ord r s id = some s' ∧ s'.Inv ∧ s.Released s' r ∧
      ∀ y, y ∈ (s'.byResult.lookup r).getD [] ↔ y ∈ (s.byResult.lookup r).getD [] ∧ y ≠ id := by
  cases hk : s.byID.lookup id with
  | none =>
    refine ⟨s, by simp [InMemoryStore.releaseKey, hk], hs, hs.released_refl r, fun y => ?_⟩
    -- a key of the index entry is known, so it is not `id`
    refine ⟨fun hy => ⟨hy, ?_⟩, fun h => h.1⟩
    rintro rfl
    obtain ⟨k, hk', -⟩ := hs.results_iff.mpr (mem_getD_byResult.mp hy)
    rw [hk] at hk'
    cases hk'
  | some k =>
    set s₁ := s.dropResult r id k
    have hs₁ : s₁.Inv := hs.dropResult hk
    have hk₁ : s₁.byID.lookup id = some { k with results := k.results.erase r } := by
      simp [s₁, lookup_dropResult]
    obtain ⟨s', hcasc, hc, hsh⟩ := emptyBranchWithParents_spec ord s₁.releaseFuel hs₁.cascadeInv
      (by rw [← hk₁, hs.id_eq hk]) List.not_mem_nil liveOutside_nil_lt_releaseFuel
    refine ⟨s', by simpa [InMemoryStore.releaseKey, hk] using hcasc, hs₁.of_cascade hsh hc,
      (released_dropResult hs hk).trans (hsh.released hc.target_mem), fun y => ?_⟩
    rw [hsh.byResult_eq, mem_getD_byResult, byResult_mem_dropResult hs, mem_getD_byResult]
    simp

theorem Inv.release (hs : s.Inv) (ord : IterOrder String) (r : String) :
    ∃ s', s.release ord r = some s' ∧ s'.Inv ∧ s.Released s' r ∧
      ∀ {id k'}, s'.byID.lookup id = some k' → r ∉ k'.results := by
  -- a key holding `r` is listed in the index entry of `r`
  have hnot : ∀ {t : InMemoryStore}, t.Inv → (t.byResult.lookup r).getD [] = [] →
      ∀ {id k'}, t.byID.lookup id = some k' → r ∉ k'.results := fun ht he id k' hk' hr => by
    have := mem_getD_byResult.mpr (ht.results_iff.mp ⟨k', hk', hr⟩)
    rw [he] at this
    exact List.not_mem_nil this
  cases hr : s.byResult.lookup r with
  | none => exact ⟨s, by simp [InMemoryStore.release, hr], hs, hs.released_refl r,
      hnot hs (by simp [hr])⟩
  | some ids =>
    -- the loop over `ids` takes each key off the index entry in turn
    obtain ⟨t, hloop, ht, hrel, hpend⟩ := Loop.foldlM_rule
      (fun done t => t.Inv ∧ s.Released t r ∧
        ∀ y, y ∈ (t.byResult.lookup r).getD [] ↔ y ∈ ids ∧ y ∉ done) (ord.order ids)
      (fun done x rest t _ ⟨ht, hrel, hpend⟩ => by
        obtain ⟨t', hstep, ht', hrel', hpend'⟩ := ht.releaseKey ord r x
        refine ⟨t', hstep, ht', hrel.trans hrel', fun y => ?_⟩
        rw [hpend', hpend]
        simp [and_assoc])
      ⟨hs, hs.released_refl r, fun y => by simp [hr]⟩
    refine ⟨t, by simpa [InMemoryStore.release, hr] using hloop, ht, hrel, hnot ht ?_⟩
    exact List.eq_nil_iff_forall_not_mem.mpr fun y hy => ((hpend y).mp hy).2
      ((ord.mem_order).mpr ((hpend y).mp hy).1)

/-! ## Reachable stores -/

theorem inv_newInMemoryCacheStorage : newInMemoryCacheStorage.Inv where
  id_eq h := by simp [newInMemoryCacheStorage] at h
  results_iff := by simp [newInMemoryCacheStorage]
  byResult_ne h := by simp [newInMemoryCacheStorage] at h
  byResult_nodup h := by simp [newInMemoryCacheStorage] at h
  target_mem h := by simp [newInMemoryCacheStorage] at h
  backlinks_iff h := by simp [newInMemoryCacheStorage] at h

/-- Every operation keeps the invariant, so every reachable store satisfies it. -/
theorem Reachable.inv (h : s.Reachable) : s.Inv := by
  induction h with
  | init => exact inv_newInMemoryCacheStorage
  | step ord op _ happ ih =>
    cases op with
    | addResult id res =>
      cases happ
      exact ih.addResult id res
    | addLink id link target =>
      cases happ
      exact ih.addLink id link target
    | release r =>
      obtain ⟨s', hrel, hs', -⟩ := ih.release ord r
      rw [apply, hrel] at happ
      cases happ
      exact hs'

/-- The representation invariant holds of every reachable store, and from every reachable store
`Release r` terminates, in any iteration order, leaving no key with `r` and taking only what it
may (`Released`). -/
theorem reachable_inv_release (h : s.Reachable) :
    s.Inv ∧ ∀ (ord : IterOrder String) (r : String), ∃ s', s.release ord r = some s' ∧
      s.Released s' r ∧ ∀ {id k'}, s'.byID.lookup id = some k' → r ∉ k'.results := by
  refine ⟨h.inv, fun ord r => ?_⟩
  obtain ⟨s', hrel, -, hreleased, hfree⟩ := h.inv.release ord r
  exact ⟨s', hrel, hreleased, hfree⟩

theorem reachable_inv_release_link :
    (newInMemoryCacheStorage.addLink "a" ⟨0, 0, "d", ""⟩ "b").Reachable ∧
      (newInMemoryCacheStorage.addLink "a" ⟨0, 0, "d", ""⟩ "b").Inv :=
  have h : (newInMemoryCacheStorage.addLink "a" ⟨0, 0, "d", ""⟩ "b").Reachable :=
    .step IterOrder.stored (.addLink "a" ⟨0, 0, "d", ""⟩ "b") .init rfl
  ⟨h, (reachable_inv_release h).1⟩

end InMemoryStore

end Buildkit
