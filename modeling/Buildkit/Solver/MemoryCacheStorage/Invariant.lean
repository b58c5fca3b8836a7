import Buildkit.Solver.MemoryCacheStorage

/-!
# The representation invariant of the in-memory store

`InMemoryStore.Inv`: every key is stored under its own ID; a key holds a result exactly when the
index `byResult` lists it under that result, and the index has no empty entry; every link points
to a known key; and the backlinks of a key are exactly the keys linking to it.

Each update is described once by a lemma on `lookup` (`lookup_addResult`, `lookup_addLink`), and
the preservation proofs use these only. `Release` is treated in
`Buildkit.Solver.MemoryCacheStorage.Release`.
-/

namespace Buildkit

namespace InMemoryKey

theorem ext' {k k' : InMemoryKey} (hid : k.id = k'.id) (hr : k.results = k'.results)
    (hl : k.links = k'.links) (hb : k.backlinks = k'.backlinks) : k = k' := by
  cases k; cases k'; simp_all

@[simp] theorem removeLinksTo_id (k : InMemoryKey) (id : String) :
    (k.removeLinksTo id).id = k.id := rfl

@[simp] theorem mem_removeLinksTo {k : InMemoryKey} {id : String} {lt : CacheInfoLink × String} :
    lt ∈ (k.removeLinksTo id).links ↔ lt ∈ k.links ∧ lt.2 ≠ id := by
  simp [removeLinksTo]

end InMemoryKey

namespace InMemoryStore

/-- The key `p` holds a link to `t`. -/
def LinksTo (s : InMemoryStore) (p t : String) : Prop :=
  ∃ kp, s.byID.lookup p = some kp ∧ ∃ l, (l, t) ∈ kp.links

/-- The key of `id`, or the one `newInMemoryKey` would create for it. -/
def keyOf (s : InMemoryStore) (id : String) : InMemoryKey :=
  (s.byID.lookup id).getD (newInMemoryKey id)

/-- The representation invariant. -/
structure Inv (s : InMemoryStore) : Prop where
  id_eq : ∀ {id k}, s.byID.lookup id = some k → k.id = id
  results_iff : ∀ {id r}, (∃ k, s.byID.lookup id = some k ∧ r ∈ k.results) ↔
    ∃ ids, s.byResult.lookup r = some ids ∧ id ∈ ids
  byResult_ne : ∀ {r ids}, s.byResult.lookup r = some ids → ids ≠ []
  byResult_nodup : ∀ {r ids}, s.byResult.lookup r = some ids → ids.Nodup
  target_mem : ∀ {id k l t}, s.byID.lookup id = some k → (l, t) ∈ k.links → t ∈ s.byID
  backlinks_iff : ∀ {t kt p}, s.byID.lookup t = some kt → (p ∈ kt.backlinks ↔ s.LinksTo p t)

theorem mem_byID_of_lookup {s : InMemoryStore} {id : String} {k : InMemoryKey}
    (h : s.byID.lookup id = some k) : id ∈ s.byID :=
  AList.lookup_isSome.mp (by simp [h])

theorem keyOf_id {s : InMemoryStore} (hs : s.Inv) (id : String) : (s.keyOf id).id = id := by
  unfold keyOf
  cases h : s.byID.lookup id with
  | none => rfl
  | some k => exact hs.id_eq h

theorem mem_links_keyOf {s : InMemoryStore} {id : String} {lt : CacheInfoLink × String} :
    lt ∈ (s.keyOf id).links ↔ ∃ k, s.byID.lookup id = some k ∧ lt ∈ k.links := by
  unfold keyOf
  cases s.byID.lookup id <;> simp [newInMemoryKey]

theorem mem_results_keyOf {s : InMemoryStore} {id r : String} :
    r ∈ (s.keyOf id).results ↔ ∃ k, s.byID.lookup id = some k ∧ r ∈ k.results := by
  unfold keyOf
  cases s.byID.lookup id <;> simp [newInMemoryKey, AList.notMem_empty]

theorem mem_getD_byResult {s : InMemoryStore} {r id : String} :
    id ∈ (s.byResult.lookup r).getD [] ↔ ∃ ids, s.byResult.lookup r = some ids ∧ id ∈ ids := by
  cases s.byResult.lookup r <;> simp

theorem mem_byID_iff {s : InMemoryStore} {id : String} :
    id ∈ s.byID ↔ ∃ k, s.byID.lookup id = some k := by
  rw [← AList.lookup_isSome, Option.isSome_iff_exists]

/-- Nobody links to a key the store does not know. -/
theorem Inv.not_linksTo {s : InMemoryStore} (hs : s.Inv) {p t : String} (ht : t ∉ s.byID) :
    ¬ s.LinksTo p t := by
  rintro ⟨kp, hkp, l, hl⟩
  exact ht (hs.target_mem hkp hl)

/-! ## The effect of each update -/

theorem lookup_ensureKey (s : InMemoryStore) (id y : String) :
    (s.ensureKey id).byID.lookup y = if y = id then some (s.keyOf id) else s.byID.lookup y := by
  unfold ensureKey keyOf
  cases h : s.byID.lookup id with
  | none =>
    by_cases hy : y = id
    · subst hy; simp [AList.lookup_insert]
    · simp [hy, AList.lookup_insert_ne hy]
  | some k =>
    by_cases hy : y = id
    · subst hy; simp [h]
    · simp [hy]

theorem lookup_modifyKey (s : InMemoryStore) (id y : String) (f : InMemoryKey → InMemoryKey) :
    (s.modifyKey id f).byID.lookup y =
      if y = id then (s.byID.lookup id).map f else s.byID.lookup y := by
  unfold modifyKey
  cases h : s.byID.lookup id with
  | none =>
    by_cases hy : y = id
    · subst hy; simp [h]
    · simp [hy]
  | some k =>
    by_cases hy : y = id
    · subst hy; simp [AList.lookup_insert]
    · simp [hy, AList.lookup_insert_ne hy]

@[simp] theorem keyOf_ensureKey (s : InMemoryStore) (id y : String) :
    (s.ensureKey id).keyOf y = s.keyOf y := by
  unfold keyOf
  rw [lookup_ensureKey]
  by_cases hy : y = id
  · subst hy; simp [keyOf]
  · simp [hy]

@[simp] theorem byResult_ensureKey (s : InMemoryStore) (id : String) :
    (s.ensureKey id).byResult = s.byResult := by
  unfold ensureKey; split <;> rfl

@[simp] theorem byResult_modifyKey (s : InMemoryStore) (id : String) (f) :
    (s.modifyKey id f).byResult = s.byResult := by
  unfold modifyKey; split <;> rfl

theorem lookup_addResult (s : InMemoryStore) (id : String) (res : CacheResult) (y : String) :
    (s.addResult id res).byID.lookup y =
      if y = id then some { s.keyOf id with results := (s.keyOf id).results.insert res.id res }
      else s.byID.lookup y := by
  simp only [addResult, lookup_modifyKey, lookup_ensureKey]
  by_cases hy : y = id <;> simp [hy]

theorem byResult_addResult (s : InMemoryStore) (id : String) (res : CacheResult) (r : String) :
    (s.addResult id res).byResult.lookup r =
      if r = res.id then some (((s.byResult.lookup res.id).getD []).insert id)
      else s.byResult.lookup r := by
  simp only [addResult, byResult_modifyKey, byResult_ensureKey]
  by_cases hr : r = res.id
  · subst hr; simp [AList.lookup_insert]
  · simp [hr, AList.lookup_insert_ne hr]

theorem lookup_addLink (s : InMemoryStore) (id : String) (link : CacheInfoLink)
    (target y : String) :
    (s.addLink id link target).byID.lookup y =
      if y = id ∨ y = target then
        some { s.keyOf y with
          links := if y = id then (s.keyOf y).links.insert (link, target) else (s.keyOf y).links
          backlinks := if y = target then (s.keyOf y).backlinks.insert id
            else (s.keyOf y).backlinks }
      else s.byID.lookup y := by
  simp only [addLink, lookup_modifyKey, lookup_ensureKey]
  by_cases h1 : y = id <;> by_cases h2 : y = target
  · subst h1; subst h2; simp
  · subst h1; simp [h2]
  · subst h2; simp [h1]
  · simp [h1, h2]

@[simp] theorem byResult_addLink (s : InMemoryStore) (id : String) (link : CacheInfoLink)
    (target : String) : (s.addLink id link target).byResult = s.byResult := by
  simp [addLink]

theorem Inv.mem_backlinks_keyOf {s : InMemoryStore} (hs : s.Inv) {p id : String} :
    p ∈ (s.keyOf id).backlinks ↔ s.LinksTo p id := by
  unfold keyOf
  cases h : s.byID.lookup id with
  | none =>
    simp only [Option.getD_none, newInMemoryKey, List.not_mem_nil, false_iff]
    exact hs.not_linksTo (AList.lookup_eq_none.mp h)
  | some k => exact hs.backlinks_iff h

/-! ## `AddResult` and `AddLink` keep the invariant -/

theorem results_addResult {s : InMemoryStore} {id y r : String} {res : CacheResult} :
    (∃ k, (s.addResult id res).byID.lookup y = some k ∧ r ∈ k.results) ↔
      (y = id ∧ r = res.id) ∨ ∃ k, s.byID.lookup y = some k ∧ r ∈ k.results := by
  rw [lookup_addResult]
  by_cases hy : y = id
  · subst hy; simp [mem_results_keyOf]
  · simp [hy]

theorem byResult_mem_addResult {s : InMemoryStore} {id y r : String} {res : CacheResult} :
    (∃ ids, (s.addResult id res).byResult.lookup r = some ids ∧ y ∈ ids) ↔
      (y = id ∧ r = res.id) ∨ ∃ ids, s.byResult.lookup r = some ids ∧ y ∈ ids := by
  rw [byResult_addResult]
  by_cases hr : r = res.id
  · subst hr; simp [mem_getD_byResult]
  · simp [hr]

theorem links_addResult {s : InMemoryStore} {id y : String} {res : CacheResult}
    {lt : CacheInfoLink × String} :
    (∃ k, (s.addResult id res).byID.lookup y = some k ∧ lt ∈ k.links) ↔
      ∃ k, s.byID.lookup y = some k ∧ lt ∈ k.links := by
  rw [lookup_addResult]
  by_cases hy : y = id
  · subst hy; simp [mem_links_keyOf]
  · simp [hy]

theorem linksTo_addResult {s : InMemoryStore} {id p t : String} {res : CacheResult} :
    (s.addResult id res).LinksTo p t ↔ s.LinksTo p t := by
  unfold LinksTo
  constructor
  · rintro ⟨k, hk, l, hl⟩
    obtain ⟨k', hk', hl'⟩ := links_addResult.mp ⟨k, hk, hl⟩
    exact ⟨k', hk', l, hl'⟩
  · rintro ⟨k, hk, l, hl⟩
    obtain ⟨k', hk', hl'⟩ := links_addResult.mpr ⟨k, hk, hl⟩
    exact ⟨k', hk', l, hl'⟩

theorem mem_addResult {s : InMemoryStore} {id y : String} {res : CacheResult} :
    y ∈ (s.addResult id res).byID ↔ y = id ∨ y ∈ s.byID := by
  simp only [mem_byID_iff, lookup_addResult]
  by_cases hy : y = id <;> simp [hy]

theorem Inv.addResult {s : InMemoryStore} (hs : s.Inv) (id : String) (res : CacheResult) :
    (s.addResult id res).Inv where
  id_eq {y k} h := by
    rw [lookup_addResult] at h
    split at h
    · cases h; subst y; exact keyOf_id hs _
    · exact hs.id_eq h
  results_iff := by
    intro y r
    rw [results_addResult, byResult_mem_addResult, hs.results_iff]
  byResult_ne {r ids} h := by
    rw [byResult_addResult] at h
    split at h
    · cases h; exact List.ne_nil_of_mem List.mem_insert_self
    · exact hs.byResult_ne h
  byResult_nodup {r ids} h := by
    rw [byResult_addResult] at h
    split at h
    · cases h
      apply List.Nodup.insert
      cases hr : s.byResult.lookup res.id with
      | none => exact List.nodup_nil
      | some ids => exact hs.byResult_nodup hr
    · exact hs.byResult_nodup h
  target_mem {y k l t} h hl := by
    obtain ⟨k', hk', hl'⟩ := links_addResult.mp ⟨k, h, hl⟩
    exact mem_addResult.mpr (.inr (hs.target_mem hk' hl'))
  backlinks_iff {t kt p} h := by
    rw [linksTo_addResult]
    rw [lookup_addResult] at h
    split at h
    · cases h; subst t; exact hs.mem_backlinks_keyOf
    · exact hs.backlinks_iff h

theorem links_addLink {s : InMemoryStore} {id y t : String} {link : CacheInfoLink}
    {lt : CacheInfoLink × String} :
    (∃ k, (s.addLink id link t).byID.lookup y = some k ∧ lt ∈ k.links) ↔
      (y = id ∧ lt = (link, t)) ∨ ∃ k, s.byID.lookup y = some k ∧ lt ∈ k.links := by
  rw [lookup_addLink]
  by_cases h1 : y = id
  · subst h1; simp [mem_links_keyOf]
  · by_cases h2 : y = t
    · subst h2; simp [h1, mem_links_keyOf]
    · simp [h1, h2]

theorem linksTo_addLink {s : InMemoryStore} {id p y t : String} {link : CacheInfoLink} :
    (s.addLink id link t).LinksTo p y ↔ s.LinksTo p y ∨ (p = id ∧ y = t) := by
  unfold LinksTo
  constructor
  · rintro ⟨k, hk, l, hl⟩
    rcases links_addLink.mp ⟨k, hk, hl⟩ with ⟨rfl, h⟩ | ⟨k', hk', hl'⟩
    · simp only [Prod.mk.injEq] at h
      exact .inr ⟨rfl, h.2⟩
    · exact .inl ⟨k', hk', l, hl'⟩
  · rintro (⟨k, hk, l, hl⟩ | ⟨rfl, rfl⟩)
    · obtain ⟨k', hk', hl'⟩ := links_addLink.mpr (.inr ⟨k, hk, hl⟩)
      exact ⟨k', hk', l, hl'⟩
    · have h : ∃ k, (s.addLink p link y).byID.lookup p = some k ∧ (link, y) ∈ k.links :=
        links_addLink.mpr (.inl ⟨rfl, rfl⟩)
      obtain ⟨k', hk', hl'⟩ := h
      exact ⟨k', hk', link, hl'⟩

theorem results_addLink {s : InMemoryStore} {id y t r : String} {link : CacheInfoLink} :
    (∃ k, (s.addLink id link t).byID.lookup y = some k ∧ r ∈ k.results) ↔
      ∃ k, s.byID.lookup y = some k ∧ r ∈ k.results := by
  rw [lookup_addLink]
  by_cases h : y = id ∨ y = t
  · simp [h, mem_results_keyOf]
  · simp [h]

theorem mem_addLink {s : InMemoryStore} {id y t : String} {link : CacheInfoLink} :
    y ∈ (s.addLink id link t).byID ↔ y = id ∨ y = t ∨ y ∈ s.byID := by
  simp only [mem_byID_iff, lookup_addLink]
  by_cases h : y = id ∨ y = t
  · simp only [h, if_true, Option.some.injEq, exists_eq', true_iff]
    rcases h with h | h <;> simp [h]
  · simp only [h, if_false]
    simp only [not_or] at h
    simp [h.1, h.2]

theorem Inv.addLink {s : InMemoryStore} (hs : s.Inv) (id : String) (link : CacheInfoLink)
    (t : String) : (s.addLink id link t).Inv where
  id_eq {y k} h := by
    rw [lookup_addLink] at h
    split at h
    · cases h; exact keyOf_id hs _
    · exact hs.id_eq h
  results_iff := by
    intro y r
    rw [results_addLink, byResult_addLink, hs.results_iff]
  byResult_ne h := hs.byResult_ne (by simpa using h)
  byResult_nodup h := hs.byResult_nodup (by simpa using h)
  target_mem {y k l t'} h hl := by
    rcases links_addLink.mp ⟨k, h, hl⟩ with ⟨_, h'⟩ | ⟨k', hk', hl'⟩
    · simp only [Prod.mk.injEq] at h'
      exact mem_addLink.mpr (.inr (.inl h'.2))
    · exact mem_addLink.mpr (.inr (.inr (hs.target_mem hk' hl')))
  backlinks_iff {y ky p} h := by
    rw [linksTo_addLink]
    rw [lookup_addLink] at h
    split at h
    · cases h
      by_cases hy : y = t
      · subst hy; simp [hs.mem_backlinks_keyOf, or_comm]
      · simp [hy, hs.mem_backlinks_keyOf]
    · rename_i hy
      simp only [not_or] at hy
      simp [hy.2, hs.backlinks_iff h]

/-! ## What `WalkLinks` and `HasLink` see -/

theorem mem_walkLinks {s : InMemoryStore} {id t : String} {l : CacheInfoLink} :
    t ∈ s.walkLinks id l ↔ ∃ k, s.byID.lookup id = some k ∧ (l, t) ∈ k.links := by
  unfold walkLinks
  cases s.byID.lookup id <;> simp

theorem hasLink_iff_mem_walkLinks {s : InMemoryStore} {id t : String} {l : CacheInfoLink} :
    s.hasLink id l t = true ↔ t ∈ s.walkLinks id l := by
  rw [mem_walkLinks]
  unfold hasLink
  cases s.byID.lookup id <;> simp

/-- `AddLink` adds one link and no other. -/
theorem mem_walkLinks_addLink {s : InMemoryStore} {id t y t' : String} {l l' : CacheInfoLink} :
    t' ∈ (s.addLink id l t).walkLinks y l' ↔ t' ∈ s.walkLinks y l' ∨ (y = id ∧ l' = l ∧ t' = t) := by
  rw [mem_walkLinks, mem_walkLinks, links_addLink, Prod.mk.injEq, or_comm]

end InMemoryStore

end Buildkit
