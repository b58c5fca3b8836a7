import Buildkit.Lib.Loop
import Buildkit.Solver.Types

/-!
# The edge index

`edgeIndex` of `solver/index.go`, the solver's map for detecting edge collisions. Its items are
kept by the index IDs of cache keys: each holds the edge stored under the ID, its `links` from
the IDs of the keys built on it, and the IDs of the keys it is built on (`deps`); `backRefs`
holds the IDs each edge is stored under. `LoadOrStore` finds the IDs matching a cache key,
creating and linking an item for every dependency key on the way, and returns the edge already
stored under one of them or stores the new one. `Release` takes an edge out of its items,
deletes each item left with neither an edge nor links, and, by `releaseLink`, each item it is
built on that is then left so.

The links of an item to itself are never released: removing them is the step of the cascade
of the item itself, which starts only once the item has no links. An item comes to link to
itself when a key has, among its dependencies, a key matched under the ID the key itself is
matched under, and from then on it stays in every index a run reaches (`run_keeps_selfLinked`).

The loop over the matches of `LoadOrStore` keeps the last one whose item holds another edge, and an item of a
dependency key holds none: when it comes last, an edge already stored under the first match is
overwritten, and `backRefs` still lists that item under the old edge
(`loadOrStore_overwrites_matched_edge`).

Representation. A cache key is a pointer into the key objects `Env.keys`, since `enforceIndexID`
memoizes the IDs of a key in the key object (`indexIDs`); the memo is part of the state here.
Go maps are `AList`s and sets lists. The `links map[CacheInfoLink]map[string]struct{}` of an
item is the set of its `(link, ID)` pairs: an entry is created together with an ID and deleted
with its last one. `identity.NewID` is `Env.newID` of a counter, and the order of every loop
over a map is `Env.ord`. The recursions have no bound in the source; here they are given fuel,
and `none` is a recursion that did not end. The lock `mu` is left out: every method runs under
it.
-/

namespace Buildkit

/-- A `CacheKey` as the edge index reads it: the digest, the output and, per input, the selector
and the key of each dependency, by pointer. -/
structure KeyNode where
  digest : Digest
  output : Index
  deps : List (List (Digest × Nat))

/-- `indexItem`; an edge is a pointer. -/
structure IndexItem where
  edge : Option Nat
  links : List (CacheInfoLink × String)
  deps : List String
  deriving DecidableEq, Repr

/-- `edgeIndex`, with the `indexIDs` every key object memoizes and the counter of
`identity.NewID`. -/
structure EdgeIndex where
  items : AList (fun _ : String => IndexItem)
  backRefs : AList (fun _ : Nat => List String)
  indexIDs : Nat → List String
  next : Nat

/-- `newEdgeIndex`, over key objects that have no IDs yet. -/
def newEdgeIndex : EdgeIndex := ⟨∅, ∅, fun _ => [], 0⟩

/-- The item without the links to `target`, entries left without IDs dropped. -/
def IndexItem.removeLinksTo (item : IndexItem) (target : String) : IndexItem :=
  { item with links := item.links.filter (·.2 ≠ target) }

namespace EdgeIndex

/-- What the methods read besides the index: the key objects, the order of the loops over maps,
`identity.NewID` and `digest.FromBytes`. -/
structure Env where
  keys : Nat → KeyNode
  ord : IterOrder String
  newID : Nat → String
  fromBytes : String → Digest

/-! ## `LoadOrStore` -/

/-- `k.indexIDs = ids`. -/
def setIndexIDs (st : EdgeIndex) (k : Nat) (ids : List String) : EdgeIndex :=
  { st with indexIDs := fun j => if j = k then ids else st.indexIDs j }

/-- The IDs `enforceIndexID` gives a key: its matches, or else a new ID. -/
def newIndexIDs (env : Env) (st : EdgeIndex) (matchIDs : List String) : List String × EdgeIndex :=
  if matchIDs ≠ [] then (matchIDs, st) else ([env.newID st.next], { st with next := st.next + 1 })

/-- The item `id`, created empty if it is missing, as `enforceLinked` starts. -/
def ensureItem (st : EdgeIndex) (id : String) : EdgeIndex :=
  match st.items.lookup id with
  | some _ => st
  | none => { st with items := st.items.insert id ⟨none, [], []⟩ }

/-- The item `id`, if present, replaced by `f` of it. -/
def modifyItem (st : EdgeIndex) (id : String) (f : IndexItem → IndexItem) : EdgeIndex :=
  match st.items.lookup id with
  | some item => { st with items := st.items.insert id (f item) }
  | none => st

/-- The body of the innermost loop of `enforceLinked`: if the item `ckID` of a dependency key is
present, it links to `id` under `ll`, and `id` is built on it. -/
def linkDep (st : EdgeIndex) (id ckID : String) (ll : CacheInfoLink) : EdgeIndex :=
  match st.items.lookup ckID with
  | some _ =>
    let st := st.modifyItem ckID fun item => { item with links := item.links.insert (ll, id) }
    st.modifyItem id fun main => { main with deps := main.deps.insert ckID }
  | none => st

/-- The link of a key's dependency at input `i` with the selector. -/
def llOf (k : KeyNode) (i : Nat) (selector : Digest) : CacheInfoLink :=
  { input := i, digest := k.digest, output := k.output, selector := selector }

/-- The IDs the items of `ids` link to under `ll`. -/
def linkedIDs (st : EdgeIndex) (ll : CacheInfoLink) (ids : List String) : List String :=
  ids.flatMap fun ckID =>
    match st.items.lookup ckID with
    | some item => (item.links.filter (·.1 = ll)).map (·.2)
    | none => []

/-- The matches of `getAllMatches` once the dependency keys have their IDs: those linked from
the dependencies of input 0, kept only if every later input links to them from one of its
dependencies. The `break` on no matches is left out, as the later inputs then keep none. -/
def matchesOf (st : EdgeIndex) (k : KeyNode) : List String :=
  k.deps.zipIdx.foldl (fun matchIDs (p : List (Digest × Nat) × Nat) =>
    if p.2 = 0 then
      (matchIDs ++ p.1.flatMap fun d => st.linkedIDs (llOf k p.2 d.1) (st.indexIDs d.2)).eraseDups
    else
      matchIDs.filter fun m => p.1.any fun d => m ∈ st.linkedIDs (llOf k p.2 d.1) (st.indexIDs d.2))
    []

mutual

/-- `getAllMatches`: the root key of a key without dependencies, else the matches found once
every dependency key has its IDs. -/
def getAllMatches (env : Env) : Nat → EdgeIndex → Nat → Option (List String × EdgeIndex)
  | 0, _, _ => none
  | fuel + 1, st, k =>
    let kn := env.keys k
    if kn.deps = [] then some ([rootKey env.fromBytes kn.digest kn.output], st)
    else do
      let st ← kn.deps.flatten.foldlM (fun st d => enforceIndexID env fuel st d.2) st
      pure (env.ord.order (st.matchesOf kn), st)

/-- `enforceIndexID`: a key without IDs gets its matches or a new ID, and each is linked. -/
def enforceIndexID (env : Env) : Nat → EdgeIndex → Nat → Option EdgeIndex
  | 0, _, _ => none
  | fuel + 1, st, k =>
    if st.indexIDs k ≠ [] then some st
    else do
      let (matchIDs, st) ← getAllMatches env fuel st k
      let (ids, st) := newIndexIDs env st matchIDs
      let st := st.setIndexIDs k ids
      ids.foldlM (fun st id => enforceLinked env fuel st id k) st

/-- `enforceLinked`: the item `id` is linked from every item of every dependency key of `k`. -/
def enforceLinked (env : Env) : Nat → EdgeIndex → String → Nat → Option EdgeIndex
  | 0, _, _, _ => none
  | fuel + 1, st, id, k =>
    let kn := env.keys k
    kn.deps.zipIdx.foldlM (fun st (p : List (Digest × Nat) × Nat) => p.1.foldlM (fun st d => do
      let st ← enforceIndexID env fuel st d.2
      pure ((st.indexIDs d.2).foldl (fun st ckID => st.linkDep id ckID (llOf kn p.2 d.1)) st))
      st) (st.ensureItem id)

end

/-- `backRefs[e][id] = struct{}{}`. -/
def addBackRef (st : EdgeIndex) (e : Nat) (id : String) : EdgeIndex :=
  { st with backRefs := st.backRefs.insert e (((st.backRefs.lookup e).getD []).insert id) }

/-- The loop of `LoadOrStore` over the matching IDs: the last one whose item holds another edge
than `e`, with that edge, `nil` included. -/
def oldEdge (st : EdgeIndex) (ids : List String) (e : Nat) : String × Option Nat :=
  ids.foldl (fun acc id =>
    match st.items.lookup id with
    | some item => if item.edge ≠ some e then (id, item.edge) else acc
    | none => acc) ("", none)

/-- The end of `LoadOrStore` that stores `e`: under the first match, or else a new ID. -/
def storeEdge (env : Env) (fuel : Nat) (st : EdgeIndex) (ids : List String) (k e : Nat) :
    Option (Option Nat × EdgeIndex) := do
  let id := env.newID st.next
  let st := { st with next := st.next + 1 }
  let id := ids.headD id
  let st ← enforceLinked env fuel st id k
  let st := st.modifyItem id fun item => { item with edge := some e }
  pure (none, st.addBackRef e id)

/-- `LoadOrStore`: the edge already stored under a matching ID, linked to `k`, unless only `e`
ignores the cache; otherwise `nil`, with `e` stored. -/
def loadOrStore (env : Env) (ignoreCache : Nat → Bool) (fuel : Nat) (st : EdgeIndex) (k e : Nat) :
    Option (Option Nat × EdgeIndex) := do
  let (ids, st) ← getAllMatches env fuel st k
  let (oldID, old) := st.oldEdge ids e
  match old with
  | some o =>
    if !(!ignoreCache o && ignoreCache e) then do
      let st ← enforceLinked env fuel st oldID k
      pure (some o, st)
    else storeEdge env fuel st ids k e
  | none => storeEdge env fuel st ids k e

/-! ## `Release` -/

/-- `ei.items[id] = item`, the write through the pointer to the item. -/
def setItem (st : EdgeIndex) (id : String) (item : IndexItem) : EdgeIndex :=
  { st with items := st.items.insert id item }

/-- `delete(ei.items, id)`. -/
def eraseItem (st : EdgeIndex) (id : String) : EdgeIndex :=
  { st with items := st.items.erase id }

/-- `releaseLink`: the links to `target` leave the item `id`, and an item left with neither an
edge nor links is deleted, after the recursion into each item it is built on. -/
def releaseLink (ord : IterOrder String) : Nat → EdgeIndex → String → String → Option EdgeIndex
  | 0, _, _, _ => none
  | fuel + 1, st, id, target =>
    match st.items.lookup id with
    | none => some st
    | some item =>
      let item := item.removeLinksTo target
      let st := st.setItem id item
      if item.edge = none ∧ item.links = [] then do
        let st ← (ord.order item.deps).foldlM (fun st d => releaseLink ord fuel st d id) st
        pure (st.eraseItem id)
      else some st

/-- `releaseEdge`: the item `id` holds no edge, and it goes as in `releaseLink` if it has no
links. The edge of the item is not compared with the released one. -/
def releaseEdge (ord : IterOrder String) (fuel : Nat) (st : EdgeIndex) (id : String) :
    Option EdgeIndex :=
  match st.items.lookup id with
  | none => some st
  | some item =>
    let item := { item with edge := none }
    let st := st.setItem id item
    if item.links = [] then do
      let st ← (ord.order item.deps).foldlM (fun st d => releaseLink ord fuel st d id) st
      pure (st.eraseItem id)
    else some st

/-- `Release`. -/
def release (ord : IterOrder String) (fuel : Nat) (st : EdgeIndex) (e : Nat) :
    Option EdgeIndex := do
  let st ← (ord.order ((st.backRefs.lookup e).getD [])).foldlM (releaseEdge ord fuel) st
  pure { st with backRefs := st.backRefs.erase e }

/-! ## Runs -/

/-- The calls that change an edge index. -/
inductive Op
  | loadOrStore (k e : Nat)
  | release (e : Nat)

/-- One call, the recursions given `fuel`; `none` when one does not end. -/
def apply (env : Env) (ignoreCache : Nat → Bool) (fuel : Nat) (st : EdgeIndex) :
    Op → Option EdgeIndex
  | .loadOrStore k e => (st.loadOrStore env ignoreCache fuel k e).map (·.2)
  | .release e => st.release env.ord fuel e

/-- A sequence of calls. -/
def run (env : Env) (ignoreCache : Nat → Bool) (fuel : Nat) (st : EdgeIndex) (ops : List Op) :
    Option EdgeIndex :=
  ops.foldlM (apply env ignoreCache fuel) st

/-! ## Items grow under `LoadOrStore` -/

/-- Every item of `st` is an item of `st'`, with at least its links and dependencies. -/
def Grows (st st' : EdgeIndex) : Prop :=
  ∀ x item, st.items.lookup x = some item →
    ∃ item', st'.items.lookup x = some item' ∧ item.links ⊆ item'.links ∧ item.deps ⊆ item'.deps

theorem Grows.refl (st : EdgeIndex) : Grows st st :=
  fun _ item h => ⟨item, h, List.Subset.refl _, List.Subset.refl _⟩

theorem Grows.trans {s₁ s₂ s₃ : EdgeIndex} (h₁ : Grows s₁ s₂) (h₂ : Grows s₂ s₃) : Grows s₁ s₃ := by
  intro x item hx
  obtain ⟨item₂, h₂x, hl₂, hd₂⟩ := h₁ x item hx
  obtain ⟨item₃, h₃x, hl₃, hd₃⟩ := h₂ x item₂ h₂x
  exact ⟨item₃, h₃x, List.Subset.trans hl₂ hl₃, List.Subset.trans hd₂ hd₃⟩

theorem grows_of_items_eq {st st' : EdgeIndex} (h : st'.items = st.items) : Grows st st' := by
  intro x item hx
  exact ⟨item, h ▸ hx, List.Subset.refl _, List.Subset.refl _⟩

theorem grows_modifyItem (st : EdgeIndex) (id : String) {f : IndexItem → IndexItem}
    (hf : ∀ item, item.links ⊆ (f item).links ∧ item.deps ⊆ (f item).deps) :
    Grows st (st.modifyItem id f) := by
  unfold modifyItem
  split
  next item hid =>
    intro x item' hx
    by_cases hx' : x = id
    · subst hx'
      rw [hid] at hx
      cases hx
      exact ⟨f item, AList.lookup_insert _, hf item⟩
    · exact ⟨item', by rw [AList.lookup_insert_ne hx']; exact hx, List.Subset.refl _,
        List.Subset.refl _⟩
  next => exact .refl _

theorem grows_ensureItem (st : EdgeIndex) (id : String) : Grows st (st.ensureItem id) := by
  unfold ensureItem
  split
  next => exact .refl _
  next hid =>
    intro x item hx
    have hx' : x ≠ id := by rintro rfl; rw [hid] at hx; cases hx
    exact ⟨item, by rw [AList.lookup_insert_ne hx']; exact hx, List.Subset.refl _,
      List.Subset.refl _⟩

theorem grows_linkDep (st : EdgeIndex) (id ckID : String) (ll : CacheInfoLink) :
    Grows st (st.linkDep id ckID ll) := by
  unfold linkDep
  split
  next =>
    dsimp only
    refine (grows_modifyItem _ _ ?_).trans (grows_modifyItem _ _ ?_)
    · exact fun _ => ⟨fun _ => List.mem_insert_of_mem, List.Subset.refl _⟩
    · exact fun _ => ⟨List.Subset.refl _, fun _ => List.mem_insert_of_mem⟩
  next => exact .refl _

theorem grows_foldl_linkDep (st : EdgeIndex) (id : String) (ll : CacheInfoLink) (ids : List String) :
    Grows st (ids.foldl (fun st ckID => st.linkDep id ckID ll) st) := by
  induction ids generalizing st with
  | nil => exact .refl _
  | cons ckID ids ih => exact (grows_linkDep st id ckID ll).trans (ih _)

@[simp] theorem newIndexIDs_items (env : Env) (st : EdgeIndex) (matchIDs : List String) :
    (newIndexIDs env st matchIDs).2.items = st.items := by
  unfold newIndexIDs
  split <;> rfl

/-- By induction on the fuel, the three functions of the recursion together. -/
theorem grows_of_fuel (env : Env) (fuel : Nat) :
    (∀ {st k r}, getAllMatches env fuel st k = some r → Grows st r.2) ∧
    (∀ {st k st'}, enforceIndexID env fuel st k = some st' → Grows st st') ∧
    (∀ {st id k st'}, enforceLinked env fuel st id k = some st' → Grows st st') := by
  induction fuel with
  | zero =>
    refine ⟨fun h => ?_, fun h => ?_, fun h => ?_⟩ <;> cases h
  | succ fuel ih =>
    obtain ⟨hG, hI, hL⟩ := ih
    refine ⟨fun {st k r} h => ?_, fun {st k st'} h => ?_, fun {st id k st'} h => ?_⟩
    · -- `getAllMatches`: the loop over the dependency keys
      rw [getAllMatches] at h
      split at h
      · cases h; exact .refl _
      · obtain ⟨st₁, h₁, h⟩ := Option.bind_eq_some_iff.mp h
        cases h
        exact Loop.foldlM_rel Grows .refl (fun h₁ h₂ => h₁.trans h₂)
          (fun _ _ _ _ hd => hI hd) h₁
    · -- `enforceIndexID`: the matches, the IDs given to the key, and the loop linking each
      rw [enforceIndexID] at h
      split at h
      · cases h; exact .refl _
      · obtain ⟨⟨matchIDs, st₁⟩, h₁, h⟩ := Option.bind_eq_some_iff.mp h
        dsimp only at h
        rcases hc : newIndexIDs env st₁ matchIDs with ⟨ids, st₂⟩
        rw [hc] at h
        dsimp only at h
        have hst₂ : st₂.items = st₁.items := by
          simpa [hc] using newIndexIDs_items env st₁ matchIDs
        have hg : Grows st₁ (st₂.setIndexIDs k ids) := grows_of_items_eq hst₂
        exact (hG h₁).trans (hg.trans
          (Loop.foldlM_rel Grows .refl (fun h₁ h₂ => h₁.trans h₂) (fun _ _ _ _ hd => hL hd) h))
    · -- `enforceLinked`: the item is created, then both loops only link items
      rw [enforceLinked] at h
      refine (grows_ensureItem st id).trans
        (Loop.foldlM_rel Grows .refl (fun h₁ h₂ => h₁.trans h₂) ?_ h)
      intro p _ st₁ st₂ hp
      refine Loop.foldlM_rel Grows .refl (fun h₁ h₂ => h₁.trans h₂) ?_ hp
      intro d _ st₃ st₄ hd
      obtain ⟨st₅, h₅, hd⟩ := Option.bind_eq_some_iff.mp hd
      cases hd
      exact (hI h₅).trans (grows_foldl_linkDep _ _ _ _)

theorem grows_storeEdge {env : Env} {fuel : Nat} {st : EdgeIndex} {ids : List String} {k e : Nat}
    {r : Option Nat × EdgeIndex} (h : storeEdge env fuel st ids k e = some r) : Grows st r.2 := by
  obtain ⟨st₁, h₁, h⟩ := Option.bind_eq_some_iff.mp h
  cases h
  -- the counter of `identity.NewID` moves, the items do not
  have hg : Grows { st with next := st.next + 1 } st₁ := (grows_of_fuel env fuel).2.2 h₁
  refine (grows_of_items_eq rfl).trans
    (hg.trans ((grows_modifyItem _ _ fun _ => ?_).trans (grows_of_items_eq rfl)))
  exact ⟨List.Subset.refl _, List.Subset.refl _⟩

theorem grows_loadOrStore {env : Env} {ignoreCache : Nat → Bool} {fuel : Nat} {st : EdgeIndex}
    {k e : Nat} {r : Option Nat × EdgeIndex} (h : st.loadOrStore env ignoreCache fuel k e = some r) :
    Grows st r.2 := by
  obtain ⟨⟨ids, st₁⟩, h₁, h⟩ := Option.bind_eq_some_iff.mp h
  have hg₁ : Grows st st₁ := (grows_of_fuel env fuel).1 h₁
  dsimp only at h
  rcases hc : st₁.oldEdge ids e with ⟨oldID, old⟩
  rw [hc] at h
  dsimp only at h
  cases old with
  | none => exact hg₁.trans (grows_storeEdge h)
  | some o =>
    dsimp only at h
    split at h
    · -- the edge already stored is returned, linked to the key
      obtain ⟨st₂, h₂, h⟩ := Option.bind_eq_some_iff.mp h
      cases h
      exact hg₁.trans ((grows_of_fuel env fuel).2.2 h₂)
    · exact hg₁.trans (grows_storeEdge h)

/-! ## An item that links to itself stays -/

/-- The item `x` is built on itself and links to itself. -/
def SelfLinked (st : EdgeIndex) (x : String) : Prop :=
  ∃ item, st.items.lookup x = some item ∧ x ∈ item.deps ∧ ∃ ll, (ll, x) ∈ item.links

theorem SelfLinked.of_grows {st st' : EdgeIndex} {x : String} (hx : st.SelfLinked x)
    (hg : Grows st st') : st'.SelfLinked x := by
  obtain ⟨item, hi, hd, ll, hl⟩ := hx
  obtain ⟨item', hi', hls, hds⟩ := hg x item hi
  exact ⟨item', hi', hds hd, ll, hls hl⟩

/-- A write to an item keeps the self-link of `x` if it keeps the links of `x` to itself and its
dependencies. -/
theorem SelfLinked.setItem {st : EdgeIndex} {x id : String} {item item' : IndexItem}
    (hx : st.SelfLinked x) (hid : st.items.lookup id = some item)
    (hl : ∀ ll, (ll, x) ∈ item.links → (ll, x) ∈ item'.links) (hd : item.deps ⊆ item'.deps) :
    (st.setItem id item').SelfLinked x := by
  obtain ⟨item₀, h₀, hd₀, ll, hl₀⟩ := hx
  by_cases hne : id = x
  · subst hne
    rw [hid] at h₀
    cases h₀
    exact ⟨item', AList.lookup_insert _, hd hd₀, ll, hl ll hl₀⟩
  · exact ⟨item₀, by rw [EdgeIndex.setItem, AList.lookup_insert_ne (Ne.symm hne)]; exact h₀, hd₀, ll, hl₀⟩

/-- A self-linked item is never left without links, so it is not the item a cascade deletes. -/
theorem SelfLinked.ne_of_links_eq_nil {st : EdgeIndex} {x id : String} {item item' : IndexItem}
    (hx : st.SelfLinked x) (hid : st.items.lookup id = some item)
    (hl : ∀ ll, (ll, x) ∈ item.links → (ll, x) ∈ item'.links) (hnil : item'.links = []) : id ≠ x := by
  rintro rfl
  obtain ⟨item₀, h₀, -, ll, hl₀⟩ := hx
  rw [hid] at h₀
  cases h₀
  exact List.ne_nil_of_mem (hl ll hl₀) hnil

theorem SelfLinked.eraseItem {st : EdgeIndex} {x id : String} (hx : st.SelfLinked x)
    (hne : id ≠ x) : (st.eraseItem id).SelfLinked x := by
  obtain ⟨item, h, hd, ll, hl⟩ := hx
  exact ⟨item, by rw [EdgeIndex.eraseItem, AList.lookup_erase_ne (Ne.symm hne)]; exact h, hd, ll, hl⟩

theorem mem_removeLinksTo {item : IndexItem} {target x : String} (ht : target ≠ x)
    {ll : CacheInfoLink} (hl : (ll, x) ∈ item.links) : (ll, x) ∈ (item.removeLinksTo target).links :=
  List.mem_filter.mpr ⟨hl, by simpa using Ne.symm ht⟩

/-- The cascade over the items `id` is built on keeps what each `releaseLink` to `id` keeps. -/
theorem foldlM_releaseLink_keeps {ord : IterOrder String} {fuel : Nat} {id : String}
    (P : EdgeIndex → Prop)
    (hrec : ∀ {st d st'}, P st → releaseLink ord fuel st d id = some st' → P st')
    {ds : List String} {st st' : EdgeIndex}
    (h : ds.foldlM (fun st d => releaseLink ord fuel st d id) st = some st') (hx : P st) : P st' :=
  Loop.foldlM_keeps P (fun _ _ _ _ hs hsx => hrec hsx hs) h hx

/-- By induction on the fuel: `releaseLink` never removes the links to an item that is being
deleted from that same item, so it keeps every self-link of another target. -/
theorem releaseLink_selfLinked (ord : IterOrder String) {x : String} (fuel : Nat) :
    ∀ {st id target st'}, st.SelfLinked x → target ≠ x →
      releaseLink ord fuel st id target = some st' → st'.SelfLinked x := by
  induction fuel with
  | zero => intro st id target st' _ _ h; cases h
  | succ fuel ih =>
    intro st id target st' hx ht h
    rw [releaseLink] at h
    split at h
    · cases h; exact hx
    · next item hid =>
      have hkeep : ∀ ll, (ll, x) ∈ item.links → (ll, x) ∈ (item.removeLinksTo target).links :=
        fun _ hl => mem_removeLinksTo ht hl
      have hx₁ := hx.setItem hid hkeep (List.Subset.refl _)
      dsimp only at h
      split at h
      · next hempty =>
        -- the item is deleted, so it is not `x`, and the cascade goes on with `id` as target
        have hne : id ≠ x := hx.ne_of_links_eq_nil hid hkeep hempty.2
        obtain ⟨st₂, h₂, h⟩ := Option.bind_eq_some_iff.mp h
        cases h
        exact (foldlM_releaseLink_keeps (·.SelfLinked x) (fun hs hr => ih hs hne hr) h₂ hx₁).eraseItem
          hne
      · cases h; exact hx₁

theorem releaseEdge_selfLinked {ord : IterOrder String} {fuel : Nat} {st st' : EdgeIndex}
    {x id : String} (hx : st.SelfLinked x) (h : releaseEdge ord fuel st id = some st') :
    st'.SelfLinked x := by
  unfold releaseEdge at h
  split at h
  · cases h; exact hx
  · next item hid =>
    have hkeep : ∀ ll, (ll, x) ∈ item.links → (ll, x) ∈ ({ item with edge := none } : IndexItem).links :=
      fun _ hl => hl
    have hx₁ := hx.setItem hid hkeep (List.Subset.refl _)
    dsimp only at h
    split at h
    · next hempty =>
      have hne : id ≠ x := hx.ne_of_links_eq_nil hid hkeep hempty
      obtain ⟨st₂, h₂, h⟩ := Option.bind_eq_some_iff.mp h
      cases h
      exact (foldlM_releaseLink_keeps (·.SelfLinked x)
        (fun hs hr => releaseLink_selfLinked ord fuel hs hne hr) h₂ hx₁).eraseItem hne
    · cases h; exact hx₁

theorem release_selfLinked {ord : IterOrder String} {fuel : Nat} {st st' : EdgeIndex} {x : String}
    {e : Nat} (hx : st.SelfLinked x) (h : st.release ord fuel e = some st') : st'.SelfLinked x := by
  obtain ⟨st₁, h₁, h⟩ := Option.bind_eq_some_iff.mp h
  cases h
  exact Loop.foldlM_keeps (·.SelfLinked x)
    (fun _ _ _ _ hs hsx => releaseEdge_selfLinked hsx hs) h₁ hx

/-- Once an item links to itself, it is in the index after every later sequence of calls, and
it still depends on itself: no run of `Release` ever empties the items. -/
theorem run_keeps_selfLinked {env : Env} {ignoreCache : Nat → Bool} {fuel : Nat}
    {st st' : EdgeIndex} {x : String} (hx : st.SelfLinked x) {ops : List Op}
    (h : st.run env ignoreCache fuel ops = some st') : st'.SelfLinked x := by
  refine Loop.foldlM_keeps (·.SelfLinked x) ?_ h hx
  intro op _ s s' hs hsx
  cases op with
  | loadOrStore k e =>
    obtain ⟨r, hr, rfl⟩ := Option.map_eq_some_iff.mp hs
    exact hsx.of_grows (grows_loadOrStore hr)
  | release e => exact release_selfLinked hsx hs

/-- Key objects where key 3 has two dependencies at input 0: the key 0 without dependencies, and
key 2, an object like key 1 built on key 0 with the digest and output of key 3 itself. -/
def sameDigestKeys : Nat → KeyNode
  | 0 => ⟨"sha256:a", 0, []⟩
  | 1 => ⟨"sha256:x", 0, [[("s", 0)]]⟩
  | 2 => ⟨"sha256:x", 0, [[("s", 0)]]⟩
  | _ => ⟨"sha256:x", 0, [[("s", 0), ("s", 2)]]⟩

/-- The keys of `sameDigestKeys`, the loops in the stored order and the new IDs numbered. -/
def sameDigestEnv : Env := ⟨sameDigestKeys, IterOrder.stored, fun n => "id" ++ toString n, id⟩

/-- The index after edge 1 is stored for key 1 and `LoadOrStore` of key 3 with edge 2 returns
edge 1: only edge 1 is stored, and the item of both keys links to itself. -/
def sameDigestLoaded : EdgeIndex :=
  (newEdgeIndex.run sameDigestEnv (fun _ => false) 10 [.loadOrStore 1 1, .loadOrStore 3 2]).getD
    newEdgeIndex

theorem run_keeps_selfLinked_sameDigest :
    sameDigestLoaded.backRefs.keys = [1] ∧ sameDigestLoaded.SelfLinked "id0" ∧
      ∃ st', sameDigestLoaded.run sameDigestEnv (fun _ => false) 10 [.release 1] = some st' ∧
        st'.SelfLinked "id0" := by
  have hx : sameDigestLoaded.SelfLinked "id0" :=
    ⟨⟨some 1, [(⟨0, 0, "sha256:x", "s"⟩, "id0")], ["id0", "sha256:a@0"]⟩, by decide +kernel,
      by decide, ⟨0, 0, "sha256:x", "s"⟩, by decide⟩
  obtain ⟨st', h⟩ := Option.isSome_iff_exists.mp
    (by decide +kernel : (sameDigestLoaded.run sameDigestEnv (fun _ => false) 10 [.release 1]).isSome)
  exact ⟨by decide +kernel, hx, st', h, run_keeps_selfLinked hx h⟩

/-! ## Which edges `LoadOrStore` returns and `Release` clears -/

/-- The edge the item `x` holds, if there is such an item. -/
def edgeOf (st : EdgeIndex) (x : String) : Option Nat :=
  (st.items.lookup x).bind (·.edge)

/-- Key objects with overlapping dependencies: keys 3 and 4 have the digest of key 6 and its
dependency at input 0, and each one of the two dependencies key 6 has at input 1; key 5 is built
on key 4. -/
def overlapKeys : Nat → KeyNode
  | 0 => ⟨"sha256:r", 0, []⟩
  | 1 => ⟨"sha256:s", 0, []⟩
  | 2 => ⟨"sha256:t", 0, []⟩
  | 3 => ⟨"sha256:d", 0, [[("", 0)], [("", 1)]]⟩
  | 4 => ⟨"sha256:d", 0, [[("", 0)], [("", 2)]]⟩
  | 5 => ⟨"sha256:e", 0, [[("", 4)]]⟩
  | _ => ⟨"sha256:d", 0, [[("", 0)], [("", 1), ("", 2)]]⟩

/-- The keys of `overlapKeys`, the loops in the stored order and the new IDs numbered. -/
def overlapEnv : Env := ⟨overlapKeys, IterOrder.stored, fun n => "id" ++ toString n, id⟩

/-- The index after edge 4 is stored for key 5, which gives key 4 the item "id0" without an
edge, and edge 1 for key 3, under "id2". -/
def overlapLoaded : EdgeIndex :=
  (newEdgeIndex.run overlapEnv (fun _ => false) 10 [.loadOrStore 5 4, .loadOrStore 3 1]).getD
    newEdgeIndex

/-- Both items match key 6, "id2" holding edge 1 and "id0" last with none: `LoadOrStore` of
key 6 with edge 3 returns `nil` and writes edge 3 over edge 1, which `backRefs` still lists
under "id2", so a later `Release` of edge 1 deletes the item that holds edge 3. -/
theorem loadOrStore_overwrites_matched_edge :
    (getAllMatches overlapEnv 10 overlapLoaded 6).map (·.1) = some ["id2", "id0"] ∧
      overlapLoaded.edgeOf "id2" = some 1 ∧ overlapLoaded.edgeOf "id0" = none ∧
      (overlapLoaded.loadOrStore overlapEnv (fun _ => false) 10 6 3).map
          (fun r => (r.1, r.2.edgeOf "id2", (r.2.backRefs.lookup 1).getD [])) =
        some (none, some 3, ["id2"]) ∧
      ((overlapLoaded.loadOrStore overlapEnv (fun _ => false) 10 6 3).bind
          (·.2.release overlapEnv.ord 10 1)).map (·.items.lookup "id2") = some none := by
  decide +kernel

end EdgeIndex

end Buildkit
