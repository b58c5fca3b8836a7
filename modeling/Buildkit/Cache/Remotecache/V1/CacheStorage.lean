import Mathlib.Logic.Function.Basic
import Buildkit.Cache.Remotecache.V1.Chains
import Buildkit.Solver.CacheManager

/-!
# The cache storage of an imported remote cache

`NewCacheKeyStorage` of `cache/remotecache/v1/cachestorage.go` turns the chains of a cache import
into a `CacheKeyStorage` and a `CacheResultStorage` that read the same maps. `addItemToStorage`
adds a record after the records it links from, under its digest if it has no links and under a
new random ID if it has: each source then holds the link to it under the `nlink` of its digest,
input and selector, which `WalkLinks` and `HasLink` recompute from a `CacheInfoLink`
(`outputKey` of its digest and output, which is `rootKey` of the exporter). A record whose
sources are being added is marked with the empty ID, and meeting it again is a loop.

Representation. A record is its index in the store, the pointer of the Go code; each map is a
function, `Function.update` its assignment. A source is modified where `addItemToStorage` left it:
the record stored under its ID. `identity.NewID` is called once for each record with links, so it
is a function `newID` of that record. A result is the remote and the time `AddResult` stores
beside it, and a remote is its descriptors, by the fields two descriptors of one blob can differ
in; its content provider is left out. The loop of `byResultID` over a set of IDs runs in an
`IterOrder`.

What is proved. On chains in which no two records without links reach the storage with one
digest (`CacheChains.Normalized`, what `normalize` makes of them) and random IDs that are new,
every record the storage adds is stored under its ID with the links to it from each of its
sources and its result, and `LoadRemote` of the remote ID of its result returns that remote
(`newCacheKeyStorage_answers`). `LoadRemote` returns the remote of any record stored under the
ID, and the remote ID is the digest of the digests of the descriptors only; that is the remote
asked for on the chains the importer builds, whose descriptors are taken from a provider keyed
by digest (`CacheChains.DescriptorsByDigest`), when the digest of the digests has no collision on
their results (`CacheChains.RemoteIDsDistinct`).
-/

namespace Buildkit

namespace Cacheimport

/-- `ocispec.Descriptor`, by the fields two descriptors of one blob can differ in. -/
structure Descriptor where
  mediaType : String
  digest : Digest
  size : Int
  deriving DecidableEq, Repr

/-- `solver.Remote`, by its descriptors. -/
structure Remote where
  descriptors : List Descriptor
  deriving DecidableEq, Repr

/-- A result of the imported chains: the remote and the time `AddResult` stores beside it. -/
abbrev RemoteResult := Remote × Nat

/-- `remoteID`: the digest of the digests of the descriptors, one after the other. -/
def remoteID (fromBytes : String → Digest) (r : Remote) : Digest :=
  fromBytes (String.join (r.descriptors.map (·.digest)))

/-- `outputKey`: the digest of `"<dgst>@<idx>"`. -/
def outputKey (fromBytes : String → Digest) (dgst : Digest) (idx : Int) : Digest :=
  fromBytes (dgst ++ "@" ++ toString idx)

/-- `itemWithOutgoingLinks`: the record, by pointer, and its links, each `nlink` with the ID of
the record it leads to, in the order they were appended. -/
structure ItemWithLinks where
  item : Nat
  links : List (NLink × String)
  deriving DecidableEq, Repr

/-- `cacheKeyStorage`; the `cacheResultStorage` reads its `byID` and `byResult`. -/
structure CacheKeyStorage where
  byID : String → Option ItemWithLinks
  byItem : Nat → Option String
  byResult : String → Option (List String)

namespace CacheKeyStorage

/-- The maps `NewCacheKeyStorage` starts from. -/
def empty : CacheKeyStorage := ⟨fun _ => none, fun _ => none, fun _ => none⟩

/-- `k.byItem[it] = id`. -/
def setItem (k : CacheKeyStorage) (it : Nat) (id : String) : CacheKeyStorage :=
  { k with byItem := Function.update k.byItem it (some id) }

/-- `src.links[cl] = append(src.links[cl], id)`, on the record stored under `srcID`. -/
def appendLink (k : CacheKeyStorage) (srcID : String) (cl : NLink) (id : String) :
    Outcome CacheKeyStorage := do
  let src ← Outcome.deref (k.byID srcID)
  pure { k with byID := Function.update k.byID srcID (some { src with links := src.links ++ [(cl, id)] }) }

/-- `k.byID[id] = itl` of the record `it`, whose links are added to it later. -/
def setID (k : CacheKeyStorage) (id : String) (it : Nat) : CacheKeyStorage :=
  { k with byID := Function.update k.byID id (some ⟨it, []⟩) }

/-- `ids[id] = struct{}{}` in the set `k.byResult[resultID]`, made if there is none. -/
def addResultID (k : CacheKeyStorage) (resultID id : String) : CacheKeyStorage :=
  let ids := (k.byResult resultID).getD []
  { k with byResult := Function.update k.byResult resultID (some (if id ∈ ids then ids else ids ++ [id])) }

/-- The end of `addItemToStorage`: the record `it` stored under `id`, and `id` added to the set
of its result. -/
def storeItem (k : CacheKeyStorage) (fromBytes : String → Digest) (it : Nat) (id : String)
    (result : Option RemoteResult) : CacheKeyStorage :=
  let k := (k.setItem it id).setID id it
  match result with
  | some res => k.addResultID (remoteID fromBytes res.1) id
  | none => k

end CacheKeyStorage

section Storage

variable (c : CacheChains RemoteResult) (fromBytes : String → Digest) (newID : Nat → String)
  (ord : IterOrder Link)

/-- The ID `addItemToStorage` gives a record: its digest if it has no links, a new random ID if it
has. -/
def idFor (it : Nat) (item : Item RemoteResult) : String :=
  if item.links = [] then item.dgst else newID it

/-- The loops of `addItemToStorage` over the links of `item`, the record with ID `id`: each
source is added by `rec`, and the link to `id` appended to it. -/
def storeLinks (rec : CacheKeyStorage → Nat → Outcome (String × CacheKeyStorage))
    (item : Item RemoteResult) (id : String) (k : CacheKeyStorage) : Outcome CacheKeyStorage :=
  item.links.zipIdx.foldlM (fun k mi =>
    (ord.order mi.1).foldlM (fun k l => do
      let s ← Outcome.deref l.src
      let (srcID, k) ← rec k s
      k.appendLink srcID ⟨item.dgst, mi.2, l.selector⟩ id) k) k

/-- `addItemToStorage`: the ID of the record `it`, which is stored after its sources. -/
def addItemToStorage : Nat → CacheKeyStorage → Nat → Outcome (String × CacheKeyStorage)
  | 0, _, _ => .panic "runtime: goroutine stack exceeds limit"
  | fuel + 1, k, it =>
    match k.byItem it with
    | some id => if id = "" then .error "invalid loop" else .ok (id, k)
    | none => do
      let item ← Outcome.index c.store it
      let id := idFor newID it item
      let k ← storeLinks ord (addItemToStorage fuel) item id (k.setItem it "")
      pure (id, k.storeItem fromBytes it id item.result)

/-- `NewCacheKeyStorage`: the records of the chains added one after the other; each adds the
records it links from first, as deep as the store is long. -/
def newCacheKeyStorage : Outcome CacheKeyStorage :=
  c.items.foldlM (fun k it => do
    let (_, k) ← addItemToStorage c fromBytes newID ord (c.store.length + 1) k it
    pure k) CacheKeyStorage.empty

end Storage

namespace CacheKeyStorage

variable (c : CacheChains RemoteResult) (fromBytes : String → Digest)

/-- The result of the record an `itemWithOutgoingLinks` points to. -/
def resultOf (itl : ItemWithLinks) : Option RemoteResult := c.store[itl.item]?.bind (·.result)

/-- `Exists`. -/
def «exists» (k : CacheKeyStorage) (id : String) : Bool := (k.byID id).isSome

/-- `WalkResults`: the result of the record stored under `id`, by its remote ID. -/
def walkResults (k : CacheKeyStorage) (id : String) : List Buildkit.CacheResult :=
  match k.byID id with
  | none => []
  | some itl =>
    match resultOf c itl with
    | some (r, t) => [⟨t, remoteID fromBytes r⟩]
    | none => []

/-- The `nlink` of a `CacheInfoLink`; none for a negative input, which no record has. -/
def nlinkOf (link : CacheInfoLink) : Option NLink :=
  if link.input < 0 then none
  else some ⟨outputKey fromBytes link.digest link.output, link.input.toNat, link.selector⟩

/-- `it.links[cl]`. -/
def linksAt (itl : ItemWithLinks) (cl : NLink) : List String :=
  (itl.links.filter (·.1 = cl)).map (·.2)

/-- `WalkLinks`: the IDs linked from the record stored under `id` by `link`. -/
def walkLinks (k : CacheKeyStorage) (id : String) (link : CacheInfoLink) : List String :=
  match k.byID id, nlinkOf fromBytes link with
  | some itl, some cl => linksAt itl cl
  | _, _ => []

/-- `HasLink`. -/
def hasLink (k : CacheKeyStorage) (id : String) (link : CacheInfoLink) (target : String) : Bool :=
  match nlinkOf fromBytes link, k.byID id with
  | some l, some itl => (linksAt itl l).any (· == target)
  | _, _ => false

/-- `byResultID`: the remote of the first record, in the order of the loop over the set of IDs
of the result, that is stored and has one. -/
def byResultID (ordIDs : IterOrder String) (k : CacheKeyStorage) (resultID : String) :
    Option Remote :=
  match k.byResult resultID with
  | none => none
  | some m => (ordIDs.order m).findSome? fun id => (k.byID id).bind fun itl => (resultOf c itl).map (·.1)

/-- `cacheResultStorage.LoadRemote`. -/
def loadRemote (ordIDs : IterOrder String) (k : CacheKeyStorage) (resultID : String) :
    Outcome Remote :=
  match byResultID c ordIDs k resultID with
  | some r => .ok r
  | none => .error "not found"

/-- The storage as the cache manager reads it; it adds nothing and releases nothing. -/
def keyStorage : KeyStorage CacheKeyStorage where
  «exists» := CacheKeyStorage.exists
  walkResults := walkResults c fromBytes
  walkLinks := walkLinks fromBytes
  hasLink := hasLink fromBytes
  addResult k _ _ := k
  addLink k _ _ _ := k
  release k _ := some k

end CacheKeyStorage

namespace CacheKeyStorage

/-! ### What each write changes -/

@[simp] theorem setItem_byItem (k : CacheKeyStorage) (it : Nat) (id : String) :
    (k.setItem it id).byItem = Function.update k.byItem it (some id) := rfl

@[simp] theorem setItem_byID (k : CacheKeyStorage) (it : Nat) (id : String) :
    (k.setItem it id).byID = k.byID := rfl

@[simp] theorem setItem_byResult (k : CacheKeyStorage) (it : Nat) (id : String) :
    (k.setItem it id).byResult = k.byResult := rfl

@[simp] theorem setID_byItem (k : CacheKeyStorage) (id : String) (it : Nat) :
    (k.setID id it).byItem = k.byItem := rfl

@[simp] theorem setID_byResult (k : CacheKeyStorage) (id : String) (it : Nat) :
    (k.setID id it).byResult = k.byResult := rfl

theorem appendLink_eq_ok {k k' : CacheKeyStorage} {srcID : String} {cl : NLink} {id : String}
    (h : k.appendLink srcID cl id = .ok k') :
    ∃ src, k.byID srcID = some src ∧ k'.byItem = k.byItem ∧ k'.byResult = k.byResult ∧
      k'.byID = Function.update k.byID srcID (some { src with links := src.links ++ [(cl, id)] }) := by
  obtain ⟨src, hsrc, h⟩ := Outcome.bind_eq_ok.mp h
  cases h
  exact ⟨src, Outcome.deref_eq_ok.mp hsrc, rfl, rfl, rfl⟩

theorem mem_addResultID {k : CacheKeyStorage} {resultID id x : String} (rid : String) :
    x ∈ ((k.addResultID resultID id).byResult rid).getD [] ↔
      x ∈ (k.byResult rid).getD [] ∨ (x = id ∧ rid = resultID) := by
  unfold addResultID
  by_cases hr : rid = resultID
  · subst hr
    by_cases hid : id ∈ (k.byResult rid).getD []
    · simp only [Function.update_self, Option.getD_some, if_pos hid, and_true]
      exact ⟨Or.inl, fun h => h.elim (fun hx => hx) fun hx => hx ▸ hid⟩
    · simp [hid]
  · simp [hr]

@[simp] theorem storeItem_byItem (k : CacheKeyStorage) (fromBytes : String → Digest) (it : Nat)
    (id : String) (result : Option RemoteResult) :
    (k.storeItem fromBytes it id result).byItem = Function.update k.byItem it (some id) := by
  unfold storeItem
  split <;> rfl

@[simp] theorem storeItem_byID (k : CacheKeyStorage) (fromBytes : String → Digest) (it : Nat)
    (id : String) (result : Option RemoteResult) :
    (k.storeItem fromBytes it id result).byID = Function.update k.byID id (some ⟨it, []⟩) := by
  unfold storeItem
  split <;> rfl

theorem mem_storeItem_byResult {k : CacheKeyStorage} {fromBytes : String → Digest} {it : Nat}
    {id : String} {result : Option RemoteResult} {x : String} (rid : String) :
    x ∈ ((k.storeItem fromBytes it id result).byResult rid).getD [] ↔
      x ∈ (k.byResult rid).getD [] ∨
        (x = id ∧ ∃ res, result = some res ∧ rid = remoteID fromBytes res.1) := by
  unfold storeItem
  split
  · next res =>
    rw [mem_addResultID]
    simp
  · simp

end CacheKeyStorage

/-! ## What the storage holds

A record is stored once its sources are: `Stored` under its ID, each of its links held by its
source (`LinksHeld`) and its ID in the set of its result (`ResultHeld`). `Inv` says so of every
record stored, and that every entry is under the ID of its record; a call that adds a record
keeps it and only grows the maps (`Grows`). What keeps an entry from being written over is that
the records that reach the storage have different IDs (`IdsDistinct`). -/

section Answers

variable (c : CacheChains RemoteResult) (fromBytes : String → Digest) (newID : Nat → String)

/-- The record `it` is stored under `id`. -/
def Stored (k : CacheKeyStorage) (it : Nat) (id : String) : Prop :=
  k.byItem it = some id ∧ (k.byID id).map (·.item) = some it

/-- The link `l` at input `i` of the record `it`, of ID `id`, is held by its source. -/
def LinkHeld (k : CacheKeyStorage) (item : Item RemoteResult) (id : String) (i : Nat) (l : Link) :
    Prop :=
  ∃ s sid itl, l.src = some s ∧ Stored k s sid ∧ k.byID sid = some itl ∧
    (⟨item.dgst, i, l.selector⟩, id) ∈ itl.links

/-- Each link of the record `it` is held by its source. -/
def LinksHeld (k : CacheKeyStorage) (it : Nat) : Prop :=
  ∀ item, c.store[it]? = some item → ∀ i m, item.links[i]? = some m → ∀ l ∈ m,
    LinkHeld k item (idFor newID it item) i l

/-- The set of the result of the record `it` holds its ID. -/
def ResultHeld (k : CacheKeyStorage) (it : Nat) : Prop :=
  ∀ item r, c.store[it]? = some item → item.result = some r →
    idFor newID it item ∈ (k.byResult (remoteID fromBytes r.1)).getD []

/-- What the storage keeps true while records are added. -/
structure Inv (k : CacheKeyStorage) : Prop where
  byID_eq : ∀ id itl, k.byID id = some itl →
    ∃ item, c.store[itl.item]? = some item ∧ id = idFor newID itl.item item ∧
      k.byItem itl.item = some id
  reachable : ∀ it id, k.byItem it = some id → Reachable c it
  stored : ∀ it id, k.byItem it = some id → id ≠ "" → Stored k it id
  held : ∀ it id, Stored k it id → LinksHeld c newID k it ∧ ResultHeld c fromBytes newID k it
  results : ∀ rid, ∀ id ∈ (k.byResult rid).getD [],
    ∃ itl r, k.byID id = some itl ∧ CacheKeyStorage.resultOf c itl = some r ∧
      remoteID fromBytes r.1 = rid

/-- The records that reach the storage have different IDs. -/
def IdsDistinct : Prop :=
  ∀ x y ix iy, Reachable c x → Reachable c y → c.store[x]? = some ix → c.store[y]? = some iy →
    idFor newID x ix = idFor newID y iy → x = y

/-- What a write keeps: what was stored stays stored, what was seen stays seen, and links and
sets of results only grow. -/
structure Keeps (k k' : CacheKeyStorage) : Prop where
  stored : ∀ it id, Stored k it id → Stored k' it id
  seen : ∀ it, k.byItem it ≠ none → k'.byItem it ≠ none
  byID : ∀ id itl, k.byID id = some itl →
    ∃ itl', k'.byID id = some itl' ∧ itl'.item = itl.item ∧ ∀ x ∈ itl.links, x ∈ itl'.links
  byResult : ∀ rid, ∀ id ∈ (k.byResult rid).getD [], id ∈ (k'.byResult rid).getD []

/-- How a call changes the maps: it keeps them, and each entry is one there was or one of a
record not seen before. -/
structure Grows (k k' : CacheKeyStorage) : Prop extends Keeps k k' where
  fresh : ∀ id itl, k'.byID id = some itl →
    (∃ itl₀, k.byID id = some itl₀ ∧ itl₀.item = itl.item) ∨ k.byItem itl.item = none

variable {c fromBytes newID}

namespace Keeps

theorem linkHeld {k k' : CacheKeyStorage} (h : Keeps k k') {item : Item RemoteResult}
    {id : String} {i : Nat} {l : Link} (hl : LinkHeld k item id i l) : LinkHeld k' item id i l := by
  obtain ⟨s, sid, itl, hs, hstored, hitl, hmem⟩ := hl
  obtain ⟨itl', hitl', -, hlinks⟩ := h.byID sid itl hitl
  exact ⟨s, sid, itl', hs, h.stored _ _ hstored, hitl', hlinks _ hmem⟩

theorem linksHeld {k k' : CacheKeyStorage} (h : Keeps k k') {it : Nat}
    (hl : LinksHeld c newID k it) : LinksHeld c newID k' it :=
  fun item hitem i m hm l hl' => h.linkHeld (hl item hitem i m hm l hl')

theorem resultHeld {k k' : CacheKeyStorage} (h : Keeps k k') {it : Nat}
    (hr : ResultHeld c fromBytes newID k it) : ResultHeld c fromBytes newID k' it :=
  fun item r hitem hres => h.byResult _ _ (hr item r hitem hres)

theorem trans {k₁ k₂ k₃ : CacheKeyStorage} (h₁ : Keeps k₁ k₂) (h₂ : Keeps k₂ k₃) : Keeps k₁ k₃ where
  stored _ _ h := h₂.stored _ _ (h₁.stored _ _ h)
  seen _ h := h₂.seen _ (h₁.seen _ h)
  byID id itl h := by
    obtain ⟨itl₂, h₂', hitem₂, hlinks₂⟩ := h₁.byID id itl h
    obtain ⟨itl₃, h₃, hitem₃, hlinks₃⟩ := h₂.byID id itl₂ h₂'
    exact ⟨itl₃, h₃, hitem₃.trans hitem₂, fun x hx => hlinks₃ x (hlinks₂ x hx)⟩
  byResult rid id h := h₂.byResult rid id (h₁.byResult rid id h)

end Keeps

namespace Grows

theorem refl (k : CacheKeyStorage) : Grows k k where
  stored _ _ h := h
  seen _ h := h
  byID _ itl h := ⟨itl, h, rfl, fun _ hx => hx⟩
  byResult _ _ h := h
  fresh _ itl h := .inl ⟨itl, h, rfl⟩

theorem trans {k₁ k₂ k₃ : CacheKeyStorage} (h₁ : Grows k₁ k₂) (h₂ : Grows k₂ k₃) : Grows k₁ k₃ where
  toKeeps := h₁.toKeeps.trans h₂.toKeeps
  fresh id itl h := by
    rcases h₂.fresh id itl h with ⟨itl₂, h₂', hitem₂⟩ | hnone
    · rcases h₁.fresh id itl₂ h₂' with ⟨itl₁, h₁', hitem₁⟩ | hnone
      · exact .inl ⟨itl₁, h₁', hitem₁.trans hitem₂⟩
      · exact .inr (hitem₂ ▸ hnone)
    · -- not seen by the middle state, so not seen before it either
      exact .inr (by by_contra hseen; exact h₁.seen _ hseen hnone)

end Grows

theorem inv_empty : Inv c fromBytes newID CacheKeyStorage.empty where
  byID_eq _ _ h := by cases h
  reachable _ _ h := by cases h
  stored _ _ h := by cases h
  held _ _ h := by cases h.1
  results _ _ h := by simp [CacheKeyStorage.empty] at h

/-- No entry is of a record not seen. -/
theorem Inv.item_ne {k : CacheKeyStorage} (hk : Inv c fromBytes newID k) {it : Nat}
    (hnone : k.byItem it = none) {id : String} {itl : ItemWithLinks} (h : k.byID id = some itl) :
    itl.item ≠ it := by
  obtain ⟨_, _, _, hseen⟩ := hk.byID_eq id itl h
  rintro rfl
  rw [hnone] at hseen
  cases hseen

/-- Marking a record as seen changes what is stored of no record but itself, which is not. -/
theorem stored_setItem {k : CacheKeyStorage} {it : Nat} {v : String}
    (hno : ∀ id itl, k.byID id = some itl → itl.item ≠ it) {x : Nat} {id : String} :
    Stored (k.setItem it v) x id ↔ Stored k x id := by
  by_cases hx : x = it
  · subst hx
    -- neither state has an entry of `x`
    have hmap : (k.byID id).map (·.item) ≠ some x := by
      cases h : k.byID id with
      | none => simp
      | some itl => simpa using hno id itl h
    simp [Stored, hmap]
  · simp [Stored, Function.update_of_ne hx]

/-- The first write of `addItemToStorage`: the record is marked as seen. -/
theorem Inv.setItem_seen {k : CacheKeyStorage} (hk : Inv c fromBytes newID k) {it : Nat}
    (hnone : k.byItem it = none) (hit : Reachable c it) :
    Inv c fromBytes newID (k.setItem it "") ∧ Grows k (k.setItem it "") := by
  have hno : ∀ id itl, k.byID id = some itl → itl.item ≠ it := fun _ _ h => hk.item_ne hnone h
  have hg : Grows k (k.setItem it "") :=
    { stored := fun _ _ h => stored_setItem hno |>.mpr h
      seen := fun x h => by
        by_cases hx : x = it
        · simp [hx]
        · simpa [Function.update_of_ne hx] using h
      byID := fun _ itl h => ⟨itl, h, rfl, fun _ hx => hx⟩
      byResult := fun _ _ h => h
      fresh := fun _ itl h => .inl ⟨itl, h, rfl⟩ }
  refine ⟨⟨?_, ?_, ?_, ?_, hk.results⟩, hg⟩
  · intro id itl h
    obtain ⟨item, hitem, hid, hseen⟩ := hk.byID_eq id itl h
    exact ⟨item, hitem, hid, by simp [Function.update_of_ne (hno id itl h), hseen]⟩
  · intro x id h
    by_cases hx : x = it
    · exact hx ▸ hit
    · exact hk.reachable x id (by simpa [Function.update_of_ne hx] using h)
  · intro x id h hid
    by_cases hx : x = it
    · subst hx
      simp only [CacheKeyStorage.setItem_byItem, Function.update_self, Option.some.injEq] at h
      exact absurd h.symm hid
    · exact stored_setItem hno |>.mpr
        (hk.stored x id (by simpa [Function.update_of_ne hx] using h) hid)
  · intro x id h
    have hheld := hk.held x id (stored_setItem hno |>.mp h)
    exact ⟨hg.linksHeld hheld.1, hg.resultHeld hheld.2⟩

/-- Appending a link to a stored source keeps every record, and the source holds the link. -/
theorem Inv.appendLink {k k' : CacheKeyStorage} (hk : Inv c fromBytes newID k) {s : Nat}
    {srcID : String} (hs : Stored k s srcID) {cl : NLink} {id : String}
    (h : k.appendLink srcID cl id = .ok k') :
    Inv c fromBytes newID k' ∧ Grows k k' ∧ ∃ itl, k'.byID srcID = some itl ∧ (cl, id) ∈ itl.links := by
  obtain ⟨src, hsrc, hitem, hres, hbyID⟩ := CacheKeyStorage.appendLink_eq_ok h
  -- every entry keeps its record
  have hentry : ∀ x itl, k'.byID x = some itl →
      ∃ itl₀, k.byID x = some itl₀ ∧ itl₀.item = itl.item := by
    intro x itl hx
    rw [hbyID] at hx
    by_cases hxs : x = srcID
    · subst hxs
      simp only [Function.update_self, Option.some.injEq] at hx
      exact ⟨src, hsrc, by rw [← hx]⟩
    · exact ⟨itl, by simpa [Function.update_of_ne hxs] using hx, rfl⟩
  have hmap : ∀ x, (k'.byID x).map (·.item) = (k.byID x).map (·.item) := by
    intro x
    rw [hbyID]
    by_cases hxs : x = srcID
    · subst hxs
      simp [hsrc]
    · simp [Function.update_of_ne hxs]
  have hstored : ∀ x id', Stored k' x id' ↔ Stored k x id' := by
    intro x id'
    simp only [Stored, hitem, hmap]
  have hg : Grows k k' :=
    { stored := fun _ _ h => (hstored _ _).mpr h
      seen := fun _ h => by rwa [hitem]
      byID := fun x itl hx => by
        rw [hbyID]
        by_cases hxs : x = srcID
        · subst hxs
          rw [hsrc] at hx
          cases hx
          exact ⟨_, Function.update_self .., rfl, fun y hy => List.mem_append_left _ hy⟩
        · exact ⟨itl, by simpa [Function.update_of_ne hxs] using hx, rfl, fun _ hy => hy⟩
      byResult := fun _ _ h => by rwa [hres]
      fresh := fun x itl hx => .inl (hentry x itl hx) }
  refine ⟨⟨?_, ?_, ?_, ?_, ?_⟩, hg, ⟨_, by rw [hbyID, Function.update_self], by simp⟩⟩
  · intro x itl hx
    obtain ⟨itl₀, hx₀, hi⟩ := hentry x itl hx
    obtain ⟨item, hitem', hid, hseen⟩ := hk.byID_eq x itl₀ hx₀
    exact ⟨item, hi ▸ hitem', hi ▸ hid, by rw [hitem, ← hi]; exact hseen⟩
  · intro x id' hx
    exact hk.reachable x id' (by rwa [hitem] at hx)
  · intro x id' hx hid
    exact (hstored _ _).mpr (hk.stored x id' (by rwa [hitem] at hx) hid)
  · intro x id' hx
    have hheld := hk.held x id' ((hstored _ _).mp hx)
    exact ⟨hg.linksHeld hheld.1, hg.resultHeld hheld.2⟩
  · intro rid x hx
    rw [hres] at hx
    obtain ⟨itl₀, r, hx₀, hr, hrid⟩ := hk.results rid x hx
    obtain ⟨itl', hx', hi, -⟩ := hg.byID x itl₀ hx₀
    exact ⟨itl', r, hx', by rw [CacheKeyStorage.resultOf, hi]; exact hr, hrid⟩

/-- No entry is of the record `it` once its sources are added, nor under its ID: the records added
are not `it`, and their IDs are not its ID. -/
theorem Inv.fresh_of_links (hd : IdsDistinct c newID) {k kL : CacheKeyStorage}
    (hk : Inv c fromBytes newID k) {it : Nat} (hnone : k.byItem it = none)
    (hkL : Inv c fromBytes newID kL) (hg : Grows (k.setItem it "") kL) (hit : Reachable c it)
    {item : Item RemoteResult} (hitem : c.store[it]? = some item) :
    (∀ x itl, kL.byID x = some itl → itl.item ≠ it) ∧ kL.byID (idFor newID it item) = none := by
  have hno : ∀ x itl, kL.byID x = some itl → itl.item ≠ it := by
    intro x itl hx
    rcases hg.fresh x itl hx with ⟨itl₀, hx₀, hi⟩ | hunseen
    · exact hi ▸ hk.item_ne hnone hx₀
    · rintro rfl
      simp at hunseen
  refine ⟨hno, ?_⟩
  cases hx : kL.byID (idFor newID it item) with
  | none => rfl
  | some itl =>
    -- the record stored under the ID of `it` has that ID, so it is `it`
    obtain ⟨item', hitem', hid, hseen⟩ := hkL.byID_eq _ itl hx
    exact absurd (hd it itl.item item item' hit (hkL.reachable _ _ hseen) hitem hitem' hid).symm
      (hno _ itl hx)

/-- Storing a record of which there is no entry, under an ID that is free, keeps the storage. -/
theorem keeps_storeItem {k : CacheKeyStorage} {it : Nat} {id : String}
    (hno : ∀ x itl, k.byID x = some itl → itl.item ≠ it) (hid : k.byID id = none)
    (result : Option RemoteResult) : Keeps k (k.storeItem fromBytes it id result) where
  stored x id' h := by
    obtain ⟨hx, hmap⟩ := h
    have hid' : id' ≠ id := by
      rintro rfl
      simp [hid] at hmap
    have hxit : x ≠ it := by
      rintro rfl
      cases h' : k.byID id' with
      | none => simp [h'] at hmap
      | some itl => exact hno _ itl h' (by simpa [h'] using hmap)
    exact ⟨by simp [Function.update_of_ne hxit, hx], by simp [Function.update_of_ne hid', hmap]⟩
  seen x h := by
    by_cases hx : x = it
    · simp [hx]
    · simpa [Function.update_of_ne hx] using h
  byID x itl h := by
    have hx : x ≠ id := by
      rintro rfl
      simp [hid] at h
    exact ⟨itl, by simp [Function.update_of_ne hx, h], rfl, fun _ hy => hy⟩
  byResult rid _ h := CacheKeyStorage.mem_storeItem_byResult rid |>.mpr (.inl h)

/-- What the storage stores of another record after storing `it` it stored before. -/
theorem stored_of_storeItem {k : CacheKeyStorage} {it x : Nat} {id id' : String}
    {result : Option RemoteResult} (hx : x ≠ it)
    (h : Stored (k.storeItem fromBytes it id result) x id') : Stored k x id' := by
  obtain ⟨hitem, hmap⟩ := h
  have hid' : id' ≠ id := by
    rintro rfl
    simp only [CacheKeyStorage.storeItem_byID, Function.update_self, Option.map_some,
      Option.some.injEq] at hmap
    exact hx hmap.symm
  exact ⟨by simpa [Function.update_of_ne hx] using hitem,
    by simpa [Function.update_of_ne hid'] using hmap⟩

/-- The last write of `addItemToStorage`: once its sources hold its links, the record is stored
under its ID, with its result. -/
theorem Inv.storeItem (hd : IdsDistinct c newID) {k kL : CacheKeyStorage}
    (hk : Inv c fromBytes newID k) {it : Nat} (hnone : k.byItem it = none)
    (hkL : Inv c fromBytes newID kL) (hg : Grows (k.setItem it "") kL) (hit : Reachable c it)
    {item : Item RemoteResult} (hitem : c.store[it]? = some item)
    (hlinks : ∀ i m, item.links[i]? = some m → ∀ l ∈ m,
      LinkHeld kL item (idFor newID it item) i l) :
    let k' := kL.storeItem fromBytes it (idFor newID it item) item.result
    Inv c fromBytes newID k' ∧ Grows k k' ∧ Stored k' it (idFor newID it item) := by
  intro k'
  obtain ⟨hno, hid⟩ := hk.fresh_of_links hd hnone hkL hg hit hitem
  have hkeep : Keeps kL k' := keeps_storeItem hno hid item.result
  have hstored : Stored k' it (idFor newID it item) := ⟨by simp [k'], by simp [k']⟩
  have hg' : Grows k kL := (hk.setItem_seen hnone hit).2.trans hg
  refine ⟨⟨?_, ?_, ?_, ?_, ?_⟩, ⟨hg'.toKeeps.trans hkeep, ?_⟩, hstored⟩
  · -- every entry is under the ID of its record
    intro x itl hx
    simp only [k', CacheKeyStorage.storeItem_byID] at hx
    by_cases hxid : x = idFor newID it item
    · rw [hxid, Function.update_self] at hx
      cases hx
      exact ⟨item, hitem, hxid, by simp [k', hxid]⟩
    · rw [Function.update_of_ne hxid] at hx
      obtain ⟨item', hitem', hid', hseen⟩ := hkL.byID_eq x itl hx
      exact ⟨item', hitem', hid', by simp [k', Function.update_of_ne (hno x itl hx), hseen]⟩
  · intro x id' hx
    by_cases hxit : x = it
    · exact hxit ▸ hit
    · exact hkL.reachable x id' (by simpa [k', Function.update_of_ne hxit] using hx)
  · intro x id' hx hne
    by_cases hxit : x = it
    · subst hxit
      simp only [k', CacheKeyStorage.storeItem_byItem, Function.update_self,
        Option.some.injEq] at hx
      exact hx ▸ hstored
    · exact hkeep.stored _ _
        (hkL.stored x id' (by simpa [k', Function.update_of_ne hxit] using hx) hne)
  · intro x id' hx
    by_cases hxit : x = it
    · -- the links and the result of `it` itself
      subst hxit
      refine ⟨fun item' hitem' i m hm l hl => ?_, fun item' r hitem' hres => ?_⟩
      · rw [hitem] at hitem'
        cases hitem'
        exact hkeep.linkHeld (hlinks i m hm l hl)
      · rw [hitem] at hitem'
        cases hitem'
        exact CacheKeyStorage.mem_storeItem_byResult _ |>.mpr (.inr ⟨rfl, r, hres, rfl⟩)
    · have hheld := hkL.held x id' (stored_of_storeItem hxit hx)
      exact ⟨hkeep.linksHeld hheld.1, hkeep.resultHeld hheld.2⟩
  · intro rid x hx
    rcases (CacheKeyStorage.mem_storeItem_byResult rid).mp hx with hx | ⟨rfl, res, hres, rfl⟩
    · obtain ⟨itl, r, hx', hr, hrid⟩ := hkL.results rid x hx
      obtain ⟨itl', hx'', hi, -⟩ := hkeep.byID x itl hx'
      exact ⟨itl', r, hx'', by rw [CacheKeyStorage.resultOf, hi]; exact hr, hrid⟩
    · exact ⟨⟨it, []⟩, res, by simp [k'], by simp [CacheKeyStorage.resultOf, hitem, hres], rfl⟩
  · -- the new entry is of `it`, which `k` had not seen
    intro x itl hx
    simp only [k', CacheKeyStorage.storeItem_byID] at hx
    by_cases hxid : x = idFor newID it item
    · rw [hxid, Function.update_self] at hx
      cases hx
      exact .inr hnone
    · exact hg'.fresh x itl (by rwa [Function.update_of_ne hxid] at hx)

section Links

variable (ord : IterOrder Link) {rec : CacheKeyStorage → Nat → Outcome (String × CacheKeyStorage)}
  (hrec : ∀ k s sid k', Inv c fromBytes newID k → Reachable c s → rec k s = .ok (sid, k') →
    Inv c fromBytes newID k' ∧ Grows k k' ∧ Stored k' s sid)
  {it : Nat} (hit : Reachable c it) {item : Item RemoteResult} (hitem : c.store[it]? = some item)
  (id : String)

include hrec hit hitem

/-- One iteration of the inner loop of `storeLinks`: the source of the link is added, and
holds the link. -/
theorem storeLink_spec {m : List Link} (hm : m ∈ item.links) (i : Nat) {l : Link} (hl : l ∈ m)
    {k k' : CacheKeyStorage} (hk : Inv c fromBytes newID k)
    (h : (do
      let s ← Outcome.deref l.src
      let (srcID, k) ← rec k s
      k.appendLink srcID ⟨item.dgst, i, l.selector⟩ id) = Outcome.ok k') :
    Inv c fromBytes newID k' ∧ Grows k k' ∧ LinkHeld k' item id i l := by
  obtain ⟨s, hs, h⟩ := Outcome.bind_eq_ok.mp h
  obtain ⟨⟨srcID, k₁⟩, h₁, h₂⟩ := Outcome.bind_eq_ok.mp h
  have hsrc := Outcome.deref_eq_ok.mp hs
  have hreach : Reachable c s := .src hit ⟨item, hitem, m, hm, l, hl, hsrc⟩
  obtain ⟨hk₁, hg₁, hs₁⟩ := hrec k s srcID k₁ hk hreach h₁
  obtain ⟨hk₂, hg₂, itl, hitl, hmem⟩ := hk₁.appendLink hs₁ h₂
  exact ⟨hk₂, hg₁.trans hg₂, s, srcID, itl, hsrc, hg₂.stored _ _ hs₁, hitl, hmem⟩

/-- The inner loop, over the links of one input in the order of the loop. -/
theorem storeInput_spec {m : List Link} (hm : m ∈ item.links) (i : Nat) {k k' : CacheKeyStorage}
    (hk : Inv c fromBytes newID k)
    (h : (ord.order m).foldlM (fun k l => do
      let s ← Outcome.deref l.src
      let (srcID, k) ← rec k s
      k.appendLink srcID ⟨item.dgst, i, l.selector⟩ id) k = .ok k') :
    Inv c fromBytes newID k' ∧ Grows k k' ∧ ∀ l ∈ m, LinkHeld k' item id i l := by
  -- the links visited are held, in a storage that only grew
  have hrun := Outcome.foldlM_ok_rule
    (fun done k' => Inv c fromBytes newID k' ∧ Grows k k' ∧ ∀ l ∈ done, LinkHeld k' item id i l)
    (fun done l k₁ k₂ hl hI h => by
      obtain ⟨hk₁, hg₁, hdone⟩ := hI
      obtain ⟨hk₂, hg₂, hheld⟩ := storeLink_spec hrec hit hitem id hm i (by simpa using hl) hk₁ h
      refine ⟨hk₂, hg₁.trans hg₂, fun l' hl' => ?_⟩
      rcases List.mem_append.mp hl' with hl' | hl'
      · exact hg₂.linkHeld (hdone l' hl')
      · exact List.mem_singleton.mp hl' ▸ hheld)
    ⟨hk, .refl k, by simp⟩ h
  obtain ⟨hk', hg, hheld⟩ := hrun
  exact ⟨hk', hg, fun l hl => hheld l (by simpa using hl)⟩

/-- The loops of `storeLinks`: each source is added, and holds the link to `id`. -/
theorem storeLinks_spec {k k' : CacheKeyStorage} (hk : Inv c fromBytes newID k)
    (h : storeLinks ord rec item id k = .ok k') :
    Inv c fromBytes newID k' ∧ Grows k k' ∧
      ∀ i m, item.links[i]? = some m → ∀ l ∈ m, LinkHeld k' item id i l := by
  -- the links of the inputs visited are held, in a storage that only grew
  have hrun := Outcome.foldlM_ok_rule
    (fun done k' => Inv c fromBytes newID k' ∧ Grows k k' ∧
      ∀ mi ∈ done, ∀ l ∈ mi.1, LinkHeld k' item id mi.2 l)
    (fun done mi k₁ k₂ hmi hI h => by
      obtain ⟨hk₁, hg₁, hdone⟩ := hI
      obtain ⟨hk₂, hg₂, hheld⟩ :=
        storeInput_spec ord hrec hit hitem id (List.fst_mem_of_mem_zipIdx hmi) mi.2 hk₁ h
      refine ⟨hk₂, hg₁.trans hg₂, fun mi' hmi' => ?_⟩
      rcases List.mem_append.mp hmi' with hmi' | hmi'
      · exact fun l hl => hg₂.linkHeld (hdone mi' hmi' l hl)
      · exact List.mem_singleton.mp hmi' ▸ hheld)
    ⟨hk, .refl k, by simp⟩ h
  obtain ⟨hk', hg, hheld⟩ := hrun
  exact ⟨hk', hg, fun i m hm => hheld (m, i) (List.mem_zipIdx_iff_getElem?.mpr hm)⟩

end Links

/-- `addItemToStorage` of a record that reaches the storage stores it under the ID it returns,
and only grows the storage. -/
theorem addItemToStorage_spec (hd : IdsDistinct c newID) (ord : IterOrder Link) :
    ∀ fuel k it id k', Inv c fromBytes newID k → Reachable c it →
      addItemToStorage c fromBytes newID ord fuel k it = .ok (id, k') →
      Inv c fromBytes newID k' ∧ Grows k k' ∧ Stored k' it id
  | 0, _, _, _, _, _, _, h => by cases h
  | fuel + 1, k, it, id, k', hk, hit, h => by
    simp only [addItemToStorage] at h
    split at h
    · -- seen before: stored, or a loop, which is an error
      next sid hseen =>
      split at h
      · cases h
      · next hne =>
        cases h
        exact ⟨hk, .refl k, hk.stored it id hseen hne⟩
    · next hnone =>
      obtain ⟨item, hitem, h⟩ := Outcome.bind_eq_ok.mp h
      obtain ⟨kL, hkL, h⟩ := Outcome.bind_eq_ok.mp h
      cases h
      have hitem := Outcome.index_eq_ok.mp hitem
      have hk₁ := (hk.setItem_seen hnone hit).1
      obtain ⟨hkL', hgL, hlinks⟩ :=
        storeLinks_spec ord (addItemToStorage_spec hd ord fuel) hit hitem _ hk₁ hkL
      exact hk.storeItem hd hnone hkL' hgL hit hitem hlinks

/-- Each record of the chains is stored by `NewCacheKeyStorage`. -/
theorem newCacheKeyStorage_spec (hd : IdsDistinct c newID) (ord : IterOrder Link)
    {k : CacheKeyStorage} (h : newCacheKeyStorage c fromBytes newID ord = .ok k) :
    Inv c fromBytes newID k ∧ ∀ it ∈ c.items, ∃ id, Stored k it id :=
  Outcome.foldlM_ok_rule
    (fun done k => Inv c fromBytes newID k ∧ ∀ it ∈ done, ∃ id, Stored k it id)
    (fun done it k₁ k₂ hit hI h => by
      obtain ⟨hk₁, hdone⟩ := hI
      obtain ⟨⟨id, k₃⟩, h₁, h₂⟩ := Outcome.bind_eq_ok.mp h
      cases h₂
      obtain ⟨hk₃, hg, hs⟩ := addItemToStorage_spec hd ord _ k₁ it id _ hk₁ (.item hit) h₁
      refine ⟨hk₃, fun x hx => ?_⟩
      rcases List.mem_append.mp hx with hx | hx
      · obtain ⟨id', hs'⟩ := hdone x hx
        exact ⟨id', hg.stored _ _ hs'⟩
      · exact List.mem_singleton.mp hx ▸ ⟨id, hs⟩)
    ⟨inv_empty, by simp⟩ h

/-- What the storage stores of a record, it stores under the ID of the record. -/
theorem Inv.eq_idFor {k : CacheKeyStorage} (hk : Inv c fromBytes newID k) {it : Nat} {id : String}
    (hs : Stored k it id) {item : Item RemoteResult} (hitem : c.store[it]? = some item) :
    id = idFor newID it item := by
  obtain ⟨itl, hitl, hi⟩ := Option.map_eq_some_iff.mp hs.2
  obtain ⟨item', hitem', hid, -⟩ := hk.byID_eq id itl hitl
  rw [hi, hitem] at hitem'
  cases hitem'
  rwa [hi] at hid

/-- On normalized chains the records have different IDs, when the random IDs are different and
none is a digest. -/
theorem idsDistinct (hc : c.Normalized) (hinj : Function.Injective newID)
    (hfresh : ∀ it (x : Nat) (ix : Item RemoteResult), c.store[x]? = some ix → newID it ≠ ix.dgst) : IdsDistinct c newID := by
  intro x y ix iy hx hy hix hiy h
  by_cases hlx : ix.links = [] <;> by_cases hly : iy.links = [] <;>
    simp only [idFor, hlx, hly, if_true, if_false] at h
  · exact hc x y ix iy hx hy hix hiy hlx hly h
  · exact absurd h.symm (hfresh y x ix hix)
  · exact absurd h (hfresh x y iy hiy)
  · exact hinj h

/-- `LoadRemote` of a result ID whose set holds an ID returns the remote of the result of a
record of the chains, of that remote ID. -/
theorem Inv.loadRemote {k : CacheKeyStorage} (hk : Inv c fromBytes newID k)
    (ordIDs : IterOrder String) {rid id : String} (hmem : id ∈ (k.byResult rid).getD []) :
    ∃ r, CacheKeyStorage.loadRemote c ordIDs k rid = .ok r ∧
      (∃ item ∈ c.store, ∃ res ∈ item.result, res.1 = r) ∧ remoteID fromBytes r = rid := by
  cases hm : k.byResult rid with
  | none => simp [hm] at hmem
  | some m =>
    have hmem' : id ∈ m := by simpa [hm] using hmem
    -- the loop over the set finds a remote, since `id` has one
    obtain ⟨itl, r, hid, hr, -⟩ := hk.results rid id hmem
    have hsome : ((ordIDs.order m).findSome? fun id =>
        (k.byID id).bind fun itl => (CacheKeyStorage.resultOf c itl).map (·.1)).isSome :=
      List.findSome?_isSome_iff.mpr ⟨id, by simpa using hmem', by simp [hid, hr]⟩
    obtain ⟨r', hr'⟩ := Option.isSome_iff_exists.mp hsome
    -- what it finds is the remote of an ID of the set, which is of this remote ID
    obtain ⟨id', hid', hf⟩ := List.exists_of_findSome?_eq_some hr'
    obtain ⟨itl', r'', hitl', hr'', hrid⟩ := hk.results rid id' (by simpa [hm] using hid')
    simp only [hitl', hr'', Option.bind_some, Option.map_some, Option.some.injEq] at hf
    -- the result `resultOf` reads is that of the record the source points to
    obtain ⟨item, hitem, hres⟩ := Option.bind_eq_some_iff.mp hr''
    refine ⟨r', by simp [CacheKeyStorage.loadRemote, CacheKeyStorage.byResultID, hm, hr'],
      ⟨item, List.mem_of_getElem? hitem, r'', hres, hf⟩, ?_⟩
    rw [← hf, hrid]

end Answers

namespace CacheKeyStorage

variable (c : CacheChains RemoteResult) (fromBytes : String → Digest)

theorem mem_linksAt {itl : ItemWithLinks} {cl : NLink} {id : String} (h : (cl, id) ∈ itl.links) :
    id ∈ linksAt itl cl :=
  List.mem_map.mpr ⟨(cl, id), List.mem_filter.mpr ⟨h, by simp⟩, rfl⟩

/-- A link held under the `nlink` of a `CacheInfoLink` is walked and found from it. -/
theorem walkLinks_of_mem {k : CacheKeyStorage} {sid : String} {itl : ItemWithLinks}
    (hitl : k.byID sid = some itl) {i : Nat} {o : Index} {d sel id : String}
    (h : (⟨outputKey fromBytes d o, i, sel⟩, id) ∈ itl.links) :
    id ∈ walkLinks fromBytes k sid ⟨i, o, d, sel⟩ ∧
      hasLink fromBytes k sid ⟨i, o, d, sel⟩ id = true := by
  have hcl : nlinkOf fromBytes ⟨i, o, d, sel⟩ = some ⟨outputKey fromBytes d o, i, sel⟩ := by
    simp [nlinkOf]
  refine ⟨by simp only [walkLinks, hitl, hcl]; exact mem_linksAt h, ?_⟩
  simp only [hasLink, hitl, hcl, List.any_eq_true, beq_iff_eq]
  exact ⟨id, mem_linksAt h, rfl⟩

theorem walkResults_of_byID {k : CacheKeyStorage} {id : String} {itl : ItemWithLinks}
    (h : k.byID id = some itl) :
    walkResults c fromBytes k id = ((resultOf c itl).map fun r => ⟨r.2, remoteID fromBytes r.1⟩).toList := by
  simp only [walkResults, h]
  cases resultOf c itl <;> rfl

end CacheKeyStorage

/-! ## The remotes of the importer's chains -/

/-- What the chains the importer builds keep of their descriptors: `v1.Parse` takes each from the
provider of the manifest, keyed by digest, so that two descriptors of one digest are one. -/
def CacheChains.DescriptorsByDigest (c : CacheChains RemoteResult) : Prop :=
  ∀ item₁ ∈ c.store, ∀ item₂ ∈ c.store, ∀ r₁ ∈ item₁.result, ∀ r₂ ∈ item₂.result,
    ∀ d₁ ∈ r₁.1.descriptors, ∀ d₂ ∈ r₂.1.descriptors, d₁.digest = d₂.digest → d₁ = d₂

instance (c : CacheChains RemoteResult) : Decidable c.DescriptorsByDigest :=
  inferInstanceAs (Decidable (∀ item₁ ∈ c.store, ∀ item₂ ∈ c.store, ∀ r₁ ∈ item₁.result,
    ∀ r₂ ∈ item₂.result, ∀ d₁ ∈ r₁.1.descriptors, ∀ d₂ ∈ r₂.1.descriptors,
      d₁.digest = d₂.digest → d₁ = d₂))

/-- The remote IDs of the results of the chains tell the digests of their descriptors apart: the
digest of the digests has no collision on them. -/
def CacheChains.RemoteIDsDistinct (fromBytes : String → Digest) (c : CacheChains RemoteResult) :
    Prop :=
  ∀ item₁ ∈ c.store, ∀ item₂ ∈ c.store, ∀ r₁ ∈ item₁.result, ∀ r₂ ∈ item₂.result,
    remoteID fromBytes r₁.1 = remoteID fromBytes r₂.1 →
      r₁.1.descriptors.map (·.digest) = r₂.1.descriptors.map (·.digest)

instance (fromBytes : String → Digest) (c : CacheChains RemoteResult) :
    Decidable (c.RemoteIDsDistinct fromBytes) :=
  inferInstanceAs (Decidable (∀ item₁ ∈ c.store, ∀ item₂ ∈ c.store, ∀ r₁ ∈ item₁.result,
    ∀ r₂ ∈ item₂.result, remoteID fromBytes r₁.1 = remoteID fromBytes r₂.1 →
      r₁.1.descriptors.map (·.digest) = r₂.1.descriptors.map (·.digest)))

/-- Two lists of descriptors of one list of digests, in which a digest tells its descriptor, are
one. -/
theorem eq_of_map_digest_eq {l₁ l₂ : List Descriptor}
    (h : ∀ d₁ ∈ l₁, ∀ d₂ ∈ l₂, d₁.digest = d₂.digest → d₁ = d₂)
    (hmap : l₁.map (·.digest) = l₂.map (·.digest)) : l₁ = l₂ := by
  induction l₁ generalizing l₂ with
  | nil => exact (List.map_eq_nil_iff.mp hmap.symm).symm
  | cons d₁ l₁ ih =>
    cases l₂ with
    | nil => cases hmap
    | cons d₂ l₂ =>
      obtain ⟨hd, hl⟩ := List.cons.inj hmap
      have htail : l₁ = l₂ :=
        ih (fun a ha b hb => h a (List.mem_cons_of_mem d₁ ha) b (List.mem_cons_of_mem d₂ hb)) hl
      rw [h d₁ List.mem_cons_self d₂ List.mem_cons_self hd, htail]

/-- On the importer's chains, two results of one remote ID have one remote. -/
theorem CacheChains.remote_eq_of_remoteID_eq {c : CacheChains RemoteResult}
    {fromBytes : String → Digest} (hdesc : c.DescriptorsByDigest)
    (hid : c.RemoteIDsDistinct fromBytes) {item₁ item₂ : Item RemoteResult}
    (h₁ : item₁ ∈ c.store) (h₂ : item₂ ∈ c.store) {r₁ r₂ : RemoteResult}
    (hr₁ : r₁ ∈ item₁.result) (hr₂ : r₂ ∈ item₂.result)
    (heq : remoteID fromBytes r₁.1 = remoteID fromBytes r₂.1) : r₁.1 = r₂.1 := by
  have hds : r₁.1.descriptors = r₂.1.descriptors :=
    eq_of_map_digest_eq (hdesc item₁ h₁ item₂ h₂ r₁ hr₁ r₂ hr₂)
      (hid item₁ h₁ item₂ h₂ r₁ hr₁ r₂ hr₂ heq)
  obtain ⟨⟨ds₁⟩, t₁⟩ := r₁
  obtain ⟨⟨ds₂⟩, t₂⟩ := r₂
  cases hds
  rfl

/-- What the storage of normalized chains answers of each of their records: it is stored under
its ID; each source holds the link to it, which `WalkLinks` and `HasLink` find from a
`CacheInfoLink` of the input and selector of the link and a digest and output whose
`outputKey` is its digest; `WalkResults` has its result; `LoadRemote` of the ID of its
result returns that result's remote; and one without links is under its digest. The random IDs
are different and none is a digest, and the chains are as the importer builds them: a digest
tells its descriptor, and the remote ID of a result tells its digests. -/
theorem newCacheKeyStorage_answers (c : CacheChains RemoteResult) (fromBytes : String → Digest)
    (newID : Nat → String) (ord : IterOrder Link) (ordIDs : IterOrder String)
    (hc : c.Normalized) (hinj : Function.Injective newID)
    (hfresh : ∀ it (x : Nat) (ix : Item RemoteResult), c.store[x]? = some ix → newID it ≠ ix.dgst)
    (hdesc : c.DescriptorsByDigest) (hremote : c.RemoteIDsDistinct fromBytes)
    {k : CacheKeyStorage} (hk : newCacheKeyStorage c fromBytes newID ord = .ok k)
    {it : Nat} (hit : it ∈ c.items) {item : Item RemoteResult} (hitem : c.store[it]? = some item) :
    k.byItem it = some (idFor newID it item) ∧
    (∀ (i : Nat) m, item.links[i]? = some m → ∀ l ∈ m, ∃ src srcID, l.src = some src ∧
      k.byItem src = some srcID ∧ ∀ d o, item.dgst = outputKey fromBytes d o →
        idFor newID it item ∈ CacheKeyStorage.walkLinks fromBytes k srcID ⟨i, o, d, l.selector⟩ ∧
        CacheKeyStorage.hasLink fromBytes k srcID ⟨i, o, d, l.selector⟩ (idFor newID it item)) ∧
    CacheKeyStorage.walkResults c fromBytes k (idFor newID it item) =
      (item.result.map fun r => ⟨r.2, remoteID fromBytes r.1⟩).toList ∧
    (∀ r, item.result = some r →
      CacheKeyStorage.loadRemote c ordIDs k (remoteID fromBytes r.1) = .ok r.1) ∧
    (item.links = [] → k.byItem it = some item.dgst ∧ k.«exists» item.dgst) := by
  obtain ⟨hinv, hitems⟩ := newCacheKeyStorage_spec (idsDistinct hc hinj hfresh) ord hk
  obtain ⟨id, hstored⟩ := hitems it hit
  obtain rfl := hinv.eq_idFor hstored hitem
  obtain ⟨hlinks, hres⟩ := hinv.held it _ hstored
  obtain ⟨itl, hitl, hi⟩ := Option.map_eq_some_iff.mp hstored.2
  refine ⟨hstored.1, ?_, ?_, ?_, ?_⟩
  · -- each source holds the link under the `nlink` that `WalkLinks` recomputes
    intro i m hm l hl
    obtain ⟨s, sid, itl', hs, hsid, hitl', hmem⟩ := hlinks item hitem i m hm l hl
    refine ⟨s, sid, hs, hsid.1, fun d o hdo => ?_⟩
    rw [hdo] at hmem
    exact CacheKeyStorage.walkLinks_of_mem fromBytes hitl' hmem
  · rw [CacheKeyStorage.walkResults_of_byID c fromBytes hitl, CacheKeyStorage.resultOf, hi, hitem]
    rfl
  · -- the remote `LoadRemote` finds has the remote ID of this one, so it is this one
    intro r hr
    obtain ⟨r', hload, ⟨item', hitem', res, hres', rfl⟩, hrid⟩ :=
      hinv.loadRemote ordIDs (hres item r hitem hr)
    rw [hload, CacheChains.remote_eq_of_remoteID_eq hdesc hremote hitem'
      (List.mem_of_getElem? hitem) hres' hr hrid]
  · intro hnil
    have hid : idFor newID it item = item.dgst := if_pos hnil
    exact ⟨hid ▸ hstored.1, by simp [CacheKeyStorage.exists, ← hid, hitl]⟩

/-- An ID of `n + 1` letters `r`: one for each record, and none a digest. -/
def runID (n : Nat) : String := String.ofList (List.replicate (n + 1) 'r')

theorem runID_injective : Function.Injective runID := by
  intro a b h
  have := congrArg String.length h
  simpa [runID] using this

theorem runID_ne {d : Digest} (h : ':' ∈ d.toList) (n : Nat) : runID n ≠ d := by
  rintro rfl
  simp [runID] at h

/-- A layer of OCI media type. -/
def ociLayer : Remote := ⟨[⟨"application/vnd.oci.image.layer.v1.tar+gzip", "sha256:l", 1⟩]⟩

/-- A record of digest `sha256:a`, and linked from it at input 0 the record of its output 0,
with a result. -/
def linkedChains : CacheChains RemoteResult :=
  ⟨[⟨"sha256:a", none, []⟩,
    ⟨outputKey (fun s => s) "sha256:a" 0, some (ociLayer, 0), [[⟨some 0, ""⟩]]⟩], [0, 1]⟩

theorem newCacheKeyStorage_answers_linked :
    ∃ k, newCacheKeyStorage linkedChains (fun s => s) runID .stored = .ok k ∧
      k.byItem 1 = some (runID 1) ∧
      CacheKeyStorage.walkResults linkedChains (fun s => s) k (runID 1) =
        [⟨0, remoteID (fun s => s) ociLayer⟩] := by
  obtain ⟨k, hk⟩ := Outcome.exists_eq_ok_of_isOk
    (x := newCacheKeyStorage linkedChains (fun s => s) runID .stored) (by decide)
  have hdigests : ∀ ix ∈ linkedChains.store, ':' ∈ ix.dgst.toList := by decide
  obtain ⟨hid, -, hres, -⟩ := newCacheKeyStorage_answers linkedChains (fun s => s) runID .stored
    .stored (CacheChains.normalized_of_nodup (by decide)) runID_injective
    (fun it _ ix hx => runID_ne (hdigests ix (List.mem_of_getElem? hx)) it) (by decide) (by decide)
    hk (show 1 ∈ linkedChains.items by decide) rfl
  exact ⟨k, hk, hid, hres⟩

end Cacheimport

end Buildkit
