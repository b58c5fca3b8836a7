import Buildkit.Lib.Loop
import Buildkit.Lib.Outcome
import Buildkit.Solver.Types

/-!
# The cache chains of a remote cache export

`CacheChains` of `cache/remotecache/v1/chains.go`: the records an exporter adds (`Add`), their
links from the records of their inputs (`LinkFrom`) and their results (`AddResult`); and
`normalize`, which runs `normalizeItem` of `utils.go` over every record so that equivalent
records become one: a record without links is merged into the first of its digest, and one with
links into a record whose links match all of its own, the lowest of their IDs.

`normalizeItem` copies the links of a merged record into the record it is merged into, and
nothing else. No step of it writes a result (`normalize_keeps_results`), so a record with a
result that is merged into an earlier equivalent record without one leaves no result behind it:
the exporter adds such records, a key it exports with a result and the same key it reaches as a
backlink, which has none.

A record is an index into the store of records, the pointer of the Go code. A Go map is a list
of its keys, visited in an `IterOrder`, so that what is proved holds for every order. The
recursion over the records a record links from is bounded by a fuel, whose end is the stack
overflow of the Go code. `digest.FromBytes` is a parameter `fromBytes`; the result time that
`AddResult` writes beside the result is read by nothing modelled and left out.
-/

namespace Buildkit

namespace Cacheimport

/-- `link`: the record a link comes from, `nil` only where `normalizeItem` leaves one, and the
selector. -/
structure Link where
  src : Option Nat
  selector : String
  deriving DecidableEq, Repr

/-- `item`: the digest, the result and, per input, the links. -/
structure Item (ρ : Type) where
  dgst : Digest
  result : Option ρ
  links : List (List Link)
  deriving DecidableEq, Repr

/-- `CacheChains`: the store of records and the list `items` of the chains. -/
structure CacheChains (ρ : Type) where
  store : List (Item ρ)
  items : List Nat
  deriving DecidableEq, Repr

variable {ρ : Type}

/-- `NewCacheChains`. -/
def newCacheChains : CacheChains ρ := ⟨[], []⟩

/-- `CacheChains.Add`: a new record of the digest, and its pointer. -/
def CacheChains.add (c : CacheChains ρ) (dgst : Digest) : CacheChains ρ × Nat :=
  (⟨c.store ++ [⟨dgst, none, []⟩], c.items ++ [c.store.length]⟩, c.store.length)

/-- `item.AddResult`. -/
def CacheChains.addResult (c : CacheChains ρ) (it : Nat) (result : ρ) : Outcome (CacheChains ρ) := do
  let item ← Outcome.index c.store it
  pure { c with store := c.store.set it { item with result := some result } }

/-- A key added to a Go map that represents a set. -/
def insertLink (m : List Link) (l : Link) : List Link := if l ∈ m then m else m ++ [l]

/-- `item.LinkFrom`: the links grown to the input, and the link from `src` added at it. -/
def CacheChains.linkFrom (c : CacheChains ρ) (it src : Nat) (index : Nat) (selector : String) :
    Outcome (CacheChains ρ) := do
  let item ← Outcome.index c.store it
  let links := item.links ++ List.replicate (index + 1 - item.links.length) []
  let item := { item with links := links.modify index fun m => insertLink m ⟨some src, selector⟩ }
  pure { c with store := c.store.set it item }

/-! ## `normalizeItem` -/

/-- `nlink`: a link by the digest of the record it goes to, the input and the selector. -/
structure NLink where
  dgst : Digest
  input : Nat
  selector : String
  deriving DecidableEq, Repr

/-- `normalizeState`, with the store of records it changes. `links` holds the triples of
`links[it][nl][id]`. -/
structure NormalizeState (ρ : Type) where
  store : List (Item ρ)
  added : Nat → Option Nat
  links : List (Option Nat × NLink × Digest)
  byKey : List (Digest × Nat)
  next : Nat

namespace NormalizeState

/-- `state.added[it] = it2`. -/
def setAdded (st : NormalizeState ρ) (it it2 : Nat) : NormalizeState ρ :=
  { st with added := fun j => if j = it then some it2 else st.added j }

/-- `state.byKey[id]`. -/
def lookupKey (st : NormalizeState ρ) (id : Digest) : Option Nat := st.byKey.lookup id

/-- `state.byKey[id] = it`. -/
def setKey (st : NormalizeState ρ) (id : Digest) (it : Nat) : NormalizeState ρ :=
  { st with byKey := (st.byKey.filter (·.1 ≠ id)) ++ [(id, it)] }

/-- The IDs of `state.links[it][nl]`. -/
def linkIDs (st : NormalizeState ρ) (it : Option Nat) (nl : NLink) : List Digest :=
  (st.links.filter fun t => t.1 = it ∧ t.2.1 = nl).map (·.2.2)

/-- `state.links[it][nl][id] = struct{}{}`. -/
def addLinkID (st : NormalizeState ρ) (it : Option Nat) (nl : NLink) (id : Digest) :
    NormalizeState ρ :=
  if (it, nl, id) ∈ st.links then st else { st with links := st.links ++ [(it, nl, id)] }

/-- `it.links = make([]map[link]struct{}, len(it.links))`. -/
def resetLinks (st : NormalizeState ρ) (it : Nat) (item : Item ρ) : NormalizeState ρ :=
  { st with store := st.store.set it { item with links := List.replicate item.links.length [] } }

/-- `it2.links[i][l] = struct{}{}`. -/
def addLink (st : NormalizeState ρ) (it2 i : Nat) (l : Link) : Outcome (NormalizeState ρ) := do
  let item ← Outcome.index st.store it2
  let m ← Outcome.index item.links i
  let item := { item with links := item.links.set i (insertLink m l) }
  pure { st with store := st.store.set it2 item }

end NormalizeState

/-- The lowest of the matching IDs, as the loop over `matches` finds it. -/
def lowestID (matchIDs : List Digest) : Digest :=
  matchIDs.foldl (fun id m => if id = "" ∨ id > m then m else id) ""

/-- The first loop of `normalizeItem`, which checks if there is already a matching record: the
IDs under which every link of `item` is recorded, from the source normalized by `rec`; the IDs
of the links of input 0 are joined, those of each later link intersected with them. -/
def matchLinks (ord : IterOrder Link)
    (rec : Nat → NormalizeState ρ → Outcome (Option Nat × NormalizeState ρ)) (item : Item ρ)
    (st : NormalizeState ρ) : Outcome (List Digest × NormalizeState ρ) :=
  item.links.zipIdx.foldlM
    (fun (acc : List Digest × NormalizeState ρ) (mi : List Link × Nat) =>
      if mi.1 = [] then .error "invalid incomplete links"
      else (ord.order mi.1).foldlM (fun (acc : List Digest × NormalizeState ρ) l => do
        let src ← Outcome.deref l.src
        let (it2, st) ← rec src acc.2
        let links := st.linkIDs it2 ⟨item.dgst, mi.2, l.selector⟩
        pure (if mi.2 = 0 then acc.1 ++ links else acc.1.filter (· ∈ links), st)) acc)
    ([], st)

/-- The ID a record with links is merged under: the lowest of the matches, or else a new
temporary ID, under which the record itself is kept with its links reset. -/
def chooseID (fromBytes : String → Digest) (matchIDs : List Digest) (it : Nat) (item : Item ρ)
    (st : NormalizeState ρ) : Digest × NormalizeState ρ :=
  if matchIDs ≠ [] then (lowestID matchIDs, st)
  else
    -- keep tmp IDs deterministic
    let id := fromBytes (toString (st.next + 1))
    (id, (({ st with next := st.next + 1 } : NormalizeState ρ).setKey id it).resetLinks it item)

/-- The second loop of `normalizeItem`: every link of `item` is added to `it2` from the source
normalized by `rec`, and recorded under `id`. -/
def copyLinks (ord : IterOrder Link)
    (rec : Nat → NormalizeState ρ → Outcome (Option Nat × NormalizeState ρ)) (item : Item ρ)
    (it2 : Nat) (id : Digest) (st : NormalizeState ρ) : Outcome (NormalizeState ρ) :=
  item.links.zipIdx.foldlM (fun (st : NormalizeState ρ) (mi : List Link × Nat) =>
    (ord.order mi.1).foldlM (fun (st : NormalizeState ρ) l => do
      let src ← Outcome.deref l.src
      let (subIt, st) ← rec src st
      let st ← st.addLink it2 mi.2 ⟨subIt, l.selector⟩
      pure (st.addLinkID subIt ⟨item.dgst, mi.2, l.selector⟩ id)) st) st

/-- `normalizeItem`: the record `it` is merged into, `none` for the first record of a digest
without links. -/
def normalizeItem (fromBytes : String → Digest) (ord : IterOrder Link) :
    Nat → Nat → NormalizeState ρ → Outcome (Option Nat × NormalizeState ρ)
  | 0, _, _ => .panic "runtime: goroutine stack exceeds limit"
  | fuel + 1, it, st =>
    match st.added it with
    | some it2 => pure (some it2, st)
    | none => do
      let item ← Outcome.index st.store it
      if item.links = [] then
        match st.lookupKey item.dgst with
        | some it2 => pure (some it2, st.setAdded it it2)
        | none => pure (none, (st.setKey item.dgst it).setAdded it it)
      else do
        let (matchIDs, st) ← matchLinks ord (normalizeItem fromBytes ord fuel) item st
        let (id, st) := chooseID fromBytes matchIDs it item st
        let it2 ← Outcome.deref (st.lookupKey id)
        let st ← copyLinks ord (normalizeItem fromBytes ord fuel) item it2 id (st.setAdded it it2)
        pure (some it2, st)

/-- The state `normalize` starts from. -/
def NormalizeState.init (c : CacheChains ρ) : NormalizeState ρ := ⟨c.store, fun _ => none, [], [], 0⟩

/-- `CacheChains.normalize`: the chains are the records left in `byKey`, in the order of a loop
over the map; the state is returned beside them. -/
def CacheChains.normalize (c : CacheChains ρ) (fromBytes : String → Digest) (ord : IterOrder Link)
    (ordKeys : IterOrder Nat) (fuel : Nat) : Outcome (CacheChains ρ × NormalizeState ρ) := do
  let st ← c.items.foldlM (fun (st : NormalizeState ρ) it => do
    let (_, st) ← normalizeItem fromBytes ord fuel it st
    pure st) (NormalizeState.init c)
  pure (⟨st.store, ordKeys.order (st.byKey.map (·.2))⟩, st)

/-! ## No step of `normalize` writes a result -/

namespace NormalizeState

/-- The records of `st'` have the results of those of `st`. -/
def SameResults (st st' : NormalizeState ρ) : Prop :=
  st'.store.map (·.result) = st.store.map (·.result)

theorem SameResults.refl (st : NormalizeState ρ) : SameResults st st := rfl

theorem SameResults.trans {s₁ s₂ s₃ : NormalizeState ρ} (h₁ : SameResults s₁ s₂)
    (h₂ : SameResults s₂ s₃) : SameResults s₁ s₃ :=
  Eq.trans h₂ h₁

@[simp] theorem store_addLinkID (st : NormalizeState ρ) (it : Option Nat) (nl : NLink) (id : Digest) :
    (st.addLinkID it nl id).store = st.store := by
  unfold addLinkID
  split <;> rfl

theorem sameResults_addLinkID (st : NormalizeState ρ) (it : Option Nat) (nl : NLink) (id : Digest) :
    SameResults st (st.addLinkID it nl id) :=
  congrArg (List.map _) (store_addLinkID st it nl id)

/-- The links of a record are reset to the links of what was read of it, whose result it still
has. -/
theorem sameResults_resetLinks {st : NormalizeState ρ} {it : Nat} {item : Item ρ}
    (h : (st.store.map (·.result))[it]? = some item.result) :
    SameResults st (st.resetLinks it item) := by
  obtain ⟨b, hb, hres⟩ := Option.map_eq_some_iff.mp (List.getElem?_map ▸ h)
  exact List.map_set_of_getElem? hb hres.symm

theorem sameResults_addLink {st st' : NormalizeState ρ} {it2 i : Nat} {l : Link}
    (h : st.addLink it2 i l = .ok st') : SameResults st st' := by
  obtain ⟨item, hitem, h⟩ := Outcome.bind_eq_ok.mp h
  obtain ⟨m, -, h⟩ := Outcome.bind_eq_ok.mp h
  cases h
  exact List.map_set_of_getElem? (Outcome.index_eq_ok.mp hitem) rfl

end NormalizeState

open NormalizeState

section

/- The two loops of `normalizeItem`, with the recursive call `rec` keeping the results. -/
variable {ord : IterOrder Link} (rec : Nat → NormalizeState ρ → Outcome (Option Nat × NormalizeState ρ))

theorem matchLinks_sameResults (hrec : ∀ {src st r}, rec src st = .ok r → SameResults st r.2)
    {item : Item ρ} {st : NormalizeState ρ} {r : List Digest × NormalizeState ρ}
    (h : matchLinks ord rec item st = .ok r) : SameResults st r.2 := by
  -- both loops carry the state of the accumulator
  refine Outcome.foldlM_rel (fun a b => SameResults a.2 b.2) (fun _ => .refl _)
    (by intro _ _ _ h₁ h₂; exact h₁.trans h₂) ?_ h
  intro mi _ acc acc' hmi
  split at hmi
  · cases hmi
  · refine Outcome.foldlM_rel (fun a b => SameResults a.2 b.2) (fun _ => .refl _)
      (by intro _ _ _ h₁ h₂; exact h₁.trans h₂) ?_ hmi
    intro l _ acc acc' hl
    obtain ⟨src, -, hl⟩ := Outcome.bind_eq_ok.mp hl
    obtain ⟨⟨it2, st₂⟩, hn, hl⟩ := Outcome.bind_eq_ok.mp hl
    cases hl
    exact hrec hn

theorem copyLinks_sameResults (hrec : ∀ {src st r}, rec src st = .ok r → SameResults st r.2)
    {item : Item ρ} {it2 : Nat} {id : Digest} {st st' : NormalizeState ρ}
    (h : copyLinks ord rec item it2 id st = .ok st') : SameResults st st' := by
  refine Outcome.foldlM_rel SameResults .refl (fun h₁ h₂ => h₁.trans h₂) ?_ h
  intro mi _ st st' hmi
  refine Outcome.foldlM_rel SameResults .refl (fun h₁ h₂ => h₁.trans h₂) ?_ hmi
  intro l _ st st' hl
  obtain ⟨src, -, hl⟩ := Outcome.bind_eq_ok.mp hl
  obtain ⟨⟨subIt, st₁⟩, hn, hl⟩ := Outcome.bind_eq_ok.mp hl
  obtain ⟨st₂, ha, hl⟩ := Outcome.bind_eq_ok.mp hl
  cases hl
  exact (hrec hn).trans ((sameResults_addLink ha).trans (sameResults_addLinkID _ _ _ _))

end

theorem sameResults_chooseID (fromBytes : String → Digest) (matchIDs : List Digest) {it : Nat}
    {item : Item ρ} {st : NormalizeState ρ} (h : (st.store.map (·.result))[it]? = some item.result) :
    SameResults st (chooseID fromBytes matchIDs it item st).2 := by
  unfold chooseID
  split
  · exact .refl _
  · exact sameResults_resetLinks h

/-- By induction on the fuel: the recursive calls in both loops keep the results. -/
theorem normalizeItem_sameResults (fromBytes : String → Digest) (ord : IterOrder Link) (fuel : Nat) :
    ∀ {it : Nat} {st : NormalizeState ρ} {r : Option Nat × NormalizeState ρ},
      normalizeItem fromBytes ord fuel it st = .ok r → SameResults st r.2 := by
  induction fuel with
  | zero => intro it st r h; cases h
  | succ fuel ih =>
    intro it st r h
    rw [normalizeItem] at h
    split at h
    · cases h; exact .refl _
    · obtain ⟨item, hitem, h⟩ := Outcome.bind_eq_ok.mp h
      split at h
      · split at h <;> (cases h; exact .refl _)
      · obtain ⟨⟨matchIDs, st₁⟩, h₁, h⟩ := Outcome.bind_eq_ok.mp h
        have hs₁ : SameResults st st₁ :=
          matchLinks_sameResults (normalizeItem fromBytes ord fuel) ih h₁
        -- the record read before the first loop still has its result after it
        have hres : (st₁.store.map (·.result))[it]? = some item.result := by
          rw [hs₁, List.getElem?_map, Outcome.index_eq_ok.mp hitem, Option.map_some]
        rcases hc : chooseID fromBytes matchIDs it item st₁ with ⟨id, st₂⟩
        have hs₂ : SameResults st₁ st₂ := by
          simpa [hc] using sameResults_chooseID fromBytes matchIDs hres
        dsimp only at h
        rw [hc] at h
        obtain ⟨it2, -, h⟩ := Outcome.bind_eq_ok.mp h
        obtain ⟨st₃, h₃, h⟩ := Outcome.bind_eq_ok.mp h
        cases h
        have hs₃ : SameResults (st₂.setAdded it it2) st₃ :=
          copyLinks_sameResults (normalizeItem fromBytes ord fuel) ih h₃
        exact hs₁.trans (hs₂.trans hs₃)

/-- No step of `normalize` writes a result: each record has the result it had before. -/
theorem normalize_keeps_results {c c' : CacheChains ρ} {fromBytes : String → Digest}
    {ord : IterOrder Link} {ordKeys : IterOrder Nat} {fuel : Nat} {st : NormalizeState ρ}
    (h : c.normalize fromBytes ord ordKeys fuel = .ok (c', st)) :
    c'.store.map (·.result) = c.store.map (·.result) := by
  obtain ⟨st', h₁, h⟩ := Outcome.bind_eq_ok.mp h
  cases h
  refine Outcome.foldlM_rel SameResults .refl (fun h₁ h₂ => h₁.trans h₂) ?_ h₁
  intro it _ st st' hit
  obtain ⟨⟨_, st₁⟩, hn, hit⟩ := Outcome.bind_eq_ok.mp hit
  cases hit
  exact normalizeItem_sameResults fromBytes ord fuel hn

/-! ## The records of the chains, and what `normalize` makes of them -/

/-- A link of the record `it` comes from `s`. -/
def LinkedFrom (c : CacheChains ρ) (s it : Nat) : Prop :=
  ∃ item, c.store[it]? = some item ∧ ∃ m ∈ item.links, ∃ l ∈ m, l.src = some s

/-- The records of the chains and those their links come from. -/
inductive Reachable (c : CacheChains ρ) : Nat → Prop
  | item {it : Nat} : it ∈ c.items → Reachable c it
  | src {it s : Nat} : Reachable c it → LinkedFrom c s it → Reachable c s

/-- Normalized chains: no two of their records without links have one digest. -/
def CacheChains.Normalized (c : CacheChains ρ) : Prop :=
  ∀ x y ix iy, Reachable c x → Reachable c y → c.store[x]? = some ix → c.store[y]? = some iy →
    ix.links = [] → iy.links = [] → ix.dgst = iy.dgst → x = y

/-- Chains whose records all have different digests are normalized. -/
theorem CacheChains.normalized_of_nodup {c : CacheChains ρ} (h : (c.store.map (·.dgst)).Nodup) :
    c.Normalized := by
  intro x y ix iy _ _ hx hy _ _ hd
  obtain ⟨hxl, rfl⟩ := List.getElem?_eq_some_iff.mp hx
  obtain ⟨hyl, rfl⟩ := List.getElem?_eq_some_iff.mp hy
  exact (@List.Nodup.getElem_inj_iff _ _ h x (by simpa using hxl) y (by simpa using hyl)).mp
    (by simpa using hd)

/-- A key reached as a backlink first, without a result, then exported with its result. -/
def backlinkFirst : CacheChains String :=
  ⟨[⟨"sha256:k", none, []⟩, ⟨"sha256:k", some "layer", []⟩], [0, 1]⟩

theorem normalize_keeps_results_backlinkFirst :
    ∃ c' st, backlinkFirst.normalize id IterOrder.stored IterOrder.stored 3 = .ok (c', st) ∧
      st.added 1 = some 0 ∧ c'.items = [0] ∧ c'.store.map (·.result) = [none, some "layer"] :=
  ⟨_, _, rfl, rfl, rfl,
    (@normalize_keeps_results String backlinkFirst _ id .stored .stored 3 _ rfl).trans rfl⟩

end Cacheimport

end Buildkit
