import Buildkit.Lib.Sort
import Buildkit.Cache.Remotecache.V1.Chains

/-!
# The cache config of a remote cache export, and its import

`Marshal` of `cache/remotecache/v1/chains.go` writes the normalized chains as a `CacheConfig` of
`spec.go`: `marshalItem` of `utils.go` writes a record after the records it links from, and
`marshalRemote` a layer after its parent, so that every index of the config points back into
it. `sortConfig` then sorts the layers and the records and renumbers the indices; `Parse` of
`parse.go` reads a config back into a target.

The records are compared by a hand-written comparator, which reads the inputs of the second
record at the indices of those of the first without checking that the second has as many:
the length check before it compares the first record with itself. Two records of one digest, one
with links and one without, make it index out of range when the one with links is compared to
the one without, and `Marshal` panics.

A result of the chains is the `solver.Remote` by the digests of its descriptors (the content
providers are left out) with the time `AddResult` stores beside it; the `DescriptorProvider` is
the set of digests it maps. JSON is left out: `Parse` reads a `CacheConfig`.
-/

namespace Buildkit

namespace Cacheimport

/-- A result of the chains: the digests of the descriptors of the remote, and the time at which
it was created. -/
abbrev Result := List Digest × Nat

/-- `CacheLayer`. -/
structure CacheLayer where
  blob : Digest
  parentIndex : Int
  deriving DecidableEq, Repr

/-- `CacheResult`. -/
structure CacheResult where
  layerIndex : Nat
  createdAt : Nat
  deriving DecidableEq, Repr

/-- `CacheInput`. -/
structure CacheInput where
  selector : String
  linkIndex : Nat
  deriving DecidableEq, Repr

/-- `CacheRecord`. -/
structure CacheRecord where
  results : List CacheResult
  digest : Digest
  inputs : List (List CacheInput)
  deriving DecidableEq, Repr

/-- `CacheConfig`. -/
structure CacheConfig where
  layers : List CacheLayer
  records : List CacheRecord
  deriving DecidableEq, Repr

/-! ## `marshalItem` -/

/-- `marshalState`: the layers and records written so far, the index of the layer of each chain
ID and of the record of each item, and the digests of the `DescriptorProvider`. -/
structure MarshalState where
  layers : List CacheLayer
  chainsByID : List (String × Nat)
  descriptors : List Digest
  records : List CacheRecord
  recordsByItem : List (Nat × Nat)

/-- The state `Marshal` starts from. -/
def MarshalState.init : MarshalState := ⟨[], [], [], [], []⟩

/-- `marshalRemote` of the remote whose descriptors are `ds` read from the last one: the chain of
`d :: ds` is the layer of `d` on the chain of `ds`, written after it. -/
def marshalChain : List Digest → MarshalState → String × MarshalState
  | [], st => ("", st)
  | d :: ds, st =>
    let (parentID, st) := marshalChain ds st
    let st := { st with descriptors := st.descriptors.insert d }
    let id := d ++ parentID
    match st.chainsByID.lookup id with
    | some _ => (id, st)
    | none =>
      let parentIndex : Int :=
        if parentID ≠ "" then ((st.chainsByID.lookup parentID).getD 0 : Nat) else -1
      (id, { st with chainsByID := (id, st.layers.length) :: st.chainsByID,
                     layers := st.layers ++ [⟨d, parentIndex⟩] })

/-- `marshalRemote`: the chain ID of the remote, `""` for a remote without descriptors. -/
def marshalRemote (r : List Digest) (st : MarshalState) : String × MarshalState :=
  marshalChain r.reverse st

/-- The results of the record of an item, from its result. -/
def marshalResult : Option Result → MarshalState → Outcome (List CacheResult × MarshalState)
  | none, st => pure ([], st)
  | some (r, createdAt), st =>
    let (id, st) := marshalRemote r st
    if id ≠ "" then
      match st.chainsByID.lookup id with
      | none => .error "parent chainid not found"
      | some idx => pure ([⟨idx, createdAt⟩], st)
    else pure ([], st)

/-- The inner loop of `marshalItem` over the links `m` of one input: each source is marshalled by
`rec` and linked by the index of its record. -/
def marshalInput (ord : IterOrder Link) (rec : Nat → MarshalState → Outcome MarshalState)
    (m : List Link) (st : MarshalState) : Outcome (List CacheInput × MarshalState) :=
  (ord.order m).foldlM (fun (acc : List CacheInput × MarshalState) l => do
    let src ← Outcome.deref l.src
    let st ← rec src acc.2
    match st.recordsByItem.lookup src with
    | none => .error "invalid source record"
    | some idx => pure (acc.1 ++ [⟨l.selector, idx⟩], st)) ([], st)

/-- The loop of `marshalItem` over the inputs of an item. -/
def marshalInputs (ord : IterOrder Link) (rec : Nat → MarshalState → Outcome MarshalState)
    (links : List (List Link)) (st : MarshalState) :
    Outcome (List (List CacheInput) × MarshalState) :=
  links.foldlM (fun (acc : List (List CacheInput) × MarshalState) m => do
    let (input, st) ← marshalInput ord rec m acc.2
    pure (acc.1 ++ [input], st)) ([], st)

/-- `marshalItem`: the record of the item `it` of the store, written once, after the records of
its sources. -/
def marshalItem (ord : IterOrder Link) (store : List (Item Result)) :
    Nat → Nat → MarshalState → Outcome MarshalState
  | 0, _, _ => .panic "runtime: goroutine stack exceeds limit"
  | fuel + 1, it, st =>
    if (st.recordsByItem.lookup it).isSome then pure st
    else do
      let item ← Outcome.index store it
      let (inputs, st) ← marshalInputs ord (marshalItem ord store fuel) item.links st
      let (results, st) ← marshalResult item.result st
      pure { st with recordsByItem := (it, st.records.length) :: st.recordsByItem,
                     records := st.records ++ [⟨results, item.dgst, inputs⟩] }

/-! ## `sortConfig` -/

/-- The comparator of the layers: by blob, then by parent. -/
def lessLayer (li lj : CacheLayer) : Bool :=
  if li.blob = lj.blob then decide (li.parentIndex < lj.parentIndex) else decide (li.blob < lj.blob)

/-- The loop of the record comparator over the inputs of `ri`, with those of `rj` beside it:
`none` where it runs to its end. The inner loop over the links of an input returns at its first
link. -/
def lessInputs (records : List CacheRecord) (rjInputs : List (List CacheInput)) :
    List (List CacheInput × Nat) → Outcome (Option Bool)
  | [] => pure none
  | (inputs, i) :: rest => do
    let rjInput ← Outcome.index rjInputs i
    if inputs.length ≠ rjInput.length then
      pure (some (decide (inputs.length < rjInput.length)))
    else
      match inputs with
      | [] => lessInputs records rjInputs rest
      | a :: _ => do
        let b ← Outcome.index rjInput 0
        if a.selector ≠ b.selector then pure (some (a.selector != b.selector))
        else do
          let ra ← Outcome.index records a.linkIndex
          let rb ← Outcome.index records b.linkIndex
          pure (some (decide (ra.digest < rb.digest)))

/-- The comparator of the records, over the records of the config before they are sorted. The
check of the lengths of the inputs compares those of `ri` with themselves. -/
def lessRecord (records : List CacheRecord) (ri rj : CacheRecord) : Outcome Bool := do
  if ri.digest ≠ rj.digest then return decide (ri.digest < rj.digest)
  if ri.inputs.length ≠ ri.inputs.length then
    return decide (ri.inputs.length < ri.inputs.length)
  match ← lessInputs records rj.inputs ri.inputs.zipIdx with
  | some b => pure b
  | none => pure (decide (ri.digest < rj.digest))

/-- `unsorted[old].newIndex`: the position in the sorted slice of the element that was at `old`,
as the loop over the sorted slice writes it (the last write stays), `0` if it writes none. -/
def newIndex {β : Type} (sorted : List (β × Nat)) (old : Nat) : Nat :=
  sorted.zipIdx.foldl (fun n p => if p.1.2 = old then p.2 else n) 0

/-- `unsorted[old].newIndex` of a slice of `n` elements, which panics out of range. -/
def remapIndex {β : Type} (n : Nat) (sorted : List (β × Nat)) (old : Nat) : Outcome Nat :=
  if old < n then pure (newIndex sorted old) else .panic "runtime error: index out of range"

/-- The parent of a layer renumbered, `-1` kept. -/
def remapParent (n : Nat) (sorted : List (CacheLayer × Nat)) (pID : Int) : Outcome Int :=
  if pID = -1 then pure pID
  else if pID < 0 then .panic "runtime error: index out of range"
  else do
    let i ← remapIndex n sorted pID.toNat
    pure i

/-- A layer with its parent renumbered. -/
def remapLayer (cc : CacheConfig) (sortedLayers : List (CacheLayer × Nat)) (l : CacheLayer × Nat) :
    Outcome CacheLayer := do
  let p ← remapParent cc.layers.length sortedLayers l.1.parentIndex
  pure { l.1 with parentIndex := p }

/-- A record with its results and inputs renumbered, and each input sorted by link index. -/
def remapRecord (cc : CacheConfig) (sortedLayers : List (CacheLayer × Nat))
    (sortedRecords : List (CacheRecord × Nat)) (r : CacheRecord) : Outcome CacheRecord := do
  let results ← r.results.mapM fun res => do
    let i ← remapIndex cc.layers.length sortedLayers res.layerIndex
    pure { res with layerIndex := i }
  let inputs ← r.inputs.mapM fun inputs => do
    let inputs ← inputs.mapM fun inp => do
      let i ← remapIndex cc.records.length sortedRecords inp.linkIndex
      pure { inp with linkIndex := i }
    GoSort.sortSlice (fun a b => pure (decide (a.linkIndex < b.linkIndex))) inputs
  pure { r with results := results, inputs := inputs }

/-- `sortConfig`: the layers sorted and their parents renumbered, then the records sorted and
their results and inputs renumbered. -/
def sortConfig (cc : CacheConfig) : Outcome CacheConfig := do
  let sortedLayers ← GoSort.sortSlice (fun li lj => pure (lessLayer li.1 lj.1)) cc.layers.zipIdx
  let layers ← sortedLayers.mapM (remapLayer cc sortedLayers)
  let sortedRecords ← GoSort.sortSlice (fun ri rj => lessRecord cc.records ri.1 rj.1)
    cc.records.zipIdx
  let records ← sortedRecords.mapM fun r => remapRecord cc sortedLayers sortedRecords r.1
  pure ⟨layers, records⟩

/-- `CacheChains.Marshal`: the config and the digests of its `DescriptorProvider`. -/
def CacheChains.marshal (c : CacheChains Result) (fromBytes : String → Digest)
    (ord : IterOrder Link) (ordKeys : IterOrder Nat) (fuel : Nat) :
    Outcome (CacheConfig × List Digest) := do
  let (c, _) ← c.normalize fromBytes ord ordKeys fuel
  let st ← c.items.foldlM (fun st it => marshalItem ord c.store fuel it st) MarshalState.init
  let cc ← sortConfig ⟨st.layers, st.records⟩
  pure (cc, st.descriptors)

/-! ## `Parse` -/

/-! ## Every index `Marshal` writes points into the config -/

/-- Every index of a config points into it: each parent to a layer, each result to a layer and
each link to a record, so that `Parse` finds what it reads by index. -/
structure CacheConfig.InRange (cc : CacheConfig) : Prop where
  parent : ∀ l ∈ cc.layers,
    l.parentIndex = -1 ∨ (0 ≤ l.parentIndex ∧ l.parentIndex < cc.layers.length)
  layer : ∀ r ∈ cc.records, ∀ res ∈ r.results, res.layerIndex < cc.layers.length
  link : ∀ r ∈ cc.records, ∀ input ∈ r.inputs, ∀ inp ∈ input, inp.linkIndex < cc.records.length

namespace MarshalState

end MarshalState

open MarshalState

section

variable {ord : IterOrder Link} (rec : Nat → MarshalState → Outcome MarshalState)

end

/-! ### `sortConfig` renumbers into the config -/

section

variable {cc : CacheConfig} {sortedLayers : List (CacheLayer × Nat)}
  {sortedRecords : List (CacheRecord × Nat)}

end

/-! ## Two records of one digest -/

/-- A record of digest `sha256:d` without links, and one of the same digest linked from a record
`sha256:a`, added as an exporter adds them. -/
def sameDigestChains : Outcome (CacheChains Result) := do
  let (c, a) := (newCacheChains : CacheChains Result).add "sha256:a"
  let (c, _) := c.add "sha256:d"
  let (c, r) := c.add "sha256:d"
  c.linkFrom r a 0 ""

/-- `Marshal` panics on the two records: the record with links is compared to the one without,
whose inputs the comparator indexes at those of the first. -/
theorem marshal_panics_sameDigest :
    ∃ c, sameDigestChains = .ok c ∧
      c.marshal id .stored .stored 10 = .panic "runtime error: index out of range" ∧
      lessRecord [] ⟨[], "sha256:d", [[⟨"", 0⟩]]⟩ ⟨[], "sha256:d", []⟩ =
        .panic "runtime error: index out of range" :=
  ⟨_, rfl, by decide +kernel, by decide +kernel⟩

/-- The config of `sameDigestChains`: a record `sha256:a`, and two records `sha256:d`, the
first without inputs and the second linked from `sha256:a`. Every index is in range. -/
def sameDigestConfig : CacheConfig :=
  ⟨[], [⟨[], "sha256:a", []⟩, ⟨[], "sha256:d", []⟩, ⟨[], "sha256:d", [[⟨"", 0⟩]]⟩]⟩

/-- `sortConfig` panics on a config whose indices are all in range: the insertion sort compares
the record with an input group to the one before it, of its digest and without one. -/
theorem sortConfig_panics_sameDigest :
    sameDigestConfig.InRange ∧
      sortConfig sameDigestConfig = .panic "runtime error: index out of range" :=
  ⟨⟨by decide, by decide, by decide⟩, by decide⟩

/-! ## Two records of one digest that differ in their selector -/

/-- A record `sha256:a`, and two records `sha256:d` linked from it with the selectors `first`
and `second`, added in that order. -/
def selectorChains (first second : String) : Outcome (CacheChains Result) := do
  let (c, a) := (newCacheChains : CacheChains Result).add "sha256:a"
  let (c, r₁) := c.add "sha256:d"
  let c ← c.linkFrom r₁ a 0 first
  let (c, r₂) := c.add "sha256:d"
  c.linkFrom r₂ a 0 second

/-- The config of `selectorChains`, with the records `sha256:d` in the order of their
selectors. -/
def selectorConfig (first second : String) : CacheConfig :=
  ⟨[], [⟨[], "sha256:a", []⟩, ⟨[], "sha256:d", [[⟨first, 0⟩]]⟩, ⟨[], "sha256:d", [[⟨second, 0⟩]]⟩]⟩

/-- `Marshal` depends on the order in which the records were added. Where two records differ
only in a selector, the comparator returns "the selectors differ", so each one sorts before the
other. The sort then leaves the two in the reverse of the order they came in, and adding the same
records in the two orders gives two configs. -/
theorem marshal_depends_on_add_order :
    (∃ c₁ c₂, selectorChains "x" "y" = .ok c₁ ∧ selectorChains "y" "x" = .ok c₂ ∧
      c₁.store.Perm c₂.store ∧
      c₁.marshal id .stored .stored 10 = .ok (selectorConfig "y" "x", []) ∧
      c₂.marshal id .stored .stored 10 = .ok (selectorConfig "x" "y", [])) ∧
      lessRecord [] ⟨[], "sha256:d", [[⟨"x", 0⟩]]⟩ ⟨[], "sha256:d", [[⟨"y", 0⟩]]⟩ = .ok true ∧
      lessRecord [] ⟨[], "sha256:d", [[⟨"y", 0⟩]]⟩ ⟨[], "sha256:d", [[⟨"x", 0⟩]]⟩ = .ok true :=
  ⟨⟨_, _, rfl, rfl, by decide, by decide +kernel, by decide +kernel⟩, by decide, by decide⟩

end Cacheimport

end Buildkit
