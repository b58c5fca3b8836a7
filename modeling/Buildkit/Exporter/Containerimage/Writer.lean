import Mathlib.Data.List.Forall2
import Buildkit.Lib.Outcome
import Buildkit.Solver.Types

/-!
# The layers and the history of an exported image

Before the image writer (`exporter/containerimage/writer.go`) patches an image config,
`normalizeLayersAndHistory` lines its history up with the layers of the image: the config
should have one non-empty history entry for each layer, in order. It runs in three phases.
If the history has more non-empty entries than there are layers, the surplus entries are
forced empty from the bottom (`forceEmptyLayers`); if it has fewer, entries are added for the
missing layers from the metadata of the ref's parent chain (`missingHistory`, from
`getRefMetadata`); and then the history and the layers are walked in step (`alignStep`), and a
layer that is the empty gzip blob is dropped while its history entry is marked empty.

The third phase indexes the list of layers it deletes from. It never runs out of range because
the first two leave exactly as many non-empty entries as there are layers, and the walk keeps
its index plus the non-empty entries still to come equal to the number of layers left
(`AlignInv`). `normalizeLayersAndHistory_aligned` is the result: the call ends, and the layers
it returns are the non-empty blobs, as many as the non-empty entries of the history it returns,
which is the history it was given, entries retouched only in their `EmptyLayer` flag and a
missing `Created`, followed by the entries it generated.
-/

namespace Buildkit.Containerimage

/-- `blobs.DiffPair`: a layer, by the digest of its content and of its blob. -/
structure DiffPair where
  diffID : Digest
  blobsum : Digest
  deriving DecidableEq, Repr

/-- `ocispec.History`; a `*time.Time` is an optional instant. -/
structure History where
  created : Option Nat
  createdBy : String
  author : String
  comment : String
  emptyLayer : Bool
  deriving DecidableEq, Repr

/-- The blob of an empty layer compressed with gzip. -/
def emptyGZLayer : Digest :=
  "sha256:4f4fb700ef54461cfa02571ae0db9a0dc1e0cdb5577484a6d75e68dc38e8acc1"

/-- `refMetadata`. -/
structure RefMetadata where
  description : String
  createdAt : Nat
  deriving DecidableEq, Repr

/-- What `getRefMetadata` reads of a cache ref: `cache.GetDescription` and `cache.GetCreatedAt`
of its metadata. A ref with its parents is the list of these from the ref down to its root, and
a nil ref the empty list. -/
structure RefInfo where
  description : String
  createdAt : Nat
  deriving DecidableEq, Repr

/-- `getRefMetadata`: the metadata of `limit` refs of the chain from `ref` down, the lowest
first. Past the root of the chain an entry is made up, dated `now` (`time.Now()`). -/
def getRefMetadata (now : Nat) : List RefInfo → Nat → List RefMetadata
  | _, 0 => []
  | [], limit + 1 => getRefMetadata now [] limit ++ [⟨"created by buildkit", now⟩]
  | r :: p, limit + 1 =>
    getRefMetadata now p limit ++
      [⟨if r.description ≠ "" then r.description else "created by buildkit", r.createdAt⟩]

/-- One iteration of the loop that forces history entries empty once `l`, the count of the
non-empty entries copied so far, reaches the number `n` of layers. -/
def forceEmptyStep (n : Nat) : Nat × List History → History → Nat × List History
  | (l, historyCopy), h =>
    let h := if l ≥ n then { h with emptyLayer := true } else h
    (if !h.emptyLayer then l + 1 else l, historyCopy ++ [h])

/-- The history with its non-empty entries past the `n`-th forced empty. -/
def forceEmptyLayers (n : Nat) (history : List History) : List History :=
  (history.foldl (forceEmptyStep n) (0, [])).2

/-- The entries added for the layers `mds` that have none. Go before 1.22 has one variable `md`
for the whole loop, and every entry's `Created` points at its `createdAt`: once the loop is
done, that is the time of the last one. -/
def missingHistory (mds : List RefMetadata) : List History :=
  mds.map fun md =>
    { created := mds.getLast?.map (·.createdAt), createdBy := md.description, author := "",
      comment := "buildkit.exporter.image.v0", emptyLayer := false }

/-- The first two phases: the history with exactly as many non-empty entries as there are
layers, `n`, given the metadata `refMeta` of the layers. -/
def fillHistory (refMeta : List RefMetadata) (n : Nat) (history : List History) :
    Outcome (List History) := do
  let historyLayers := history.countP (!·.emptyLayer)
  -- this case shouldn't happen but if it does force set history layers empty from the bottom
  let history := if historyLayers > n then forceEmptyLayers n history else history
  if n > historyLayers then
    -- some history items are missing: add them based on the ref metadata
    let mds ← Outcome.sliceFrom refMeta historyLayers
    pure (history ++ missingHistory mds)
  else pure history

/-- The state of the loop that walks the history and the layers in step: the index of the next
layer, the layers, and the history entries written so far. -/
structure Align where
  layerIndex : Nat
  diffs : List DiffPair
  history : List History
  deriving DecidableEq, Repr

/-- One iteration of the walk, at the history entry `h`. -/
def alignStep (refMeta : List RefMetadata) (w : Align) (h : History) : Outcome Align :=
  if h.emptyLayer then pure { w with history := w.history ++ [h] }
  else do
    let h ← if h.created = none then do
        let md ← Outcome.index refMeta w.layerIndex
        pure { h with created := some md.createdAt }
      else pure h
    let d ← Outcome.index w.diffs w.layerIndex
    if d.blobsum = emptyGZLayer then
      -- `append(diffs[:layerIndex], diffs[layerIndex+1:]...)`, in range once `d` is
      pure { w with diffs := w.diffs.eraseIdx w.layerIndex,
                    history := w.history ++ [{ h with emptyLayer := true }] }
    else pure { w with layerIndex := w.layerIndex + 1, history := w.history ++ [h] }

/-- `normalizeLayersAndHistory`, for the ref chain `ref` and the clock reading `now`. -/
def normalizeLayersAndHistory (now : Nat) (diffs : List DiffPair) (history : List History)
    (ref : List RefInfo) : Outcome (List DiffPair × List History) := do
  let refMeta := getRefMetadata now ref diffs.length
  let history ← fillHistory refMeta diffs.length history
  let w ← history.foldlM (alignStep refMeta) ⟨0, diffs, []⟩
  pure (w.diffs, w.history)

/-! ### Retouched entries -/

/-- `h'` is the entry `h` with at most its `EmptyLayer` flag changed and a missing `Created`
filled in. -/
def Retouched (h' h : History) : Prop :=
  h'.createdBy = h.createdBy ∧ h'.author = h.author ∧ h'.comment = h.comment ∧
    (h.created = none ∨ h'.created = h.created)

instance (h' h : History) : Decidable (Retouched h' h) := by
  unfold Retouched; infer_instance

namespace Retouched

theorem refl (h : History) : Retouched h h := ⟨rfl, rfl, rfl, .inr rfl⟩

theorem trans {h₁ h₂ h₃ : History} (h₁₂ : Retouched h₁ h₂) (h₂₃ : Retouched h₂ h₃) :
    Retouched h₁ h₃ := by
  obtain ⟨b₁, a₁, c₁, t₁⟩ := h₁₂
  obtain ⟨b₂, a₂, c₂, t₂⟩ := h₂₃
  refine ⟨b₁.trans b₂, a₁.trans a₂, c₁.trans c₂, ?_⟩
  rcases t₂ with t₂ | t₂
  · exact .inl t₂
  · rcases t₁ with t₁ | t₁
    · exact .inl (t₂ ▸ t₁)
    · exact .inr (t₁.trans t₂)

theorem emptyLayer (h : History) (b : Bool) : Retouched { h with emptyLayer := b } h :=
  ⟨rfl, rfl, rfl, .inr rfl⟩

theorem created_of_none {h : History} (hc : h.created = none) (t : Option Nat) :
    Retouched { h with created := t } h :=
  ⟨rfl, rfl, rfl, .inl hc⟩

theorem forall₂_trans {l₁ l₂ l₃ : List History} (h₁₂ : List.Forall₂ Retouched l₁ l₂)
    (h₂₃ : List.Forall₂ Retouched l₂ l₃) : List.Forall₂ Retouched l₁ l₃ := by
  induction h₁₂ generalizing l₃ with
  | nil => exact h₂₃
  | cons h _ ih =>
    cases h₂₃ with
    | cons h' h₂₃ => exact .cons (h.trans h') (ih h₂₃)

/-- What every entry of `l₀` has and retouching keeps, every entry of `l` has. -/
theorem forall_mem {P : History → Prop} (hP : ∀ {h' h}, Retouched h' h → P h → P h')
    {l l₀ : List History} (hl : List.Forall₂ Retouched l l₀) (h₀ : ∀ h ∈ l₀, P h) :
    ∀ h ∈ l, P h := by
  induction hl with
  | nil => simp
  | cons hr _ ih =>
    simp only [List.forall_mem_cons] at h₀ ⊢
    exact ⟨hP hr h₀.1, ih h₀.2⟩

end Retouched

/-! ### The metadata of the ref chain -/

@[simp] theorem length_getRefMetadata (now : Nat) (ref : List RefInfo) (limit : Nat) :
    (getRefMetadata now ref limit).length = limit := by
  fun_induction getRefMetadata <;> simp_all

/-! ### Forcing entries empty -/

/-- The loop from `l` non-empty entries copied: the entries it copies retouch those it reads,
and it copies non-empty entries up to `n` in all. -/
theorem foldl_forceEmptyStep (n : Nat) :
    ∀ (hs : List History) (l : Nat) (out : List History), l ≤ n →
      ∃ hs', (hs.foldl (forceEmptyStep n) (l, out)).2 = out ++ hs' ∧
        List.Forall₂ Retouched hs' hs ∧
        l + hs'.countP (!·.emptyLayer) = min n (l + hs.countP (!·.emptyLayer))
  | [], l, out, _ => ⟨[], by simp, .nil, by simp; omega⟩
  | h :: hs, l, out, hl => by
    by_cases hn : l ≥ n
    · -- every entry from here on is forced empty, and `l` stays at `n`
      obtain ⟨hs', hfold, hr, hc⟩ := foldl_forceEmptyStep n hs l (out ++ [{ h with emptyLayer := true }]) hl
      refine ⟨{ h with emptyLayer := true } :: hs', ?_, .cons (Retouched.emptyLayer h true) hr, ?_⟩
      · simpa [forceEmptyStep, hn] using hfold
      · simp only [List.countP_cons] at hc ⊢
        simp
        omega
    · cases he : h.emptyLayer with
      | true =>
        obtain ⟨hs', hfold, hr, hc⟩ := foldl_forceEmptyStep n hs l (out ++ [h]) hl
        refine ⟨h :: hs', ?_, .cons (Retouched.refl h) hr, ?_⟩
        · simpa [forceEmptyStep, hn, he] using hfold
        · simp only [List.countP_cons, he] at hc ⊢
          simpa using hc
      | false =>
        obtain ⟨hs', hfold, hr, hc⟩ := foldl_forceEmptyStep n hs (l + 1) (out ++ [h]) (by omega)
        refine ⟨h :: hs', ?_, .cons (Retouched.refl h) hr, ?_⟩
        · simpa [forceEmptyStep, hn, he] using hfold
        · simp only [List.countP_cons, he] at hc ⊢
          simp
          omega

theorem forceEmptyLayers_spec (n : Nat) (history : List History) :
    List.Forall₂ Retouched (forceEmptyLayers n history) history ∧
      (forceEmptyLayers n history).countP (!·.emptyLayer) =
        min n (history.countP (!·.emptyLayer)) := by
  obtain ⟨hs', hfold, hr, hc⟩ := foldl_forceEmptyStep n history 0 [] (Nat.zero_le n)
  rw [List.nil_append] at hfold
  rw [forceEmptyLayers, hfold]
  exact ⟨hr, by simpa using hc⟩

/-! ### The generated entries -/

@[simp] theorem missingHistory_nil : missingHistory [] = [] := rfl

@[simp] theorem length_missingHistory (mds : List RefMetadata) :
    (missingHistory mds).length = mds.length := by
  simp [missingHistory]

@[simp] theorem countP_missingHistory (mds : List RefMetadata) :
    (missingHistory mds).countP (!·.emptyLayer) = mds.length := by
  simp [missingHistory, List.countP_map]

theorem comment_of_mem_missingHistory {mds : List RefMetadata} {g : History}
    (hg : g ∈ missingHistory mds) : g.comment = "buildkit.exporter.image.v0" := by
  simp only [missingHistory, List.mem_map] at hg
  obtain ⟨_, _, rfl⟩ := hg
  rfl

/-- The first two phases leave the history retouched, followed by an entry for each layer of
`refMeta` past its non-empty entries, and exactly `n` non-empty entries. -/
theorem fillHistory_spec {refMeta : List RefMetadata} {n : Nat} (hlen : refMeta.length = n)
    (history : List History) :
    ∃ kept, fillHistory refMeta n history =
        .ok (kept ++ missingHistory (refMeta.drop (history.countP (!·.emptyLayer)))) ∧
      List.Forall₂ Retouched kept history ∧
      (kept ++ missingHistory (refMeta.drop (history.countP (!·.emptyLayer)))).countP
        (!·.emptyLayer) = n := by
  by_cases hlt : n > history.countP (!·.emptyLayer)
  · -- too few entries: none is forced empty, and the missing ones are added
    refine ⟨history, ?_, List.forall₂_same.mpr fun h _ => Retouched.refl h, ?_⟩
    · simp [fillHistory, hlt, Nat.lt_asymm hlt, Outcome.sliceFrom_of_le (hlen ▸ Nat.le_of_lt hlt)]
    · rw [List.countP_append, countP_missingHistory, List.length_drop]
      omega
  · -- enough entries: nothing is added, and the surplus is forced empty
    have hdrop : refMeta.drop (history.countP (!·.emptyLayer)) = [] :=
      List.drop_eq_nil_of_le (by omega)
    rw [hdrop]
    by_cases hgt : history.countP (!·.emptyLayer) > n
    · obtain ⟨hr, hc⟩ := forceEmptyLayers_spec n history
      refine ⟨forceEmptyLayers n history, by simp [fillHistory, hlt, hgt], hr, ?_⟩
      simp only [missingHistory_nil, List.append_nil, hc]
      omega
    · refine ⟨history, by simp [fillHistory, hlt, hgt],
        List.forall₂_same.mpr fun h _ => Retouched.refl h, ?_⟩
      simp only [missingHistory_nil, List.append_nil]
      omega

/-! ### The walk -/

/-- Taking out an element that `p` rejects keeps what `p` selects. -/
theorem filter_eraseIdx_of_not {α : Type} {p : α → Bool} {l : List α} {i : Nat} (hi : i < l.length)
    (hp : p l[i] = false) : (l.eraseIdx i).filter p = l.filter p := by
  conv_rhs => rw [← List.take_append_drop i l, List.drop_eq_getElem_cons hi]
  rw [List.eraseIdx_eq_take_drop_succ, List.filter_append, List.filter_append,
    List.filter_cons_of_neg (by simp [hp])]

/-- The invariant of the walk over `input`, with `rest` still to come: the index plus the
non-empty entries to come is the number of layers left, which never exceeds the metadata;
the layers below the index are kept ones, and the layers left keep exactly the kept layers of
`diffs₀`; the entries written retouch those read, and as many are non-empty as the index. -/
structure AlignInv (diffs₀ : List DiffPair) (refMeta : List RefMetadata) (input rest : List History)
    (w : Align) : Prop where
  count : w.layerIndex + rest.countP (!·.emptyLayer) = w.diffs.length
  le_refMeta : w.diffs.length ≤ refMeta.length
  kept : ∀ d ∈ w.diffs.take w.layerIndex, d.blobsum ≠ emptyGZLayer
  filter_eq : w.diffs.filter (·.blobsum ≠ emptyGZLayer) = diffs₀.filter (·.blobsum ≠ emptyGZLayer)
  written : w.history.countP (!·.emptyLayer) = w.layerIndex
  done : ∃ done, done ++ rest = input ∧ List.Forall₂ Retouched w.history done

/-- At a non-empty entry with a layer left, the walk fills in `Created` and then drops the
layer or moves past it. -/
theorem alignStep_of_lt {refMeta : List RefMetadata} {w : Align} {h : History}
    (he : h.emptyLayer = false) (hlt : w.layerIndex < w.diffs.length)
    (hle : w.diffs.length ≤ refMeta.length) :
    ∃ h', Retouched h' h ∧ h'.emptyLayer = false ∧
      alignStep refMeta w h = .ok (if w.diffs[w.layerIndex].blobsum = emptyGZLayer then
        { w with diffs := w.diffs.eraseIdx w.layerIndex,
                 history := w.history ++ [{ h' with emptyLayer := true }] }
      else { w with layerIndex := w.layerIndex + 1, history := w.history ++ [h'] }) := by
  have hmeta : w.layerIndex < refMeta.length := Nat.lt_of_lt_of_le hlt hle
  by_cases hc : h.created = none
  · refine ⟨{ h with created := some refMeta[w.layerIndex].createdAt },
      Retouched.created_of_none hc _, he, ?_⟩
    simp only [alignStep, he, hc, Bool.false_eq_true, ↓reduceIte, Outcome.index_of_lt hmeta,
      Outcome.index_of_lt hlt, Outcome.pure_eq, Outcome.ok_bind]
    split <;> rfl
  · refine ⟨h, Retouched.refl h, he, ?_⟩
    simp only [alignStep, he, hc, Bool.false_eq_true, ↓reduceIte, Outcome.index_of_lt hlt,
      Outcome.pure_eq, Outcome.ok_bind]
    split <;> rfl

/-- One iteration of the walk ends and keeps its invariant. -/
theorem alignStep_inv {diffs₀ : List DiffPair} {refMeta : List RefMetadata}
    {input : List History} (h : History) (hs : List History) (w : Align)
    (hw : AlignInv diffs₀ refMeta input (h :: hs) w) :
    ∃ w', alignStep refMeta w h = .ok w' ∧ AlignInv diffs₀ refMeta input hs w' := by
  obtain ⟨hcount, hle, hkept, hfilter, hwritten, done, hdone, hr⟩ := hw
  cases he : h.emptyLayer with
  | true =>
    -- an empty entry is copied and uses no layer
    refine ⟨{ w with history := w.history ++ [h] }, by simp [alignStep, he], ?_⟩
    simp only [List.countP_cons, he] at hcount
    refine ⟨by simpa using hcount, hle, hkept, hfilter, by simpa [he] using hwritten,
      done ++ [h], by simpa using hdone, List.rel_append hr (.cons (Retouched.refl h) .nil)⟩
  | false =>
    simp only [List.countP_cons, he, Bool.not_false, ↓reduceIte] at hcount
    have hlt : w.layerIndex < w.diffs.length := by omega
    obtain ⟨h', hr', he', hstep⟩ := alignStep_of_lt he hlt hle
    have hdone' : done ++ [h] ++ hs = input := by simpa using hdone
    by_cases hgz : w.diffs[w.layerIndex].blobsum = emptyGZLayer
    · -- the empty blob is dropped and its entry marked empty
      refine ⟨_, hstep.trans (by rw [if_pos hgz]), ?_⟩
      have hlen := List.length_eraseIdx_of_lt hlt
      refine ⟨?_, ?_, ?_, ?_, ?_, done ++ [h], hdone', ?_⟩
      · simp only at hcount ⊢; omega
      · simp only; omega
      · rwa [List.eraseIdx_eq_take_drop_succ,
          List.take_left' (List.length_take_of_le (Nat.le_of_lt hlt))]
      · refine (filter_eraseIdx_of_not hlt ?_).trans hfilter
        simp [hgz]
      · simpa using hwritten
      · exact List.rel_append hr (.cons ((Retouched.emptyLayer h' true).trans hr') .nil)
    · -- the layer is kept and the index moves past it
      refine ⟨_, hstep.trans (by rw [if_neg hgz]), ?_⟩
      refine ⟨?_, hle, ?_, hfilter, ?_, done ++ [h], hdone', List.rel_append hr (.cons hr' .nil)⟩
      · simp only at hcount ⊢; omega
      · intro d hd
        rw [List.take_add_one, List.getElem?_eq_getElem hlt] at hd
        rcases List.mem_append.mp hd with hd | hd
        · exact hkept d hd
        · simp only [Option.toList_some, List.mem_singleton] at hd
          exact hd ▸ hgz
      · simp [he', hwritten]

/-- The walk ends, from the start of an input with exactly as many non-empty entries as there
are layers, with the kept layers, as many as its non-empty entries, and entries that retouch
those of the input. -/
theorem foldlM_alignStep {diffs : List DiffPair} {refMeta : List RefMetadata}
    {input : List History} (hcount : input.countP (!·.emptyLayer) = diffs.length)
    (hle : diffs.length ≤ refMeta.length) :
    ∃ w, input.foldlM (alignStep refMeta) ⟨0, diffs, []⟩ = .ok w ∧
      w.history.countP (!·.emptyLayer) = w.diffs.length ∧
      w.diffs = diffs.filter (·.blobsum ≠ emptyGZLayer) ∧
      List.Forall₂ Retouched w.history input := by
  have h₀ : AlignInv diffs refMeta input input ⟨0, diffs, []⟩ :=
    ⟨by simpa using hcount, hle, by simp, rfl, rfl, [], by simp, .nil⟩
  obtain ⟨w, hw, hcount, -, hkept, hfilter, hwritten, done, hdone, hr⟩ :=
    Outcome.foldlM_inv (AlignInv diffs refMeta input) (fun h hs w hw => alignStep_inv h hs w hw)
      input _ h₀
  -- at the end the index has passed every layer left, and all of them are kept ones
  simp only [List.countP_nil, Nat.add_zero] at hcount
  rw [hcount, List.take_length] at hkept
  have hall : w.diffs.filter (·.blobsum ≠ emptyGZLayer) = w.diffs :=
    List.filter_eq_self.mpr fun d hd => by simpa using hkept d hd
  refine ⟨w, hw, hwritten.trans hcount, hall.symm.trans hfilter, ?_⟩
  rw [List.append_nil] at hdone
  exact hdone ▸ hr

/-! ### The whole function -/

/-- The call ends with the layers that are not the empty blob, and with the history it was
given, retouched, followed by the entries for the layers it lacked, retouched too. -/
theorem normalizeLayersAndHistory_spec (now : Nat) (diffs : List DiffPair)
    (history : List History) (ref : List RefInfo) :
    ∃ diffs' kept generated,
      normalizeLayersAndHistory now diffs history ref = .ok (diffs', kept ++ generated) ∧
      (kept ++ generated).countP (!·.emptyLayer) = diffs'.length ∧
      diffs' = diffs.filter (·.blobsum ≠ emptyGZLayer) ∧
      List.Forall₂ Retouched kept history ∧
      List.Forall₂ Retouched generated
        (missingHistory ((getRefMetadata now ref diffs.length).drop
          (history.countP (!·.emptyLayer)))) := by
  obtain ⟨kept₀, hfill, hkept₀, hcount₀⟩ :=
    fillHistory_spec (length_getRefMetadata now ref diffs.length) history
  obtain ⟨w, hw, hcount, hdiffs, hr⟩ :=
    @foldlM_alignStep _ (getRefMetadata now ref diffs.length) _ hcount₀ (by simp)
  -- the entries written split where the history given ends
  have hsplit := List.take_append_drop kept₀.length w.history
  refine ⟨w.diffs, w.history.take kept₀.length, w.history.drop kept₀.length, ?_, ?_, hdiffs,
    Retouched.forall₂_trans (List.forall₂_take_append _ _ _ hr) hkept₀,
    List.forall₂_drop_append _ _ _ hr⟩
  · simp only [normalizeLayersAndHistory, hfill, Outcome.ok_bind, hw, hsplit]
    rfl
  · rw [hsplit]; exact hcount

theorem normalizeLayersAndHistory_aligned (now : Nat) (diffs : List DiffPair)
    (history : List History) (ref : List RefInfo) :
    ∃ diffs' history', normalizeLayersAndHistory now diffs history ref = .ok (diffs', history') ∧
      history'.countP (!·.emptyLayer) = diffs'.length ∧
      diffs' = diffs.filter (·.blobsum ≠ emptyGZLayer) ∧
      ∃ kept generated, history' = kept ++ generated ∧ List.Forall₂ Retouched kept history ∧
        generated.length = diffs.length - history.countP (!·.emptyLayer) ∧
        ∀ g ∈ generated, g.comment = "buildkit.exporter.image.v0" := by
  obtain ⟨diffs', kept, generated, hnorm, hcount, hdiffs, hkept, hgen⟩ :=
    normalizeLayersAndHistory_spec now diffs history ref
  refine ⟨diffs', kept ++ generated, hnorm, hcount, hdiffs, kept, generated, rfl, hkept, ?_, ?_⟩
  · rw [hgen.length_eq, length_missingHistory, List.length_drop, length_getRefMetadata]
  · exact Retouched.forall_mem (fun hr hc => hr.2.2.1.trans hc) hgen
      fun _ hg => comment_of_mem_missingHistory hg

end Buildkit.Containerimage
