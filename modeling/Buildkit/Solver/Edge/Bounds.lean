import Buildkit.Solver.Edge.Request

/-!
# The bounds of `recalcCurrentState`

`bounds` reads of each dependency its state, whether its probes found keys, whether its slow
cache is complete and its index, and of the edge only its cache map (`bounds_congr`). Once every
dependency is complete with its slow cache, the bounds say so: all dependencies are completed,
and the upper bound is `cache-slow`, the most the bounds ever allow.

`recalcCurrentState` changes the keys, the records, the state and the four flags; with a cache
map it sets the flags from the bounds, and the state between them unless the edge goes back to
`initial`.
-/

namespace Buildkit

/-- Two folds agree when their steps agree on members that look the same through `v`, and the
lists look the same. -/
theorem foldl_congr_of_map_eq {α β γ : Type} {f f' : β → α → β} {v : α → γ}
    (hf : ∀ b a a', v a = v a' → f b a = f' b a') :
    ∀ {l l' : List α} (b : β), l.map v = l'.map v → l.foldl f b = l'.foldl f' b
  | [], [], _, _ => rfl
  | [], _ :: _, _, h => by simp at h
  | _ :: _, [], _, h => by simp at h
  | a :: l, a' :: l', b, h => by
    simp only [List.map_cons, List.cons.injEq] at h
    rw [List.foldl_cons, List.foldl_cons, hf b a a' h.1]
    exact foldl_congr_of_map_eq hf _ h.2

/-- What the bounds read of a dependency. -/
def Dep.boundsView (d : Dep) : EdgeStatus × Bool × Bool × Nat :=
  (d.state, d.keyMap.keys.isEmpty, d.slowCacheComplete, d.index)

@[simp] theorem Dep.boundsView_dropReqs (d : Dep) : d.dropReqs.boundsView = d.boundsView := rfl

namespace Edge

variable (cm : CacheManager) (ord : IterOrder String)

variable {e e' : Edge}

/-! ## Congruence -/

theorem isSlowIncomplete_congr (hm : e'.cacheMap = e.cacheMap) {d d' : Dep}
    (hv : d'.boundsView = d.boundsView) : e'.isSlowIncomplete d' = e.isSlowIncomplete d := by
  simp only [Dep.boundsView, Prod.mk.injEq] at hv
  simp only [isSlowIncomplete, slowCacheFunc, cacheMapDep, hm, hv.1, hv.2.2.1, hv.2.2.2]

theorem boundsStep_congr (hm : e'.cacheMap = e.cacheMap) (b : Bounds) {d d' : Dep}
    (hv : d'.boundsView = d.boundsView) : e'.boundsStep b d' = e.boundsStep b d := by
  have hs := isSlowIncomplete_congr hm hv
  simp only [Dep.boundsView, Prod.mk.injEq] at hv
  simp only [boundsStep, hs, hv.1, hv.2.1]

theorem bounds_congr (hm : e'.cacheMap = e.cacheMap)
    (hv : e'.depList.map Dep.boundsView = e.depList.map Dep.boundsView) : e'.bounds = e.bounds := by
  unfold bounds
  exact foldl_congr_of_map_eq (v := Dep.boundsView) (fun b _ _ h => boundsStep_congr hm b h) _ hv

/-- The requests change nothing the bounds read. -/
theorem ReqStep.bounds {p p' : Pipes} (h : ReqStep e p e' p') (hds : e.deps.isSome) :
    e'.bounds = e.bounds := by
  obtain ⟨ds, hds⟩ := Option.isSome_iff_exists.mp hds
  obtain ⟨ds', hds', hv⟩ := h.deps hds
  refine bounds_congr (h.eq_of_drop (·.cacheMap) fun _ => rfl) ?_
  have := congrArg (List.map Dep.boundsView) hv
  simpa [depList, hds, hds', Function.comp_def] using this

/-! ## Complete dependencies -/

/-- With every dependency complete and its slow cache, if any, complete too, the bounds have
all dependencies completed and the upper bound at `cache-slow`. -/
theorem bounds_of_complete
    (h : ∀ d ∈ e.depList, d.state = .complete ∧ e.isSlowIncomplete d = false) :
    e.bounds.allDepsCompleted = true ∧ e.bounds.stHigh = .cacheSlow := by
  unfold bounds
  -- the fold keeps both from the initial bounds
  suffices ∀ (l : List Dep) (b : Bounds), (∀ d ∈ l, d.state = .complete ∧
      e.isSlowIncomplete d = false) → b.allDepsCompleted = true → b.stHigh = .cacheSlow →
      (l.foldl e.boundsStep b).allDepsCompleted = true ∧
        (l.foldl e.boundsStep b).stHigh = .cacheSlow from this _ _ h rfl rfl
  intro l
  induction l with
  | nil => exact fun _ _ ha hs => ⟨ha, hs⟩
  | cons d l ih =>
    intro b hl ha hs
    obtain ⟨hst, hslow⟩ := hl d (List.mem_cons_self ..)
    refine ih _ (fun d' hd' => hl d' (List.mem_cons_of_mem _ hd')) ?_ ?_
    · simp [boundsStep, hst, hslow, ha]
    · simp only [boundsStep, hst, hslow, hs, Bool.and_false, Bool.false_eq_true, if_false]
      decide

theorem isSlowIncomplete_of_complete {d : Dep} (hst : d.state = .complete)
    (hslow : e.slowCacheFunc d = true → d.slowCacheComplete = true) :
    e.isSlowIncomplete d = false := by
  unfold isSlowIncomplete
  cases hf : e.slowCacheFunc d
  · rfl
  · simp [hst, hslow hf]

/-! ## `recalcCurrentState` -/

@[simp] theorem bounds_addKeysWithRecords (e : Edge) (ks : List CacheKey) :
    (addKeysWithRecords cm e ks).bounds = e.bounds :=
  bounds_congr rfl rfl

theorem stateFromBounds_eq (e : Edge) : e.stateFromBounds = { e with
    state := e.stateFromBounds.state
    allDepsCompletedCacheFast := e.stateFromBounds.allDepsCompletedCacheFast
    allDepsCompletedCacheSlow := e.stateFromBounds.allDepsCompletedCacheSlow
    allDepsStateCacheSlow := e.stateFromBounds.allDepsStateCacheSlow
    allDepsCompleted := e.stateFromBounds.allDepsCompleted } := by
  unfold stateFromBounds
  split <;> rfl

theorem stateFromBounds_of_none (hm : e.cacheMap = none) : e.stateFromBounds = e := by
  simp [stateFromBounds, hm]

/-- With a cache map, the flags come from the bounds and the state lies between them, unless
the cache map is not done and there is no key. -/
theorem stateFromBounds_of_cacheMap (hm : e.cacheMap.isSome) :
    e.stateFromBounds.allDepsCompleted = (e.cacheMapDone && e.bounds.allDepsCompleted) ∧
    e.stateFromBounds.state =
      if !e.cacheMapDone && e.keys.isEmpty then .initial
      else max (max e.state e.bounds.stLow) e.bounds.stHigh := by
  obtain ⟨m, hm⟩ := Option.isSome_iff_exists.mp hm
  simp [stateFromBounds, hm]

theorem recalcCurrentState_eq (e : Edge) : recalcCurrentState cm ord e =
    (addKeysWithRecords cm e ((ord.order e.newKeys.keys).filterMap fun id =>
      (e.newKeys.lookup id).map e.mergedKey)).stateFromBounds := rfl

theorem keysGrow_recalcCurrentState (e : Edge) :
    KeysGrow e.keysRecords (recalcCurrentState cm ord e).keysRecords := by
  rw [recalcCurrentState_eq, stateFromBounds_eq]
  exact keysGrow_addKeysWithRecords cm _ _

/-- An edge without dependencies has no keys in common to add. -/
theorem keysRecords_recalcCurrentState_of_nil (h : e.depList = []) :
    (recalcCurrentState cm ord e).keysRecords = e.keysRecords := by
  have hk : e.newKeys = ∅ := by simp [newKeys, h]
  rw [recalcCurrentState_eq, stateFromBounds_eq]
  simp [hk, addKeysWithRecords, keysRecords]

end Edge

end Buildkit
