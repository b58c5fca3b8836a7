import Buildkit.Solver.Edge.Liveness

/-!
# What an edge keeps true over its updates

`DataInv` is what the data of an edge keeps true at every point of `unpark`: before the first
cache map nothing came from the cache (`PreCache`); records come with keys; a done cache map
keeps its request; an execution request was made only with records or a done cache map, and a
result only comes from one; an edge without dependencies that waits for a cache map that is not
done has no records.

`BoundsInv` is what `recalcCurrentState` leaves: the flags and the state agree with the bounds.
An update may break it for a while; one that reports no change leaves all it reads (`Quiet`),
and one that reports a change is followed by `recalcCurrentState`.

`Progress` is how an edge may change over a run: its state rises, its keys only get more at
the end, its records only more, and once complete it stays so, with its result.
-/

namespace Buildkit

namespace Edge

variable (fromBytes : String → Digest) (cm : CacheManager) (ord : IterOrder String)

/-- Nothing of the edge came from the cache yet: what holds before the first cache map. -/
structure PreCache (e : Edge) : Prop where
  state : e.state = .initial
  done : e.cacheMapDone = false
  allDepsCompleted : e.allDepsCompleted = false
  keys : e.keys = []
  records : e.cacheRecords.keys = []
  execReq : e.execReq = none
  result : e.result = none
  deps : ∀ d ∈ e.depList, d.keyMap.keys = [] ∧ d.slowCacheReq = none

/-- The invariant of the data of an edge. -/
structure DataInv (e : Edge) : Prop where
  preCache : e.cacheMap = none → e.PreCache
  keys : e.cacheRecords.keys ≠ [] → e.keys ≠ []
  cacheMapReq : e.cacheMapDone = true → e.cacheMapReq.isSome
  deps : e.cacheMapReq.isSome ∨ e.cacheMap.isSome → e.deps.isSome
  execReq : e.result.isSome → e.execReq.isSome
  result : e.state = .complete → e.result.isSome
  exec : e.execReq.isSome → e.cacheMapDone = true ∨ e.cacheRecords.keys ≠ []
  noDeps : e.depList = [] → e.cacheMapReq.isSome → e.cacheMapDone = false →
    e.cacheRecords.keys = []

/-- The flags and the state agree with the bounds. -/
structure BoundsInv (e : Edge) : Prop where
  allDepsCompleted : e.allDepsCompleted = (e.cacheMapDone && e.bounds.allDepsCompleted)
  stHigh : e.cacheMap.isSome → (e.cacheMapDone = true ∨ e.keys ≠ []) → e.bounds.stHigh ≤ e.state
  initial : e.cacheMap.isSome → e.cacheMapDone = false → e.keys = [] → e.state = .initial

/-- How an edge may change: its state rises, its keys only get more at the end, its records
only more, and once complete it stays so, with its result. -/
structure Progress (e e' : Edge) : Prop where
  state : e.state ≤ e'.state
  keys : e.keys <+: e'.keys
  records : ∀ id ∈ e.cacheRecords, id ∈ e'.cacheRecords
  complete : e.isComplete = true → e'.isComplete = true
  result : ∀ {r}, e.result = some r → e'.result = some r

theorem Progress.refl (e : Edge) : Progress e e :=
  ⟨le_rfl, List.prefix_refl _, fun _ h => h, id, id⟩

theorem Progress.trans {e e' e'' : Edge} (h₁ : Progress e e') (h₂ : Progress e' e'') :
    Progress e e'' :=
  ⟨h₁.state.trans h₂.state, h₁.keys.trans h₂.keys, fun id h => h₂.records id (h₁.records id h),
    h₂.complete ∘ h₁.complete, h₂.result ∘ h₁.result⟩

/-- What the updates keep beyond `Progress`: the cache map once there, and its being done. -/
structure Advance (e e' : Edge) : Prop where
  progress : Progress e e'
  cacheMap : e.cacheMap.isSome → e'.cacheMap.isSome
  done : e.cacheMapDone = true → e'.cacheMapDone = true

theorem Advance.refl (e : Edge) : Advance e e := ⟨.refl e, id, id⟩

theorem Advance.trans {e e' e'' : Edge} (h₁ : Advance e e') (h₂ : Advance e' e'') :
    Advance e e'' :=
  ⟨h₁.progress.trans h₂.progress, h₂.cacheMap ∘ h₁.cacheMap, h₂.done ∘ h₁.done⟩

/-- What an update that reports no change keeps: all that `BoundsInv` reads. -/
structure Quiet (e e' : Edge) : Prop where
  state : e'.state = e.state
  cacheMap : e'.cacheMap = e.cacheMap
  done : e'.cacheMapDone = e.cacheMapDone
  keys : e'.keys = e.keys
  allDepsCompleted : e'.allDepsCompleted = e.allDepsCompleted
  bounds : e.cacheMap.isSome → e'.bounds = e.bounds

theorem Quiet.refl (e : Edge) : Quiet e e := ⟨rfl, rfl, rfl, rfl, rfl, fun _ => rfl⟩

theorem Quiet.trans {e e' e'' : Edge} (h₁ : Quiet e e') (h₂ : Quiet e' e'') : Quiet e e'' :=
  ⟨h₂.state.trans h₁.state, h₂.cacheMap.trans h₁.cacheMap, h₂.done.trans h₁.done,
    h₂.keys.trans h₁.keys, h₂.allDepsCompleted.trans h₁.allDepsCompleted,
    fun hm => (h₂.bounds (h₁.cacheMap ▸ hm)).trans (h₁.bounds hm)⟩

/-- With the same bounds, or before the cache map, a quiet update keeps the bounds invariant. -/
theorem BoundsInv.quiet {e e' : Edge} (h : e.BoundsInv) (hq : Quiet e e')
    (hpre : e.cacheMap = none → e.PreCache) : e'.BoundsInv := by
  refine ⟨?_, fun hm hk => ?_, fun hm hd hk => ?_⟩
  · cases hm : e.cacheMap with
    | none => simp [hq.allDepsCompleted, hq.done, (hpre hm).allDepsCompleted, (hpre hm).done]
    | some _ =>
      rw [hq.allDepsCompleted, hq.done, hq.bounds (by simp [hm])]
      exact h.allDepsCompleted
  · rw [hq.cacheMap] at hm
    rw [hq.done, hq.keys] at hk
    rw [hq.state, hq.bounds hm]
    exact h.stHigh hm hk
  · rw [hq.cacheMap] at hm
    rw [hq.state]
    exact h.initial hm (hq.done ▸ hd) (hq.keys ▸ hk)

/-! ## Updates that leave the edge outside its dependencies -/

/-- What an update keeps of an edge whose data keep their invariant: the invariant, the kept
identities below any bound, and how the edge advances. -/
structure UpdateStep (e e' : Edge) : Prop where
  data : e'.DataInv
  kept : ∀ {n}, e.KeptBelow n → e'.KeptBelow n
  advance : Advance e e'

theorem UpdateStep.refl {e : Edge} (h : e.DataInv) : UpdateStep e e := ⟨h, id, .refl e⟩

theorem UpdateStep.trans {e e' e'' : Edge} (h₁ : UpdateStep e e') (h₂ : UpdateStep e' e'') :
    UpdateStep e e'' :=
  ⟨h₂.data, h₂.kept ∘ h₁.kept, h₁.advance.trans h₂.advance⟩

variable {e e' : Edge}

theorem isComplete_mono (herr : e.err.isSome → e'.err.isSome)
    (hres : e.result.isSome → e'.result.isSome) : e.isComplete = true → e'.isComplete = true := by
  simp only [isComplete, Bool.or_eq_true]
  exact Or.imp herr hres

/-- Records come with keys, and keys only grow: records keep coming with keys. -/
theorem keys_of_keysGrow (hk : KeysGrow e.keysRecords e'.keysRecords)
    (h : e.cacheRecords.keys ≠ [] → e.keys ≠ []) : e'.cacheRecords.keys ≠ [] → e'.keys ≠ [] := by
  intro hr
  rcases hk.2.2 hr with hr | hk'
  · intro hnil
    exact h hr (List.eq_nil_of_prefix_nil (hnil ▸ hk.1))
  · exact hk'

theorem records_ne_nil_of_keysGrow (hk : KeysGrow e.keysRecords e'.keysRecords)
    (h : e.cacheRecords.keys ≠ []) : e'.cacheRecords.keys ≠ [] := by
  obtain ⟨id, hid⟩ := List.exists_mem_of_ne_nil _ h
  exact List.ne_nil_of_mem (hk.2.1 id hid)

theorem exists_slowCacheReq_of_map_slowView {l l' : List Dep}
    (h : l'.map Dep.slowView = l.map Dep.slowView) :
    ∀ d' ∈ l', ∃ d ∈ l, d.slowCacheReq = d'.slowCacheReq := by
  intro d' hd'
  have : d'.slowView ∈ l.map Dep.slowView := h ▸ List.mem_map_of_mem hd'
  obtain ⟨d, hd, hv⟩ := List.mem_map.mp this
  exact ⟨d, hd, congrArg (·.2.2.1) hv⟩

section dropDeps

variable (hd : e'.dropDeps = e.dropDeps)

include hd

theorem Progress.of_dropDeps (herr : e.err.isSome → e'.err.isSome) : Progress e e' := by
  rw [eq_of_dropDeps hd]
  exact ⟨le_rfl, List.prefix_refl _, fun _ h => h, isComplete_mono herr id, id⟩

theorem Advance.of_dropDeps (herr : e.err.isSome → e'.err.isSome) : Advance e e' := by
  have hm : e'.cacheMap = e.cacheMap := (congrArg (·.cacheMap) hd :)
  have hdn : e'.cacheMapDone = e.cacheMapDone := (congrArg Edge.cacheMapDone hd :)
  exact ⟨.of_dropDeps hd herr, fun h => hm ▸ h, fun h => hdn ▸ h⟩

/-- An update of the dependencies keeps the invariant when it keeps their number and, before
the cache map, gives none of them keys found or a slow-cache request. -/
theorem DataInv.of_dropDeps (h : e.DataInv) (hnil : e'.depList = [] → e.depList = [])
    (hsome : e'.deps.isSome = e.deps.isSome)
    (hpre : e.cacheMap = none → ∀ d ∈ e'.depList, d.keyMap.keys = [] ∧ d.slowCacheReq = none) :
    e'.DataInv := by
  have heq := eq_of_dropDeps hd
  have hpre' : ∀ d ∈ e'.depList, d ∈ e'.depList := fun _ h => h
  rw [heq] at hpre' ⊢
  refine ⟨fun hm => ?_, h.keys, h.cacheMapReq, fun hr => hsome ▸ h.deps hr, h.execReq, h.result,
    h.exec, fun hn => h.noDeps (hnil hn)⟩
  obtain ⟨h₁, h₂, h₃, h₄, h₅, h₆, h₇, -⟩ := h.preCache hm
  exact ⟨h₁, h₂, h₃, h₄, h₅, h₆, h₇, fun d hd => hpre hm d (hpre' d hd)⟩

theorem KeptBelow.of_dropDeps {n : Nat} (h : e.KeptBelow n)
    (hslow : ∀ d' ∈ e'.depList, ∀ {id}, d'.slowCacheReq = some id →
      ∃ d ∈ e.depList, d.slowCacheReq = some id) : e'.KeptBelow n := by
  have hcm : e'.cacheMapReq = e.cacheMapReq := (congrArg Edge.cacheMapReq hd :)
  have hex : e'.execReq = e.execReq := (congrArg Edge.execReq hd :)
  have hdr : e'.depRequests = e.depRequests := (congrArg Edge.depRequests hd :)
  refine ⟨fun hid => h.cacheMap (hcm ▸ hid), fun hid => h.exec (hex ▸ hid), fun hd' hid => ?_,
    fun hid => h.input (hdr ▸ hid)⟩
  obtain ⟨d, hd, hid'⟩ := hslow _ hd' hid
  exact h.slow hd hid'

end dropDeps

/-! ## The handlers of `processUpdate` -/

variable {u i : Nat} {d : Dep} {st : Status}

theorem mem_set_cases {l : List Dep} {x d' : Dep} (hx : x ∈ l.set i d') : x ∈ l ∨ x = d' :=
  List.mem_or_eq_of_mem_set hx

theorem updateStep_processDepUpdate (h : e.DataInv) (hd : e.depList[i]? = some d) :
    UpdateStep e (processDepUpdate cm e i d st).1 := by
  obtain ⟨d', hdeps, hview, -, hnone⟩ := processDepUpdate_deps cm e i d st
  simp only [Dep.slowView, Prod.mk.injEq] at hview
  have hdrop := processDepUpdate_dropDeps cm e i d st
  have herr := processDepUpdate_err cm e i d st
  have hl := depList_of_deps hdeps
  have hmem : d ∈ e.depList := List.mem_of_getElem? hd
  refine ⟨h.of_dropDeps hdrop (fun hn => ?_) (by simp [hdeps]) fun hm x hx => ?_,
    fun hk => hk.of_dropDeps hdrop fun x hx id hid => ?_, .of_dropDeps hdrop herr⟩
  · rw [hl] at hn
    simpa using hn
  · -- before the cache map the dependency keeps its keys found and has no slow-cache request
    rw [hl] at hx
    rcases mem_set_cases hx with hx | rfl
    · exact (h.preCache hm).deps x hx
    · rw [hnone hm, hview.2.2.1]
      exact (h.preCache hm).deps d hmem
  · rw [hl] at hx
    rcases mem_set_cases hx with hx | rfl
    · exact ⟨x, hx, hid⟩
    · exact ⟨d, hmem, hview.2.2.1 ▸ hid⟩

/-- A dependency update that reports no change keeps the state of the dependency and its keys
found, once the cache map is there, and so the bounds. -/
theorem quiet_processDepUpdate (hd : e.depList[i]? = some d)
    (hc : (processDepUpdate cm e i d st).2 = false) : Quiet e (processDepUpdate cm e i d st).1 := by
  obtain ⟨d', hdeps, hview, hsame, -⟩ := processDepUpdate_deps cm e i d st
  have heq := eq_of_dropDeps (processDepUpdate_dropDeps cm e i d st)
  refine ⟨by rw [heq], by rw [heq], by rw [heq], by rw [heq], by rw [heq], fun hm => ?_⟩
  obtain ⟨hs, hkm⟩ := hsame hc hm
  simp only [Dep.slowView, Prod.mk.injEq] at hview
  refine bounds_congr (by rw [heq]) ?_
  rw [depList_of_deps hdeps]
  exact List.map_set_of_getElem? hd (by simp [Dep.boundsView, hs, hkm, hview.2.2.2, hview.2.1])

theorem updateStep_processSlowCache (h : e.DataInv) (hd : e.depList[i]? = some d)
    (hreq : d.slowCacheReq = some u) : UpdateStep e (processSlowCache fromBytes cm e i d st) := by
  obtain ⟨d', hdeps, -, -, -, herr, hok⟩ := processSlowCache_deps fromBytes cm e i d st hd
  have hdrop := processSlowCache_dropDeps fromBytes cm e i d st
  have hl := depList_of_deps hdeps
  have hmem : d ∈ e.depList := List.mem_of_getElem? hd
  refine ⟨h.of_dropDeps hdrop (fun hn => ?_) (by simp [hdeps]) fun hm => ?_,
    fun hk => hk.of_dropDeps hdrop fun x hx id hid => ?_,
    .of_dropDeps hdrop (processSlowCache_err fromBytes cm e i d st)⟩
  · rw [hl] at hn
    simpa using hn
  · -- a slow-cache request is only made once the cache map is there
    have := ((h.preCache hm).deps d hmem).2
    simp [hreq] at this
  · rw [hl] at hx
    rcases mem_set_cases hx with hx | rfl
    · exact ⟨x, hx, hid⟩
    · cases herr' : st.err with
      | some _ => simp [herr (by simp [herr'])] at hid
      | none => exact ⟨d, hmem, (hok herr').1 ▸ hid⟩

/-- An error keeps an error. -/
theorem isSome_ite_err {c : Bool} {x : String} {o : Option String} (h : o.isSome) :
    (if c then some x else o).isSome := by
  split <;> simp_all

theorem processExecUpdate_cases (e : Edge) (st : Status) :
    (∃ err, processExecUpdate e st = { e with
      execReq := none
      err := if !st.canceled && e.err.isNone then some err else e.err }) ∨
    (∃ res, processExecUpdate e st = { e with result := some res, state := .complete }) ∨
    processExecUpdate e st = e := by
  unfold processExecUpdate
  split
  · exact .inl ⟨_, rfl⟩
  · split
    · exact .inr (.inl ⟨_, rfl⟩)
    · exact .inr (.inr rfl)

theorem updateStep_processExecUpdate (h : e.DataInv) (hreq : e.execReq = some u)
    (hres : e.result = none) : UpdateStep e (processExecUpdate e st) := by
  rcases processExecUpdate_cases e st with ⟨err, he⟩ | ⟨res, he⟩ | he <;> rw [he]
  · -- a failed execution drops its request, and there was no result
    refine ⟨⟨fun hm => ?_, h.keys, h.cacheMapReq, h.deps, by simp [hres], h.result,
      by simp, h.noDeps⟩, fun hk => ⟨hk.cacheMap, by simp, hk.slow, hk.input⟩,
      ⟨⟨le_rfl, List.prefix_refl _, fun _ h => h, isComplete_mono isSome_ite_err (by simp [hres]),
        by simp [hres]⟩, id, id⟩⟩
    obtain ⟨h₁, h₂, h₃, h₄, h₅, -, h₇, h₈⟩ := h.preCache hm
    exact ⟨h₁, h₂, h₃, h₄, h₅, rfl, h₇, h₈⟩
  · -- the result makes the edge complete; an execution is only requested after the cache map
    refine ⟨⟨fun hm => ?_, h.keys, h.cacheMapReq, h.deps, by simp [hreq], by simp,
      h.exec, h.noDeps⟩, fun hk => ⟨hk.cacheMap, hk.exec, hk.slow, hk.input⟩,
      ⟨⟨EdgeStatus.le_complete _, List.prefix_refl _, fun _ h => h, isComplete_mono id (by simp),
        by simp [hres]⟩, id, id⟩⟩
    have := (h.preCache hm).execReq
    simp [hreq] at this
  · exact .refl h

/-! ## The cache map -/

theorem EdgeStatus.le_cacheSlow_of_ne {s : EdgeStatus} (h : s ≠ .complete) : s ≤ .cacheSlow := by
  revert h
  cases s <;> decide

section processCacheMap

variable (resp : CacheMapResp)

@[simp] theorem processCacheMap_cacheMap :
    (processCacheMap cm e resp).cacheMap = some resp.cacheMap := by
  rw [processCacheMap_eq]

@[simp] theorem processCacheMap_cacheMapDone :
    (processCacheMap cm e resp).cacheMapDone = resp.complete := by
  rw [processCacheMap_eq]

@[simp] theorem processCacheMap_cacheMapReq :
    (processCacheMap cm e resp).cacheMapReq = if resp.complete then e.cacheMapReq else none := by
  rw [processCacheMap_eq]

@[simp] theorem processCacheMap_execReq : (processCacheMap cm e resp).execReq = e.execReq := by
  rw [processCacheMap_eq]

@[simp] theorem processCacheMap_result : (processCacheMap cm e resp).result = e.result := by
  rw [processCacheMap_eq]

@[simp] theorem processCacheMap_depRequests :
    (processCacheMap cm e resp).depRequests = e.depRequests := by
  rw [processCacheMap_eq]

/-- An edge without dependencies that waits for its cache map is not complete: it has no
records and its cache map is not done, so it made no execution request. -/
theorem state_le_of_noDeps (h : e.DataInv) (hn : e.depList = []) (hreq : e.cacheMapReq.isSome)
    (hdone : e.cacheMapDone = false) : e.state ≤ .cacheSlow := by
  have hrec := h.noDeps hn hreq hdone
  have hex : e.execReq = none := by
    cases hx : e.execReq with
    | none => rfl
    | some _ =>
      rcases h.exec (by simp [hx]) with hd | hr
      · simp [hd] at hdone
      · exact absurd hrec hr
  have hres : e.result = none := by simpa [hex] using mt h.execReq
  have hst : e.state ≠ .complete := fun hc => by simpa [hres] using h.result hc
  exact EdgeStatus.le_cacheSlow_of_ne hst

theorem updateStep_processCacheMap (h : e.DataInv) (hreq : e.cacheMapReq.isSome)
    (hdone : e.cacheMapDone = false) : UpdateStep e (processCacheMap cm e resp) := by
  have hk := keysGrow_processCacheMap cm e resp
  have hs := processCacheMap_state cm e resp
  have hdeps := processCacheMap_deps cm e resp
  have hsome : (processCacheMap cm e resp).deps.isSome = e.deps.isSome := by
    simpa using congrArg Option.isSome hdeps
  refine ⟨⟨fun hm => by simp at hm, keys_of_keysGrow hk h.keys, fun hd => ?_,
    fun _ => hsome ▸ h.deps (.inl hreq), by simpa using h.execReq, fun hc => ?_, fun hx => ?_,
    fun _ hr hd => ?_⟩, fun hkb => ⟨fun hid => ?_, fun hid => hkb.exec (by simpa using hid),
    fun hd' hid => ?_, fun hid => hkb.input (by simpa using hid)⟩,
    ⟨⟨?_, hk.1, hk.2.1, isComplete_mono (processCacheMap_err cm e resp) (by simp), by simp⟩,
    fun _ => by simp, fun hd => by simp [hd] at hdone⟩⟩
  · simp only [processCacheMap_cacheMapDone] at hd
    simpa [hd] using hreq
  · -- only an edge without dependencies changes its state, to `cache-slow`
    rw [hs] at hc
    by_cases hn : e.depList = []
    · rw [if_pos hn] at hc
      cases hc
    · rw [if_neg hn] at hc
      simpa using h.result hc
  · rcases h.exec (by simpa using hx) with hd | hr
    · simp [hd] at hdone
    · exact .inr (records_ne_nil_of_keysGrow hk hr)
  · simp only [processCacheMap_cacheMapDone] at hd
    simp [hd] at hr
  · simp only [processCacheMap_cacheMapReq] at hid
    split_ifs at hid
    exact hkb.cacheMap hid
  · obtain ⟨d, hd, hid'⟩ := exists_slowCacheReq_of_map_slowView (depList_map_slowView hdeps) _ hd'
    exact hkb.slow hd (hid'.trans hid)
  · rw [hs]
    split_ifs with hn
    · exact state_le_of_noDeps h hn hreq hdone
    · exact le_rfl

end processCacheMap

theorem processCacheMapUpdate_cases (e : Edge) (st : Status) :
    (∃ err, processCacheMapUpdate cm e st = { e with
      cacheMapReq := none
      err := if !st.canceled && e.err.isNone then some err else e.err }) ∨
    (∃ resp, processCacheMapUpdate cm e st = processCacheMap cm e resp) ∨
    processCacheMapUpdate cm e st = e := by
  unfold processCacheMapUpdate
  split
  · exact .inl ⟨_, rfl⟩
  · split
    · exact .inr (.inl ⟨_, rfl⟩)
    · exact .inr (.inr rfl)

theorem updateStep_processCacheMapUpdate (h : e.DataInv) (hreq : e.cacheMapReq = some u)
    (hdone : e.cacheMapDone = false) : UpdateStep e (processCacheMapUpdate cm e st) := by
  rcases processCacheMapUpdate_cases cm e st with ⟨err, he⟩ | ⟨resp, he⟩ | he <;> rw [he]
  · -- a failed cache-map request is dropped; the cache map was not done
    refine ⟨⟨fun hm => ?_, h.keys, fun hd => by simp [hdone] at hd, fun hr => ?_, h.execReq,
      h.result, h.exec, fun _ hr => by simp at hr⟩,
      fun hk => ⟨by simp, hk.exec, hk.slow, hk.input⟩,
      ⟨⟨le_rfl, List.prefix_refl _, fun _ h => h, isComplete_mono isSome_ite_err id, id⟩, id, id⟩⟩
    · obtain ⟨h₁, h₂, h₃, h₄, h₅, h₆, h₇, h₈⟩ := h.preCache hm
      exact ⟨h₁, h₂, h₃, h₄, h₅, h₆, h₇, h₈⟩
    · exact h.deps (hr.imp_left fun h => by simp at h)
  · exact updateStep_processCacheMap cm _ h (by simp [hreq]) hdone
  · exact .refl h

/-! ## One update, and the loop over them -/

/-- What `processUpdate` does with an update: the response of the cache-map request or of the
execution request, an update of a dependency, the response of a slow-cache request, or
nothing. -/
theorem processUpdate_cases (e : Edge) (u : Nat) (st : Status) :
    (e.cacheMapReq = some u ∧
      processUpdate fromBytes cm e u st = (processCacheMapUpdate cm e st, true)) ∨
    (e.execReq = some u ∧ processUpdate fromBytes cm e u st = (processExecUpdate e st, true)) ∨
    (∃ i d, e.depList[i]? = some d ∧
      processUpdate fromBytes cm e u st = processDepUpdate cm e i d st) ∨
    (∃ i d, e.depList[i]? = some d ∧ d.slowCacheReq = some u ∧
      processUpdate fromBytes cm e u st = (processSlowCache fromBytes cm e i d st, true)) ∨
    processUpdate fromBytes cm e u st = (e, false) := by
  unfold processUpdate
  by_cases h₁ : e.cacheMapReq = some u ∧ st.completed = true
  · exact .inl ⟨h₁.1, by rw [if_pos h₁]⟩
  rw [if_neg h₁]
  by_cases h₂ : e.execReq = some u ∧ st.completed = true
  · exact .inr (.inl ⟨h₂.1, by rw [if_pos h₂]⟩)
  rw [if_neg h₂]
  -- the input requests come first, then the slow-cache requests
  cases hl : e.depRequests.lookup u with
  | some i =>
    cases hd : e.depList[i]? with
    | some d => exact .inr (.inr (.inl ⟨i, d, hd, by simp only [hd]⟩))
    | none => exact .inr (.inr (.inr (.inr (by simp only [hd]))))
  | none =>
    cases hf : e.depList.findIdx? (·.slowCacheReq = some u) with
    | some i =>
      obtain ⟨hlt, hreq, -⟩ := List.findIdx?_eq_some_iff_getElem.mp hf
      have hd : e.depList[i]? = some e.depList[i] := List.getElem?_eq_getElem hlt
      simp only [hd]
      by_cases hc : st.completed = true
      · rw [if_pos hc]
        exact .inr (.inr (.inr (.inl ⟨i, _, hd, by simpa using hreq, rfl⟩)))
      · rw [if_neg hc]
        exact .inr (.inr (.inr (.inr rfl)))
    | none => exact .inr (.inr (.inr (.inr rfl)))

/-- A pending cache-map response comes while the cache map is not done. -/
theorem Roles.done_of_pending {p : Pipes} {L : List Nat} (hr : e.Roles p (u :: L))
    (h : e.cacheMapReq = some u) : e.cacheMapDone = false := by
  rcases (hr.cacheMap h).2 with ⟨-, hd⟩ | ⟨-, ⟨-, -, hu⟩ | ⟨hd, -⟩⟩
  · exact hd
  · exact absurd (List.mem_cons_self ..) hu
  · exact hd

/-- A pending execution response comes while there is no result. -/
theorem Roles.result_of_pending {p : Pipes} {L : List Nat} (hr : e.Roles p (u :: L))
    (h : e.execReq = some u) : e.result = none := by
  rcases (hr.exec h).2 with ⟨-, hd⟩ | ⟨-, ⟨-, hu⟩ | ⟨hd, -⟩⟩
  · exact hd
  · exact absurd (List.mem_cons_self ..) hu
  · exact hd

/-- One pending update keeps the invariant of the data, and is quiet when it reports no
change. -/
theorem update_step {p : Pipes} {L : List Nat} (hr : e.Roles p (u :: L)) (h : e.DataInv) :
    UpdateStep e (processUpdate fromBytes cm e u st).1 ∧
      ((processUpdate fromBytes cm e u st).2 = false →
        Quiet e (processUpdate fromBytes cm e u st).1) := by
  rcases processUpdate_cases fromBytes cm e u st with ⟨hreq, he⟩ | ⟨hreq, he⟩ |
    ⟨i, d, hd, he⟩ | ⟨i, d, hd, hreq, he⟩ | he <;> rw [he]
  · exact ⟨updateStep_processCacheMapUpdate cm h hreq (hr.done_of_pending hreq), nofun⟩
  · exact ⟨updateStep_processExecUpdate h hreq (hr.result_of_pending hreq), nofun⟩
  · exact ⟨updateStep_processDepUpdate cm h hd, quiet_processDepUpdate cm hd⟩
  · exact ⟨updateStep_processSlowCache fromBytes cm h hd hreq, nofun⟩
  · exact ⟨.refl h, fun _ => .refl e⟩

/-- The loop of `processUpdates` from any change flag. -/
theorem foldl_processUpdate (p : Pipes) : ∀ (U : List Nat) (e : Edge) (c : Bool),
    U.foldl (fun (acc : Edge × Bool) upt =>
      let (e, changed) := processUpdate fromBytes cm acc.1 upt (p.statusOf upt)
      (e, acc.2 || changed)) (e, c) =
    ((processUpdates fromBytes cm e p U).1, c || (processUpdates fromBytes cm e p U).2)
  | [], e, c => by simp [processUpdates]
  | u :: U, e, c => by
    unfold processUpdates
    simp only [List.foldl_cons]
    rcases processUpdate fromBytes cm e u (p.statusOf u) with ⟨e₁, c₁⟩
    dsimp only
    rw [foldl_processUpdate p U e₁ (c || c₁), foldl_processUpdate p U e₁ (false || c₁)]
    simp [Bool.or_assoc]

theorem processUpdates_cons (p : Pipes) (e : Edge) (u : Nat) (U : List Nat) :
    processUpdates fromBytes cm e p (u :: U) =
      ((processUpdates fromBytes cm (processUpdate fromBytes cm e u (p.statusOf u)).1 p U).1,
        (processUpdate fromBytes cm e u (p.statusOf u)).2 ||
          (processUpdates fromBytes cm (processUpdate fromBytes cm e u (p.statusOf u)).1 p U).2) := by
  conv_lhs => unfold processUpdates
  simp only [List.foldl_cons]
  exact foldl_processUpdate fromBytes cm p U _ _

/-- The updates received from the pipes, each pending and fitting its request: they settle
every role, keep the invariant of the data, and leave the edge quiet if none reports a
change. -/
theorem processUpdates_spec {p : Pipes} (hn : (p.outgoing.map (·.id)).Nodup) :
    ∀ (U : List Nat) (e : Edge), e.Roles p U → U.Nodup →
      (∀ u ∈ U, ∃ o ∈ p.outgoing, o.id = u ∧ o.kind.Fits o.status) → e.DataInv →
      (processUpdates fromBytes cm e p U).1.Roles p [] ∧
      UpdateStep e (processUpdates fromBytes cm e p U).1 ∧
      UpdateFrame e (processUpdates fromBytes cm e p U).1 ∧
      ((processUpdates fromBytes cm e p U).2 = false →
        Quiet e (processUpdates fromBytes cm e p U).1)
  | [], e, hr, _, _, h => ⟨hr, .refl h, .refl e, fun _ => .refl e⟩
  | u :: U, e, hr, hnd, hfit, h => by
    obtain ⟨o, ho, hid, hf⟩ := hfit u (List.mem_cons_self ..)
    obtain ⟨hu, hnd'⟩ := List.nodup_cons.mp hnd
    obtain ⟨hs₁, hq₁⟩ : UpdateStep e (processUpdate fromBytes cm e u (p.statusOf u)).1 ∧ _ :=
      update_step fromBytes cm hr h
    obtain ⟨hr', hs', hf', hq'⟩ := processUpdates_spec hn U _
      (hr.update fromBytes cm hn ho hid hf hu) hnd'
      (fun u' hu' => hfit u' (List.mem_cons_of_mem _ hu')) hs₁.data
    rw [processUpdates_cons]
    refine ⟨hr', hs₁.trans hs', (updateFrame_processUpdate fromBytes cm e u _).trans hf',
      fun hc => ?_⟩
    simp only [Bool.or_eq_false_iff] at hc
    exact (hq₁ hc.1).trans (hq' hc.2)

/-! ## `recalcCurrentState` -/

/-- Both bounds on the state are at most `cache-slow`. -/
theorem bounds_le (e : Edge) : e.bounds.stLow ≤ .cacheSlow ∧ e.bounds.stHigh ≤ .cacheSlow := by
  unfold bounds
  suffices ∀ (l : List Dep) (b : Bounds), b.stLow ≤ .cacheSlow → b.stHigh ≤ .cacheSlow →
      (l.foldl e.boundsStep b).stLow ≤ .cacheSlow ∧
        (l.foldl e.boundsStep b).stHigh ≤ .cacheSlow from this _ _ (by decide) le_rfl
  intro l
  induction l with
  | nil => exact fun _ h₁ h₂ => ⟨h₁, h₂⟩
  | cons d l ih =>
    intro b h₁ h₂
    refine ih _ ?_ ((min_le_left _ _).trans h₂)
    dsimp only [boundsStep]
    split_ifs
    · exact min_le_right _ _
    · exact h₁

/-- The loop of `newKeys` over the other dependencies only removes. -/
theorem foldl_erase_empty (l : List Dep) :
    l.foldl (fun (m : AList (fun _ : String => CacheKey)) d =>
      m.keys.foldl (fun m id => if id ∈ d.keyMap then m else m.erase id) m) ∅ = ∅ := by
  induction l with
  | nil => rfl
  | cons d l ih => simpa using ih

/-- Without keys found, the dependencies have none in common. -/
theorem newKeys_eq_empty (h : ∀ d ∈ e.depList, d.keyMap.keys = []) : e.newKeys = ∅ := by
  unfold newKeys
  split
  · rfl
  · next d₀ rest hl =>
    have h₀ : d₀.keyMap.entries = [] := by
      have := h d₀ (by rw [hl]; exact List.mem_cons_self ..)
      simpa [AList.keys, List.keys] using this
    simp only [h₀, List.foldl_nil]
    exact foldl_erase_empty rest

/-- Before the cache map `recalcCurrentState` changes nothing. -/
theorem recalcCurrentState_of_preCache (hm : e.cacheMap = none) (h : e.PreCache) :
    recalcCurrentState cm ord e = e := by
  have hk : e.newKeys = ∅ := newKeys_eq_empty fun d hd => (h.deps d hd).1
  rw [recalcCurrentState_eq, hk, stateFromBounds_of_none (e := addKeysWithRecords cm e _) hm]
  simp only [AList.keys_empty, IterOrder.order_nil, List.filterMap_nil]
  rfl

theorem recalcCurrentState_fields (e : Edge) : recalcCurrentState cm ord e = { e with
    cacheRecords := (recalcCurrentState cm ord e).cacheRecords
    keys := (recalcCurrentState cm ord e).keys
    state := (recalcCurrentState cm ord e).state
    allDepsCompletedCacheFast := (recalcCurrentState cm ord e).allDepsCompletedCacheFast
    allDepsCompletedCacheSlow := (recalcCurrentState cm ord e).allDepsCompletedCacheSlow
    allDepsStateCacheSlow := (recalcCurrentState cm ord e).allDepsStateCacheSlow
    allDepsCompleted := (recalcCurrentState cm ord e).allDepsCompleted } := by
  rw [recalcCurrentState_eq, stateFromBounds_eq]
  rfl

@[simp] theorem bounds_recalcCurrentState (e : Edge) :
    (recalcCurrentState cm ord e).bounds = e.bounds :=
  bounds_congr (by rw [recalcCurrentState_fields]) (by rw [recalcCurrentState_fields]; rfl)

/-- With a cache map, the flag of all dependencies completed comes from the bounds, and the
state lies between them, unless the edge goes back to `initial`. -/
theorem recalcCurrentState_of_cacheMap (hm : e.cacheMap.isSome) :
    (recalcCurrentState cm ord e).allDepsCompleted =
      (e.cacheMapDone && e.bounds.allDepsCompleted) ∧
    (recalcCurrentState cm ord e).state =
      if !e.cacheMapDone && (recalcCurrentState cm ord e).keys.isEmpty then .initial
      else max (max e.state e.bounds.stLow) e.bounds.stHigh := by
  have h := stateFromBounds_of_cacheMap (e := addKeysWithRecords cm e
    ((ord.order e.newKeys.keys).filterMap fun id => (e.newKeys.lookup id).map e.mergedKey)) hm
  rw [bounds_addKeysWithRecords] at h
  rw [recalcCurrentState_eq, stateFromBounds_eq]
  exact h

/-- The state `recalcCurrentState` gives is `complete` only if it was. -/
theorem state_of_recalcCurrentState (h : (recalcCurrentState cm ord e).state = .complete) :
    e.state = .complete := by
  cases hm : e.cacheMap with
  | none =>
    rwa [recalcCurrentState_eq, stateFromBounds_of_none (e := addKeysWithRecords cm e _) hm] at h
  | some _ =>
    rw [(recalcCurrentState_of_cacheMap cm ord (by simp [hm])).2] at h
    obtain ⟨hlo, hhi⟩ := bounds_le e
    by_cases hi : (!e.cacheMapDone && (recalcCurrentState cm ord e).keys.isEmpty) = true
    · rw [if_pos hi] at h
      cases h
    · -- neither bound reaches `complete`
      rw [if_neg hi] at h
      by_contra hne
      have : max (max e.state e.bounds.stLow) e.bounds.stHigh ≤ .cacheSlow :=
        max_le (max_le (EdgeStatus.le_cacheSlow_of_ne hne) hlo) hhi
      rw [h] at this
      exact absurd this (by decide)

theorem dataInv_recalcCurrentState (h : e.DataInv) : (recalcCurrentState cm ord e).DataInv := by
  cases hm : e.cacheMap with
  | none => rwa [recalcCurrentState_of_preCache cm ord hm (h.preCache hm)]
  | some _ =>
    have hk := keysGrow_recalcCurrentState cm ord e
    have hres := state_of_recalcCurrentState cm ord (e := e)
    have hnil := keysRecords_recalcCurrentState_of_nil cm ord (e := e)
    rw [recalcCurrentState_fields]
    refine ⟨fun hm' => by simp [hm] at hm', keys_of_keysGrow hk h.keys, h.cacheMapReq, h.deps,
      h.execReq, fun hc => h.result (hres hc), fun hx => ?_, fun hn hr hd => ?_⟩
    · rcases h.exec hx with hd | hr
      · exact .inl hd
      · exact .inr (records_ne_nil_of_keysGrow hk hr)
    · have := congrArg Prod.fst (hnil hn)
      simp only [keysRecords_fst] at this
      exact this ▸ h.noDeps hn hr hd

theorem BoundsInv.of_preCache (hm : e.cacheMap = none) (h : e.PreCache) : e.BoundsInv :=
  ⟨by simp [h.allDepsCompleted, h.done], fun h' => by simp [hm] at h',
    fun h' => by simp [hm] at h'⟩

/-- `recalcCurrentState` makes the flags and the state agree with the bounds. -/
theorem boundsInv_recalcCurrentState (h : e.DataInv) : (recalcCurrentState cm ord e).BoundsInv := by
  cases hm : e.cacheMap with
  | none =>
    rw [recalcCurrentState_of_preCache cm ord hm (h.preCache hm)]
    exact .of_preCache hm (h.preCache hm)
  | some _ =>
    obtain ⟨hadc, hst⟩ := recalcCurrentState_of_cacheMap cm ord (e := e) (by simp [hm])
    have hf := recalcCurrentState_fields cm ord e
    have hdone : (recalcCurrentState cm ord e).cacheMapDone = e.cacheMapDone := by rw [hf]
    have hcm : (recalcCurrentState cm ord e).cacheMap = e.cacheMap := by rw [hf]
    refine ⟨by rw [hadc, hdone, bounds_recalcCurrentState], fun _ hk => ?_, fun _ hd hk => ?_⟩
    · -- a done cache map or a key keeps the state above the upper bound
      rw [hst, if_neg, bounds_recalcCurrentState]
      · exact le_max_right _ _
      · rw [hdone] at hk
        rcases hk with hk | hk <;> simp [hk]
    · rw [hst, if_pos]
      simp [← hdone, hd, hk]

/-- Over the updates and `recalcCurrentState`, the edge makes progress from one that kept both
invariants: it goes back to `initial` only from `initial`. -/
theorem progress_recalcCurrentState {e₀ : Edge} (h₀ : e₀.DataInv) (hb₀ : e₀.BoundsInv)
    (ha : Advance e₀ e) (h : e.DataInv) : Progress e₀ (recalcCurrentState cm ord e) := by
  cases hm : e.cacheMap with
  | none =>
    rw [recalcCurrentState_of_preCache cm ord hm (h.preCache hm)]
    exact ha.progress
  | some _ =>
    have hk := keysGrow_recalcCurrentState cm ord e
    have hf := recalcCurrentState_fields cm ord e
    have herr : (recalcCurrentState cm ord e).err = e.err := by rw [hf]
    have hres : (recalcCurrentState cm ord e).result = e.result := by rw [hf]
    refine ⟨?_, ha.progress.keys.trans hk.1, fun id hid => hk.2.1 id (ha.progress.records id hid),
      fun hc => ?_, fun hr => by rw [hres]; exact ha.progress.result hr⟩
    · rw [(recalcCurrentState_of_cacheMap cm ord (e := e) (by simp [hm])).2]
      by_cases hi : (!e.cacheMapDone && (recalcCurrentState cm ord e).keys.isEmpty) = true
      · -- back to `initial`: the edge was there before, with no key and no done cache map
        rw [if_pos hi]
        simp only [Bool.and_eq_true, Bool.not_eq_eq_eq_not, Bool.not_true, List.isEmpty_iff] at hi
        have hk₀ : e₀.keys = [] :=
          List.eq_nil_of_prefix_nil (hi.2 ▸ ha.progress.keys.trans hk.1)
        have hd₀ : e₀.cacheMapDone = false := by
          cases hd : e₀.cacheMapDone
          · rfl
          · simpa [hi.1] using ha.done hd
        cases hm₀ : e₀.cacheMap with
        | none => exact le_of_eq (h₀.preCache hm₀).state
        | some _ => exact le_of_eq (hb₀.initial (by simp [hm₀]) hd₀ hk₀)
      · rw [if_neg hi]
        exact ha.progress.state.trans ((le_max_left _ _).trans (le_max_left _ _))
    · have := ha.progress.complete hc
      simpa [isComplete, herr, hres] using this

theorem Roles.recalcCurrentState {p : Pipes} {L : List Nat} (h : e.Roles p L) :
    (Edge.recalcCurrentState cm ord e).Roles p L := by
  rw [recalcCurrentState_fields]
  exact ⟨h.cacheMap, h.exec, h.slow, h.input⟩

theorem KeptBelow.recalcCurrentState {n : Nat} (h : e.KeptBelow n) :
    (Edge.recalcCurrentState cm ord e).KeptBelow n := by
  rw [recalcCurrentState_fields]
  exact ⟨h.cacheMap, h.exec, h.slow, h.input⟩

/-! ## The requests -/

section requests

variable {p p' : Pipes}

theorem Progress.of_reqStep (hs : ReqStep e p e' p') : Progress e e' := by
  have hst : e'.state = e.state := hs.eq_of_drop (·.state) fun _ => rfl
  have hk : e'.keys = e.keys := hs.eq_of_drop (·.keys) fun _ => rfl
  have hrec : e'.cacheRecords = e.cacheRecords := hs.eq_of_drop (·.cacheRecords) fun _ => rfl
  have herr : e'.err = e.err := hs.eq_of_drop (·.err) fun _ => rfl
  have hres : e'.result = e.result := hs.eq_of_drop (·.result) fun _ => rfl
  exact ⟨hst.ge, hk ▸ List.prefix_refl _, fun _ h => hrec ▸ h,
    isComplete_mono (fun h => herr ▸ h) (fun h => hres ▸ h), fun h => hres ▸ h⟩

/-- The requests change nothing `BoundsInv` reads: the bounds stay once the dependencies are
set up, which they are once there is a cache map. -/
theorem Quiet.of_reqStep (h : e.DataInv) (hs : ReqStep e p e' p') : Quiet e e' :=
  ⟨hs.eq_of_drop (·.state) fun _ => rfl, hs.eq_of_drop (·.cacheMap) fun _ => rfl,
    hs.eq_of_drop (·.cacheMapDone) fun _ => rfl, hs.eq_of_drop (·.keys) fun _ => rfl,
    hs.eq_of_drop (·.allDepsCompleted) fun _ => rfl, fun hm => hs.bounds (h.deps (.inr hm))⟩

/-- Requests keep the number of dependencies, once they are set up. -/
theorem ReqStep.depList_nil (hs : ReqStep e p e' p') (h : e'.depList = []) : e.depList = [] := by
  cases hds : e.deps with
  | none => simp [depList, hds]
  | some ds =>
    obtain ⟨ds', hds', hv⟩ := hs.deps hds
    have hl := congrArg List.length hv
    simp only [depList, hds', Option.getD_some] at h
    simp only [h, List.map_nil, List.length_nil, List.length_map] at hl
    simp [depList, hds, List.eq_nil_of_length_eq_zero hl.symm]

/-- The requests keep the invariant of the data, given that the dependencies are set up once
a cache-map request is made. -/
theorem DataInv.reqStep (h : e.DataInv) (hb : e.BoundsInv) (hs : ReqStep e p e' p')
    (hdeps : e'.cacheMapReq.isSome ∨ e'.cacheMap.isSome → e'.deps.isSome) : e'.DataInv := by
  have hq := Quiet.of_reqStep h hs
  have hrec : e'.cacheRecords = e.cacheRecords := hs.eq_of_drop (·.cacheRecords) fun _ => rfl
  have hres : e'.result = e.result := hs.eq_of_drop (·.result) fun _ => rfl
  -- a kept request stays; a new one comes only where the source makes one
  have hcm : e.cacheMapReq.isSome → e'.cacheMapReq = e.cacheMapReq := fun hc =>
    hs.cacheMapReq.resolve_right fun ⟨hn, _⟩ => by simp [hn] at hc
  have hex : e.execReq.isSome → e'.execReq = e.execReq := fun hc =>
    hs.execReq.resolve_right fun ⟨hn, _⟩ => by simp [hn] at hc
  refine ⟨fun hm => ?_, fun hr => ?_, fun hd => ?_, hdeps, fun hr => ?_, fun hc => ?_,
    fun hx => ?_, fun hn hr hd => ?_⟩
  · have hp := h.preCache (hq.cacheMap ▸ hm)
    have hx : e'.execReq = none := by
      rcases hs.execReq with hx | ⟨-, hw⟩
      · rw [hx, hp.execReq]
      · simp [hp.records, hp.allDepsCompleted] at hw
    exact ⟨hq.state ▸ hp.state, hq.done ▸ hp.done, hq.allDepsCompleted ▸ hp.allDepsCompleted,
      hq.keys ▸ hp.keys, hrec ▸ hp.records, hx, hres ▸ hp.result,
      hs.noCacheDeps (hq.cacheMap ▸ hm) hp.deps⟩
  · rw [hq.keys]
    exact h.keys (hrec ▸ hr)
  · rw [hcm (h.cacheMapReq (hq.done ▸ hd))]
    exact h.cacheMapReq (hq.done ▸ hd)
  · rw [hres] at hr
    rw [hex (h.execReq hr)]
    exact h.execReq hr
  · rw [hres]
    exact h.result (hq.state ▸ hc)
  · rw [hq.done, hrec]
    rcases hs.execReq with hx' | ⟨-, hw⟩
    · exact h.exec (hx' ▸ hx)
    · -- a new execution request: records, or every dependency completed with a done cache map
      rcases hw with hw | hw
      · exact .inr hw
      · have := hb.allDepsCompleted
        rw [hw] at this
        exact .inl (Bool.and_eq_true_iff.mp this.symm).1
  · rw [hrec]
    rw [hq.done] at hd
    rcases hs.cacheMapReq with hc | ⟨-, hw⟩
    · exact h.noDeps (hs.depList_nil hn) (hc ▸ hr) hd
    · rcases hw with hw | hw
      · exact (h.preCache hw).records
      · exact hw

/-- An execution request is made only with records or with every dependency completed. -/
theorem requestExec_why {d : EdgeStatus} (h : (e.requestExec p d).2.2 = true) :
    e.cacheRecords.keys ≠ [] ∨ e.allDepsCompleted = true := by
  by_contra hne
  simp only [not_or, ne_eq, not_not, Bool.not_eq_true] at hne
  have hx : e.execIfPossible p = (e, p, false) := by simp [execIfPossible, hne.1, hne.2]
  unfold requestExec at h
  split_ifs at h
  rw [hx] at h
  cases h

theorem requestCacheMap_execReq (e : Edge) (p : Pipes) :
    (e.requestCacheMap p).1.execReq = e.execReq := by
  unfold requestCacheMap
  split <;> rfl

theorem createInputRequests_deps (e : Edge) (d : EdgeStatus) (p : Pipes) (force : Bool) :
    (e.createInputRequests d p force).1.deps.isSome := by
  have hi : e.initDeps.deps.isSome := by
    unfold initDeps
    split_ifs with h
    · rfl
    · simpa [Option.isSome_iff_ne_none] using h
  obtain ⟨ds, hds⟩ := Option.isSome_iff_exists.mp hi
  obtain ⟨ds', hds', -⟩ := (reqStep_foldl_requestInput d force
    (List.range e.initDeps.depList.length) (e.initDeps, p, false)).deps hds
  unfold createInputRequests
  rw [show (List.foldl (requestInput d force) (e.initDeps, p, false)
    (List.range e.initDeps.depList.length)).1.deps = some ds' from hds']
  rfl

theorem requestInputs_deps (e : Edge) (p : Pipes) (d : EdgeStatus) (c : Bool) :
    (e.requestInputs p d c).1.deps.isSome := by
  have h₁ := createInputRequests_deps e d p false
  unfold requestInputs
  rcases h : e.createInputRequests d p false with ⟨e₁, p₁, a⟩
  rw [h] at h₁
  dsimp only
  split_ifs
  · exact createInputRequests_deps e₁ d p₁ true
  · exact h₁

/-- After `requestMore` the dependencies are set up: by the input requests, or before, when an
execution is requested or pending, which needs records or a done cache map. -/
theorem requestMore_deps (h : e.DataInv) (hb : e.BoundsInv) (p : Pipes) (d : EdgeStatus) :
    (e.requestMore p d).1.deps.isSome := by
  have s₁ := reqStep_requestCacheMap (p := p) h.cacheMapReq
  have hx₁ := requestCacheMap_execReq e p
  -- with an execution requested or pending, the dependencies are set up already
  have hset : e.cacheRecords.keys ≠ [] ∨ e.allDepsCompleted = true ∨ e.execReq.isSome →
      e.deps.isSome := by
    have hcm : e.cacheMap.isSome → e.deps.isSome := fun hm => h.deps (.inr hm)
    rintro (hr | ha | hx)
    · exact hcm (by
        cases hm : e.cacheMap
        · exact absurd (h.preCache hm).records hr
        · rfl)
    · have := hb.allDepsCompleted
      rw [ha] at this
      exact h.deps (.inl (h.cacheMapReq (Bool.and_eq_true_iff.mp this.symm).1))
    · exact hcm (by
        cases hm : e.cacheMap
        · simp [(h.preCache hm).execReq] at hx
        · rfl)
  unfold requestMore
  rcases h₁ : e.requestCacheMap p with ⟨e₁, p₁, c⟩
  rw [h₁] at s₁ hx₁
  dsimp only at s₁ hx₁ ⊢
  have hds₁ : e.deps.isSome → e₁.deps.isSome := fun hd => by
    obtain ⟨ds, hds⟩ := Option.isSome_iff_exists.mp hd
    obtain ⟨ds', hds', -⟩ := s₁.deps hds
    simp [hds']
  have hrec₁ : e₁.cacheRecords = e.cacheRecords := s₁.eq_of_drop (·.cacheRecords) fun _ => rfl
  have hall₁ : e₁.allDepsCompleted = e.allDepsCompleted :=
    s₁.eq_of_drop (·.allDepsCompleted) fun _ => rfl
  rcases requestExec_cases e₁ p₁ d with ⟨heq, -⟩ | ⟨hx, -⟩
  · rw [heq]
    dsimp only
    simp only [Bool.false_eq_true, if_false]
    split_ifs with hn
    · exact requestInputs_deps e₁ p₁ d c
    · exact hds₁ (hset (.inr (.inr (by simpa [hx₁, Option.isSome_iff_ne_none] using hn))))
  · have hw := requestExec_why hx
    rw [hrec₁, hall₁] at hw
    have s₂ := reqStep_requestExec e₁ p₁ d (by
      rw [s₁.eq_of_drop (·.result) fun _ => rfl, hx₁]
      exact h.execReq)
    rcases h₂ : e₁.requestExec p₁ d with ⟨e₂, p₂, x⟩
    rw [h₂] at s₂ hx
    dsimp only at hx ⊢
    subst hx
    obtain ⟨ds, hds⟩ := Option.isSome_iff_exists.mp (hds₁ (hset (hw.imp_right .inl)))
    obtain ⟨ds', hds', -⟩ := s₂.deps hds
    rw [if_pos rfl, show e₂.deps = some ds' from hds']
    rfl

end requests

/-! ## The end of `unpark` -/

section tail

variable {p q : Pipes} {d : EdgeStatus} {done : Bool}

/-- The pipes after `unpark`: they grew, and some incoming requests were finished. -/
theorem respondAndRequest_pipes (h : e.DataInv) (hr : e.respondToIncoming p = (d, done, q)) :
    let r := if done then (e, q) else e.requestMore q d
    p.Grows { r.2 with incoming := p.incoming } ∧
      ∃ c : Incoming → Bool, r.2.incoming =
        p.incoming.map fun r => if c r then { r with completed := true } else r := by
  obtain ⟨p', hg, c, hq⟩ := respondToIncoming_pipes e p
  rw [hr] at hq
  dsimp only at hq
  -- `q` is `p'` with some incoming requests finished
  have hp' : ({ q with incoming := p.incoming } : Pipes) = p' := by
    rw [hq]
    exact Pipes.with_incoming_eq hg.incoming
  cases done
  · have hg' := (reqStep_requestMore e q d h.cacheMapReq h.execReq).grows
    simp only [Bool.false_eq_true, if_false]
    refine ⟨hg.trans ?_, c, by rw [hg'.incoming, hq]⟩
    rw [← hp']
    exact hg'.setIncoming p.incoming
  · simp only [if_true]
    exact ⟨by rw [hp']; exact hg, c, by rw [hq]⟩

/-- The edge after `unpark`: it keeps its invariants, makes progress, and its requests stay
where `Roles` says. -/
theorem respondAndRequest_edge (hinv : e.ReqInv p) (h : e.DataInv) (hb : e.BoundsInv)
    (hr : e.respondToIncoming p = (d, done, q)) :
    let r := if done then (e, q) else e.requestMore q d
    r.1.DataInv ∧ r.1.BoundsInv ∧ Progress e r.1 ∧ r.1.ReqInv r.2 := by
  obtain ⟨p', hg, c, hq⟩ := respondToIncoming_pipes e p
  rw [hr] at hq
  dsimp only at hq
  have hinv' : e.ReqInv q := by
    rw [hq]
    exact (hinv.grows hg).withIncoming _
  cases done
  · have hs := reqStep_requestMore e q d h.cacheMapReq h.execReq
    simp only [Bool.false_eq_true, if_false]
    exact ⟨h.reqStep hb hs fun _ => requestMore_deps h hb q d,
      hb.quiet (Quiet.of_reqStep h hs) h.preCache, .of_reqStep hs, hs.inv hinv'⟩
  · simp only [if_true]
    exact ⟨h, hb, .refl e, hinv'⟩

end tail

end Edge

end Buildkit
