import Buildkit.Solver.Edge.Dispatch

/-!
# What each function of the edge changes

One lemma per function says which fields it can change; every other field of its result is the
field of its argument. The later proofs cite these and never unfold the functions again.

Pipes are read through their members: an identity is `Open` when a request with it has not
completed, and `Closed` otherwise (also when there is none). Once the identities are distinct,
`completed` and `statusOf` read the one request with the identity.
-/

namespace Buildkit

namespace Pipes

variable {p : Pipes} {id : Nat}

/-- Some outgoing request with this identity has not completed. -/
def Open (p : Pipes) (id : Nat) : Prop := ∃ o ∈ p.outgoing, o.id = id ∧ o.status.completed = false

/-- Every outgoing request with this identity has completed. -/
def Closed (p : Pipes) (id : Nat) : Prop :=
  ∀ o ∈ p.outgoing, o.id = id → o.status.completed = true

theorem open_or_closed (p : Pipes) (id : Nat) : p.Open id ∨ p.Closed id := by
  by_cases h : p.Closed id
  · exact .inr h
  · left
    simp only [Closed, not_forall] at h
    obtain ⟨o, ho, rfl, hc⟩ := h
    exact ⟨o, ho, rfl, by simpa using hc⟩

theorem Closed.not_open (h : p.Closed id) : ¬ p.Open id := by
  rintro ⟨o, ho, rfl, hc⟩
  simp [h o ho rfl] at hc

/-- With distinct identities, the first request with the identity of a member is that member. -/
theorem find?_of_mem {l : List Outgoing} (hn : (l.map (·.id)).Nodup) {o : Outgoing} (ho : o ∈ l) :
    l.find? (·.id = o.id) = some o := by
  induction l with
  | nil => cases ho
  | cons a l ih =>
    simp only [List.map_cons, List.nodup_cons, List.mem_map] at hn
    rcases List.mem_cons.mp ho with rfl | ho
    · simp
    · have hne : a.id ≠ o.id := fun h => hn.1 ⟨o, ho, h.symm⟩
      simp [hne, ih hn.2 ho]

theorem statusOf_of_mem (hn : (p.outgoing.map (·.id)).Nodup) {o : Outgoing}
    (ho : o ∈ p.outgoing) : p.statusOf o.id = o.status := by
  simp [statusOf, find?_of_mem hn ho]

theorem completed_of_mem (hn : (p.outgoing.map (·.id)).Nodup) {o : Outgoing}
    (ho : o ∈ p.outgoing) : p.completed o.id = o.status.completed := by
  simp [completed, find?_of_mem hn ho]

theorem completed_of_closed (h : p.Closed id) : p.completed id = true := by
  unfold completed
  split
  · next o hf =>
    have := List.find?_some hf
    exact h o (List.mem_of_find?_eq_some hf) (by simpa using this)
  · rfl

theorem completed_eq_false_iff (hn : (p.outgoing.map (·.id)).Nodup) :
    p.completed id = false ↔ p.Open id := by
  constructor
  · intro h
    rcases p.open_or_closed id with ho | hc
    · exact ho
    · simp [completed_of_closed hc] at h
  · rintro ⟨o, ho, rfl, hc⟩
    rw [completed_of_mem hn ho, hc]

theorem completed_eq_true_iff (hn : (p.outgoing.map (·.id)).Nodup) :
    p.completed id = true ↔ p.Closed id := by
  constructor
  · intro h
    rcases p.open_or_closed id with ho | hc
    · simp [(completed_eq_false_iff hn).mpr ho] at h
    · exact hc
  · exact completed_of_closed

/-! ## `cancel`, `newRequest` and `finish` -/

/-- What the edge reads of an outgoing request: everything but whether it was canceled. -/
def view (o : Outgoing) : Nat × OutKind × Status × Option Status := (o.id, o.kind, o.status, o.sent)

@[simp] theorem view_id (o : Outgoing) : (view o).1 = o.id := rfl

theorem map_view_cancel (p : Pipes) (r : Nat) :
    (p.cancel r).outgoing.map view = p.outgoing.map view := by
  simp only [cancel, List.map_map]
  apply List.map_congr_left
  intro o _
  by_cases h : o.id = r <;> simp [h, view]

@[simp] theorem incoming_cancel (p : Pipes) (r : Nat) : (p.cancel r).incoming = p.incoming := rfl

@[simp] theorem nextID_cancel (p : Pipes) (r : Nat) : (p.cancel r).nextID = p.nextID := rfl

/-- The outgoing request `newRequest` adds. -/
def fresh (p : Pipes) (kind : OutKind) : Outgoing := ⟨p.nextID, kind, false, .initial, none⟩

@[simp] theorem newRequest_snd (p : Pipes) (k : OutKind) : (p.newRequest k).2 = p.nextID := rfl

@[simp] theorem outgoing_newRequest (p : Pipes) (k : OutKind) :
    (p.newRequest k).1.outgoing = p.outgoing ++ [p.fresh k] := rfl

@[simp] theorem incoming_newRequest (p : Pipes) (k : OutKind) :
    (p.newRequest k).1.incoming = p.incoming := rfl

@[simp] theorem nextID_newRequest (p : Pipes) (k : OutKind) :
    (p.newRequest k).1.nextID = p.nextID + 1 := rfl

@[simp] theorem outgoing_finish (p : Pipes) (r : Nat) : (p.finish r).outgoing = p.outgoing := rfl

@[simp] theorem nextID_finish (p : Pipes) (r : Nat) : (p.finish r).nextID = p.nextID := rfl

end Pipes

/-- A dependency without the keys its probes found. -/
def Dep.dropKeyMap (d : Dep) : Dep := { d with keyMap := ∅ }

/-- What the edge keeps of the requests of a dependency. -/
def Dep.slowView (d : Dep) : Option Nat × Nat × Option Nat × Bool :=
  (d.req, d.index, d.slowCacheReq, d.slowCacheComplete)

@[simp] theorem Dep.slowView_dropKeyMap (d : Dep) : d.dropKeyMap.slowView = d.slowView := rfl

namespace Edge

variable (fromBytes : String → Digest) (cm : CacheManager) (ord : IterOrder String)

/-! ## Dependencies and probes -/

@[simp] theorem depList_setDep (e : Edge) (i : Nat) (d : Dep) :
    (e.setDep i d).depList = e.depList.set i d := by
  cases h : e.deps <;> simp [setDep, depList, h]

/-- The error `probeCache` leaves on the edge. -/
def probeErr (e : Edge) (d : Dep) (ks : List CacheKeyWithSelector) : Option String :=
  (e.probeCache cm d ks).1.err

/-- The keys `probeCache` leaves on the dependency. -/
def probeKeyMap (e : Edge) (d : Dep) (ks : List CacheKeyWithSelector) :
    AList (fun _ : String => CacheKey) :=
  (e.probeCache cm d ks).2.1.keyMap

@[simp] theorem probeCache_fst (e : Edge) (d : Dep) (ks : List CacheKeyWithSelector) :
    (e.probeCache cm d ks).1 = { e with err := probeErr cm e d ks } := by
  unfold probeErr probeCache
  split_ifs
  · rfl
  · rfl
  · dsimp only
    split <;> rfl

@[simp] theorem probeCache_dep (e : Edge) (d : Dep) (ks : List CacheKeyWithSelector) :
    (e.probeCache cm d ks).2.1 = { d with keyMap := probeKeyMap cm e d ks } := by
  unfold probeKeyMap probeCache
  split_ifs
  · rfl
  · rfl
  · dsimp only
    split <;> rfl

/-- A probe never clears an error. -/
theorem probeErr_isSome {e : Edge} (d : Dep) (ks : List CacheKeyWithSelector)
    (h : e.err.isSome) : (probeErr cm e d ks).isSome := by
  unfold probeErr probeCache
  split_ifs
  · exact h
  · exact h
  · dsimp only
    split
    · rfl
    · exact h

/-- An edge without what the updates of its dependencies change: the dependencies, the error,
`keysDidChange` and whether a match is possible. -/
def dropDeps (e : Edge) : Edge :=
  { e with deps := none, err := none, keysDidChange := false, noCacheMatchPossible := false }

theorem eq_of_dropDeps {e e' : Edge} (h : e'.dropDeps = e.dropDeps) :
    e' = { e with deps := e'.deps, err := e'.err, keysDidChange := e'.keysDidChange,
                  noCacheMatchPossible := e'.noCacheMatchPossible } := by
  cases e
  cases e'
  simp only [dropDeps, Edge.mk.injEq] at h ⊢
  simp [h]

/-- What the probes of the dependencies in the cache-map branch may change: the error, whether a
match is possible, and the keys each dependency found. -/
structure ProbeFrame (e e' : Edge) : Prop where
  drop : e'.dropDeps = e.dropDeps
  deps : e'.deps.map (·.map Dep.dropKeyMap) = e.deps.map (·.map Dep.dropKeyMap)
  err : e.err.isSome → e'.err.isSome

theorem ProbeFrame.refl (e : Edge) : ProbeFrame e e := ⟨rfl, rfl, id⟩

theorem ProbeFrame.trans {e e' e'' : Edge} (h₁ : ProbeFrame e e') (h₂ : ProbeFrame e' e'') :
    ProbeFrame e e'' :=
  ⟨h₂.drop.trans h₁.drop, h₂.deps.trans h₁.deps, h₂.err ∘ h₁.err⟩

/-- Replacing a member by one that differs from it only in its keys found. -/
theorem map_dropKeyMap_set {l : List Dep} {i : Nat} {d : Dep} (hd : l[i]? = some d)
    (km : AList (fun _ : String => CacheKey)) :
    (l.set i { d with keyMap := km }).map Dep.dropKeyMap = l.map Dep.dropKeyMap :=
  List.map_set_of_getElem? hd rfl

theorem deps_map_dropKeyMap_set {e : Edge} {i : Nat} {d : Dep} (hd : e.depList[i]? = some d)
    (km : AList (fun _ : String => CacheKey)) :
    (e.deps.map (·.set i { d with keyMap := km })).map (·.map Dep.dropKeyMap) =
      e.deps.map (·.map Dep.dropKeyMap) := by
  cases h : e.deps with
  | none => rfl
  | some l =>
    simp only [depList, h, Option.getD_some] at hd
    simp [map_dropKeyMap_set hd]

/-- One iteration of the loop of `probeDeps`. -/
theorem probeFrame_probeDeps_step (e : Edge) (i : Nat) :
    ProbeFrame e (match e.depList[i]? with
      | none => e
      | some d =>
        let r := e.probeCache cm d (withSelector d.keys (e.cacheMapDep i).selector)
        (r.1.setDep i r.2.1).checkDepMatchPossible r.2.1) := by
  split
  · exact .refl e
  · next d hd =>
    refine ⟨by simp [dropDeps, checkDepMatchPossible, setDep], ?_, probeErr_isSome cm d _⟩
    simpa [checkDepMatchPossible, setDep] using deps_map_dropKeyMap_set hd _

theorem probeFrame_probeDeps (e : Edge) : ProbeFrame e (probeDeps cm e) := by
  unfold probeDeps
  suffices ∀ (is : List Nat) (e' : Edge), ProbeFrame e e' → ProbeFrame e (is.foldl (fun e i =>
      match e.depList[i]? with
      | none => e
      | some d =>
        let r := e.probeCache cm d (withSelector d.keys (e.cacheMapDep i).selector)
        (r.1.setDep i r.2.1).checkDepMatchPossible r.2.1) e') from this _ e (.refl e)
  intro is
  induction is with
  | nil => exact fun _ h => h
  | cons i is ih => exact fun e' h => ih _ (h.trans (probeFrame_probeDeps_step cm e' i))

/-! ## The handlers of `processUpdate` -/

section probeNewKeys

variable (e : Edge) (i : Nat) (d : Dep) (state : EdgeState)

theorem probeNewKeys_fst : (probeNewKeys cm e i d state).1 = { e with
    deps := (probeNewKeys cm e i d state).1.deps
    err := (probeNewKeys cm e i d state).1.err
    keysDidChange := (probeNewKeys cm e i d state).1.keysDidChange } := by
  unfold probeNewKeys
  split_ifs
  · simp only [probeCache_fst]
    rfl
  · rfl

theorem probeNewKeys_snd : (probeNewKeys cm e i d state).2 = { d with
    keys := (probeNewKeys cm e i d state).2.keys
    keyMap := (probeNewKeys cm e i d state).2.keyMap } := by
  unfold probeNewKeys
  split_ifs
  · simp only [probeCache_dep]
  · rfl

/-- The dependency `i` is set again after the probe, so the probe's own setting does not count. -/
theorem probeNewKeys_deps (x : Dep) :
    (probeNewKeys cm e i d state).1.deps.map (·.set i x) = e.deps.map (·.set i x) := by
  unfold probeNewKeys
  split_ifs <;> simp [setDep, Option.map_map, Function.comp_def]

theorem probeNewKeys_err (h : e.err.isSome) : (probeNewKeys cm e i d state).1.err.isSome := by
  unfold probeNewKeys
  split_ifs
  · simpa [setDep] using probeErr_isSome cm d _ h
  · exact h

/-- Without a probe the keys found stay. -/
theorem probeNewKeys_keyMap (h : ¬ d.keys.length < state.keys.length) :
    (probeNewKeys cm e i d state).2.keyMap = d.keyMap := by
  simp [probeNewKeys, h]

/-- Before the cache map nothing is probed. -/
theorem probeNewKeys_keyMap_of_none (h : e.cacheMap = none) :
    (probeNewKeys cm e i d state).2.keyMap = d.keyMap := by
  simp [probeNewKeys, h]

end probeNewKeys

section processDepUpdate

variable (e : Edge) (i : Nat) (d : Dep) (st : Status)

theorem probeNewKeys_dropDeps (state : EdgeState) :
    (probeNewKeys cm e i d state).1.dropDeps = e.dropDeps := by
  rw [probeNewKeys_fst]
  rfl

@[simp] theorem depFailed_dropDeps : (e.depFailed d st).1.dropDeps = e.dropDeps := rfl

@[simp] theorem depFailed_deps : (e.depFailed d st).1.deps = e.deps := rfl

theorem depFailed_err (h : e.err.isSome) : (e.depFailed d st).1.err.isSome := by
  unfold depFailed
  dsimp only
  split_ifs <;> simp_all [Option.isSome_or]

@[simp] theorem depFailed_snd : (e.depFailed d st).2 =
    { d with err := if (!st.canceled && st.completed && st.err.isSome) then st.err else d.err } :=
  rfl

theorem takeState_dropDeps (state : EdgeState) : (e.takeState i d state).1.dropDeps = e.dropDeps := by
  unfold takeState
  dsimp only
  split_ifs <;> rfl

@[simp] theorem takeState_deps (state : EdgeState) :
    (e.takeState i d state).1.deps = e.deps.map (·.set i { d with toEdgeState := state }) := by
  unfold takeState
  dsimp only
  split_ifs <;> rfl

@[simp] theorem takeState_err (state : EdgeState) : (e.takeState i d state).1.err = e.err := by
  unfold takeState
  dsimp only
  split_ifs <;> rfl

@[simp] theorem takeState_snd (state : EdgeState) :
    (e.takeState i d state).2 = (decide (state.state ≠ d.state) && e.cacheMap.isSome) := rfl

theorem processDepUpdate_dropDeps : (processDepUpdate cm e i d st).1.dropDeps = e.dropDeps := by
  unfold processDepUpdate
  rw [takeState_dropDeps, probeNewKeys_dropDeps, depFailed_dropDeps]

/-- The dependency `i` is replaced by one with the same requests; when the update reports no
change and the cache map is known, also with the same state and keys found; before the cache
map, with the same keys found. -/
theorem processDepUpdate_deps : ∃ d', (processDepUpdate cm e i d st).1.deps =
    e.deps.map (·.set i d') ∧ d'.slowView = d.slowView ∧
    ((processDepUpdate cm e i d st).2 = false → e.cacheMap.isSome →
      d'.state = d.state ∧ d'.keyMap = d.keyMap) ∧
    (e.cacheMap = none → d'.keyMap = d.keyMap) := by
  unfold processDepUpdate
  -- the values the update computes, named as the definition names them
  extract_lets f state r t
  refine ⟨{ r.2 with toEdgeState := state }, ?_, ?_, ?_,
    fun hm => probeNewKeys_keyMap_of_none cm f.1 i f.2 state hm⟩
  · simp only [t, takeState_deps, r, probeNewKeys_deps, f, depFailed_deps]
  · rw [probeNewKeys_snd]
    rfl
  · simp only [t, takeState_snd, Bool.or_eq_false_iff, Bool.and_eq_false_iff,
      decide_eq_false_iff_not, not_not]
    rintro ⟨hlonger, hrecheck⟩ hc
    have hcm : ∀ s, (probeNewKeys cm (e.depFailed d st).1 i (e.depFailed d st).2 s).1.cacheMap =
        e.cacheMap := fun s => by
      rw [probeNewKeys_fst]
      rfl
    have hs : r.2.state = d.state := by
      rw [probeNewKeys_snd]
      rfl
    have hstate : state.state = d.state := by
      rcases hrecheck with h | h
      · exact h.trans hs
      · rw [hcm, hc] at h
        cases h
    have hkm : r.2.keyMap = d.keyMap := probeNewKeys_keyMap cm f.1 i f.2 state hlonger
    exact ⟨hstate, hkm⟩

theorem processDepUpdate_err (h : e.err.isSome) : (processDepUpdate cm e i d st).1.err.isSome := by
  unfold processDepUpdate
  rw [takeState_err]
  exact probeNewKeys_err cm _ i _ _ (depFailed_err e d st h)

end processDepUpdate

theorem deps_map_set_self {e : Edge} {i : Nat} {d : Dep} (hd : e.depList[i]? = some d) :
    e.deps.map (·.set i d) = e.deps := by
  cases h : e.deps with
  | none => rfl
  | some l =>
    simp only [depList, h, Option.getD_some] at hd
    obtain ⟨hi, rfl⟩ := List.getElem?_eq_some_iff.mp hd
    simp

section processSlowCache

variable (e : Edge) (i : Nat) (d : Dep) (st : Status)

theorem processSlowCache_dropDeps : (processSlowCache fromBytes cm e i d st).dropDeps = e.dropDeps := by
  unfold processSlowCache
  split
  · rfl
  · split_ifs
    · simp only [probeCache_fst]
      rfl
    · rfl

/-- The dependency `i` is replaced by one with the same request, index and state: a failed
slow-cache request is dropped, and otherwise the slow cache is complete. -/
theorem processSlowCache_deps (hd : e.depList[i]? = some d) : ∃ d',
    (processSlowCache fromBytes cm e i d st).deps = e.deps.map (·.set i d') ∧
    d'.req = d.req ∧ d'.index = d.index ∧ d'.toEdgeState = d.toEdgeState ∧
    (st.err.isSome → d'.slowCacheReq = none) ∧
    (st.err = none → d'.slowCacheReq = d.slowCacheReq ∧ d'.slowCacheComplete = true) := by
  unfold processSlowCache
  split
  · next err herr =>
    exact ⟨{ d with slowCacheReq := none }, by simp [setDep], rfl, rfl, rfl, fun _ => rfl,
      by simp [herr]⟩
  · next herr =>
    split_ifs with hc
    · extract_lets dgst k r found d' e'
      refine ⟨d', by simp only [e', setDep, checkDepMatchPossible, r, probeCache_fst],
        by simp [d', found, r], by simp [d', found, r], by simp [d', found, r], by simp [herr],
        fun _ => ⟨by simp [d', found, r], rfl⟩⟩
    · simp only [Bool.not_eq_true', Bool.not_eq_false] at hc
      exact ⟨d, (deps_map_set_self hd).symm, rfl, rfl, rfl, by simp [herr], fun _ => ⟨rfl, hc⟩⟩

theorem processSlowCache_err (h : e.err.isSome) :
    (processSlowCache fromBytes cm e i d st).err.isSome := by
  unfold processSlowCache
  split
  · dsimp only
    split_ifs <;> simp_all [setDep]
  · split_ifs
    · simpa [checkDepMatchPossible, setDep] using probeErr_isSome cm _ _ h
    · exact h

end processSlowCache

/-! ## Keys and records -/

/-- Keys and records only grow, and records come with a key. -/
def KeysGrow (acc acc' : AList (fun _ : String => CacheRecord) × List CacheKey) : Prop :=
  acc.2 <+: acc'.2 ∧ (∀ id ∈ acc.1, id ∈ acc'.1) ∧ (acc'.1.keys ≠ [] → acc.1.keys ≠ [] ∨ acc'.2 ≠ [])

theorem KeysGrow.refl (acc : AList (fun _ : String => CacheRecord) × List CacheKey) : KeysGrow acc acc :=
  ⟨List.prefix_refl _, fun _ h => h, .inl⟩

theorem KeysGrow.trans {a b c : AList (fun _ : String => CacheRecord) × List CacheKey}
    (h₁ : KeysGrow a b) (h₂ : KeysGrow b c) : KeysGrow a c := by
  refine ⟨h₁.1.trans h₂.1, fun id h => h₂.2.1 id (h₁.2.1 id h), fun h => ?_⟩
  rcases h₂.2.2 h with h | h
  · rcases h₁.2.2 h with h | h
    · exact .inl h
    · exact .inr fun hc => h (List.eq_nil_of_prefix_nil (hc ▸ h₂.1))
  · exact .inr h

theorem mem_foldl_insert {rs : List CacheRecord} {m : AList (fun _ : String => CacheRecord)}
    {id : String} (h : id ∈ m) : id ∈ rs.foldl (fun m r => m.insert r.id r) m := by
  induction rs generalizing m with
  | nil => exact h
  | cons r rs ih => exact ih ((AList.mem_insert _).mpr (.inr h))

theorem keysGrow_addKeyWithRecords (acc : AList (fun _ : String => CacheRecord) × List CacheKey)
    (k : CacheKey) : KeysGrow acc (addKeyWithRecords cm acc k) := by
  unfold addKeyWithRecords
  split
  · exact .refl acc
  · exact ⟨List.prefix_append _ _, fun _ h => mem_foldl_insert h, fun _ => .inr (by simp)⟩

theorem keysGrow_foldl_addKeyWithRecords (acc : AList (fun _ : String => CacheRecord) × List CacheKey)
    (ks : List CacheKey) : KeysGrow acc (ks.foldl (addKeyWithRecords cm) acc) := by
  induction ks generalizing acc with
  | nil => exact .refl acc
  | cons k ks ih => exact (keysGrow_addKeyWithRecords cm acc k).trans (ih _)

/-- The keys and records of an edge. -/
def keysRecords (e : Edge) : AList (fun _ : String => CacheRecord) × List CacheKey :=
  (e.cacheRecords, e.keys)

@[simp] theorem keysRecords_fst (e : Edge) : e.keysRecords.1 = e.cacheRecords := rfl

@[simp] theorem keysRecords_snd (e : Edge) : e.keysRecords.2 = e.keys := rfl

theorem keysGrow_addKeysWithRecords (e : Edge) (ks : List CacheKey) :
    KeysGrow e.keysRecords (addKeysWithRecords cm e ks).keysRecords :=
  keysGrow_foldl_addKeyWithRecords cm _ ks

theorem queryNoDeps_eq (e : Edge) (dgst : Digest) : queryNoDeps cm e dgst = { e with
    cacheMapDigests := e.cacheMapDigests ++ [dgst]
    cacheRecords := (queryNoDeps cm e dgst).cacheRecords
    keys := (queryNoDeps cm e dgst).keys
    state := .cacheSlow } := by
  unfold queryNoDeps
  dsimp only
  repeat' split
  all_goals rfl

theorem keysGrow_queryNoDeps (e : Edge) (dgst : Digest) :
    KeysGrow e.keysRecords (queryNoDeps cm e dgst).keysRecords := by
  unfold queryNoDeps
  dsimp only
  repeat' split
  all_goals first
    | exact .refl _
    | exact keysGrow_addKeysWithRecords cm _ _

section processCacheMap

variable (e : Edge) (resp : CacheMapResp)

theorem processCacheMap_eq : processCacheMap cm e resp = { e with
    cacheMap := some resp.cacheMap
    cacheMapDone := resp.complete
    cacheMapIndex := e.cacheMapIndex + 1
    cacheMapDigests := (processCacheMap cm e resp).cacheMapDigests
    cacheRecords := (processCacheMap cm e resp).cacheRecords
    keys := (processCacheMap cm e resp).keys
    state := (processCacheMap cm e resp).state
    keysDidChange := (processCacheMap cm e resp).keysDidChange
    deps := (processCacheMap cm e resp).deps
    err := (processCacheMap cm e resp).err
    noCacheMatchPossible := (processCacheMap cm e resp).noCacheMatchPossible
    cacheMapReq := if resp.complete then e.cacheMapReq else none } := by
  unfold processCacheMap
  dsimp only
  rw [eq_of_dropDeps (probeFrame_probeDeps cm _).drop]
  split
  · rw [queryNoDeps_eq]
  · rfl

theorem processCacheMap_deps : (processCacheMap cm e resp).deps.map (·.map Dep.dropKeyMap) =
    e.deps.map (·.map Dep.dropKeyMap) := by
  unfold processCacheMap
  dsimp only
  rw [(probeFrame_probeDeps cm _).deps]
  split
  · rw [queryNoDeps_eq]
  · rfl

theorem processCacheMap_err (h : e.err.isSome) : (processCacheMap cm e resp).err.isSome := by
  unfold processCacheMap
  dsimp only
  apply (probeFrame_probeDeps cm _).err
  split
  · rw [queryNoDeps_eq]
    exact h
  · exact h

theorem keysGrow_processCacheMap : KeysGrow e.keysRecords (processCacheMap cm e resp).keysRecords := by
  unfold processCacheMap
  dsimp only
  rw [eq_of_dropDeps (probeFrame_probeDeps cm _).drop]
  split
  · exact keysGrow_queryNoDeps cm
      { e with
        cacheMap := some resp.cacheMap
        cacheMapDone := resp.complete
        cacheMapIndex := e.cacheMapIndex + 1 } _
  · exact .refl _

/-- An edge without dependencies is at `cache-slow` once its cache map is there. -/
theorem processCacheMap_state : (processCacheMap cm e resp).state =
    if e.depList = [] then .cacheSlow else e.state := by
  unfold processCacheMap
  dsimp only
  rw [eq_of_dropDeps (probeFrame_probeDeps cm _).drop]
  split
  · next h =>
    rw [queryNoDeps_eq]
    simp_all [depList]
  · next h =>
    simp_all [depList]

end processCacheMap

/-! ## What every update keeps -/

/-- What every update leaves alone, or lets only grow. -/
structure UpdateFrame (e e' : Edge) : Prop where
  depRequests : e'.depRequests = e.depRequests
  allDepsCompleted : e'.allDepsCompleted = e.allDepsCompleted
  hasActiveOutgoing : e'.hasActiveOutgoing = e.hasActiveOutgoing
  edge : e'.edge = e.edge
  op : e'.op = e.op
  reqs : e'.deps.map (·.map fun d => (d.req, d.index)) = e.deps.map (·.map fun d => (d.req, d.index))
  err : e.err.isSome → e'.err.isSome
  keys : KeysGrow e.keysRecords e'.keysRecords

theorem UpdateFrame.refl (e : Edge) : UpdateFrame e e :=
  ⟨rfl, rfl, rfl, rfl, rfl, rfl, id, .refl _⟩

theorem UpdateFrame.trans {e e' e'' : Edge} (h₁ : UpdateFrame e e') (h₂ : UpdateFrame e' e'') :
    UpdateFrame e e'' :=
  ⟨h₂.depRequests.trans h₁.depRequests, h₂.allDepsCompleted.trans h₁.allDepsCompleted,
    h₂.hasActiveOutgoing.trans h₁.hasActiveOutgoing, h₂.edge.trans h₁.edge, h₂.op.trans h₁.op,
    h₂.reqs.trans h₁.reqs, h₂.err ∘ h₁.err, h₁.keys.trans h₂.keys⟩

/-- An update that changes only the dependencies, the error, `keysDidChange` and whether a match
is possible, and the dependency `i` only outside its request and index. -/
theorem UpdateFrame.of_dropDeps {e e' : Edge} {i : Nat} {d d' : Dep} (hd : e.depList[i]? = some d)
    (h : e'.dropDeps = e.dropDeps) (hdeps : e'.deps = e.deps.map (·.set i d'))
    (hreq : d'.req = d.req) (hindex : d'.index = d.index) (herr : e.err.isSome → e'.err.isSome) :
    UpdateFrame e e' := by
  have heq := eq_of_dropDeps h
  refine ⟨by rw [heq], by rw [heq], by rw [heq], by rw [heq], by rw [heq], ?_, herr,
    by rw [heq]; exact .refl _⟩
  rw [hdeps]
  cases hl : e.deps with
  | none => rfl
  | some l =>
    simp only [depList, hl, Option.getD_some] at hd
    obtain ⟨hi, rfl⟩ := List.getElem?_eq_some_iff.mp hd
    simp only [Option.map_some, List.map_set, hreq, hindex]
    have hi' : i < (l.map fun d : Dep => (d.req, d.index)).length := by simpa using hi
    have h : (l.map fun d : Dep => (d.req, d.index)).set i
        (l.map fun d : Dep => (d.req, d.index))[i] = _ := List.set_getElem_self hi'
    simpa using h

theorem updateFrame_processDepUpdate (e : Edge) (i : Nat) (d : Dep) (st : Status)
    (hd : e.depList[i]? = some d) : UpdateFrame e (processDepUpdate cm e i d st).1 := by
  obtain ⟨d', hdeps, hview, -⟩ := processDepUpdate_deps cm e i d st
  simp only [Dep.slowView, Prod.mk.injEq] at hview
  exact .of_dropDeps hd (processDepUpdate_dropDeps cm e i d st) hdeps hview.1 hview.2.1
    (processDepUpdate_err cm e i d st)

theorem updateFrame_processSlowCache (e : Edge) (i : Nat) (d : Dep) (st : Status)
    (hd : e.depList[i]? = some d) : UpdateFrame e (processSlowCache fromBytes cm e i d st) := by
  obtain ⟨d', hdeps, hreq, hindex, -⟩ := processSlowCache_deps fromBytes cm e i d st hd
  exact .of_dropDeps hd (processSlowCache_dropDeps fromBytes cm e i d st) hdeps hreq hindex
    (processSlowCache_err fromBytes cm e i d st)

theorem updateFrame_processCacheMap (e : Edge) (resp : CacheMapResp) :
    UpdateFrame e (processCacheMap cm e resp) := by
  have hdeps := processCacheMap_deps cm e resp
  refine ⟨by rw [processCacheMap_eq], by rw [processCacheMap_eq], by rw [processCacheMap_eq],
    by rw [processCacheMap_eq], by rw [processCacheMap_eq], ?_, processCacheMap_err cm e resp,
    keysGrow_processCacheMap cm e resp⟩
  have := congrArg (Option.map (List.map fun d : Dep => (d.req, d.index))) hdeps
  simpa [Option.map_map, Function.comp_def, Dep.dropKeyMap] using this

theorem updateFrame_processCacheMapUpdate (e : Edge) (st : Status) :
    UpdateFrame e (processCacheMapUpdate cm e st) := by
  unfold processCacheMapUpdate
  split
  · refine ⟨rfl, rfl, rfl, rfl, rfl, rfl, fun h => ?_, .refl _⟩
    split_ifs <;> simp_all
  · split
    · exact updateFrame_processCacheMap cm e _
    · exact .refl e

theorem updateFrame_processExecUpdate (e : Edge) (st : Status) :
    UpdateFrame e (processExecUpdate e st) := by
  unfold processExecUpdate
  split
  · refine ⟨rfl, rfl, rfl, rfl, rfl, rfl, fun h => ?_, .refl _⟩
    split_ifs <;> simp_all
  · split
    · exact ⟨rfl, rfl, rfl, rfl, rfl, rfl, id, .refl _⟩
    · exact .refl e

/-! ## What the updates keep of the requests -/

theorem depList_of_deps {e e' : Edge} {i : Nat} {d : Dep} (h : e'.deps = e.deps.map (·.set i d)) :
    e'.depList = e.depList.set i d := by
  cases hl : e.deps <;> simp [depList, h, hl]

theorem depList_map_slowView {e e' : Edge}
    (h : e'.deps.map (·.map Dep.dropKeyMap) = e.deps.map (·.map Dep.dropKeyMap)) :
    e'.depList.map Dep.slowView = e.depList.map Dep.slowView := by
  simp only [depList]
  cases hl : e.deps <;> cases hl' : e'.deps <;>
    simp only [hl, hl', Option.map_some, Option.map_none, reduceCtorEq, Option.some.injEq,
      Option.getD_some, Option.getD_none] at h ⊢
  simpa [Function.comp_def] using congrArg (List.map Dep.slowView) h

theorem processCacheMapUpdate_exec (e : Edge) (st : Status) :
    (processCacheMapUpdate cm e st).execReq = e.execReq ∧
      (processCacheMapUpdate cm e st).result = e.result := by
  unfold processCacheMapUpdate
  repeat' split
  all_goals first
    | exact ⟨rfl, rfl⟩
    | rw [processCacheMap_eq]
      exact ⟨rfl, rfl⟩

theorem processCacheMapUpdate_slowView (e : Edge) (st : Status) :
    (processCacheMapUpdate cm e st).depList.map Dep.slowView = e.depList.map Dep.slowView := by
  unfold processCacheMapUpdate
  repeat' split
  all_goals first
    | rfl
    | exact depList_map_slowView (processCacheMap_deps cm e _)

theorem processExecUpdate_eq (e : Edge) (st : Status) : processExecUpdate e st = { e with
    execReq := (processExecUpdate e st).execReq
    result := (processExecUpdate e st).result
    err := (processExecUpdate e st).err
    state := (processExecUpdate e st).state } := by
  unfold processExecUpdate
  repeat' split
  all_goals rfl

theorem updateFrame_processUpdate (e : Edge) (upt : Nat) (st : Status) :
    UpdateFrame e (processUpdate fromBytes cm e upt st).1 := by
  unfold processUpdate
  split_ifs
  · exact updateFrame_processCacheMapUpdate cm e st
  · exact updateFrame_processExecUpdate e st
  all_goals
    repeat' split
    all_goals first
      | exact .refl e
      | exact updateFrame_processDepUpdate cm e _ _ st ‹_›
      | exact updateFrame_processSlowCache fromBytes cm e _ _ st ‹_›

end Edge

end Buildkit
