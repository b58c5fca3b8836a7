import Buildkit.Solver.Edge.Bounds

/-!
# The two rules of `unpark`

`dispatch` checks after `unpark` that the edge still has an open outgoing request while it has an
open incoming one, and that it has none once every incoming request is finished. Here both are
shown of what `unpark` does after its updates: `respondToIncoming` and then, unless it is done,
`requestMore`, from an edge whose requests are where `Roles` says and whose flags and state
agree with its bounds.

The branch where `respondToIncoming` keeps incoming requests open while no outgoing request is
open is the one with an argument: `requestMore` must make a request. If it made none, no
request is pending on the edge, every dependency is complete with its slow cache, and the cache
map is done or has records; the bounds then allow the state `cache-slow`, so only `complete` is
desired, and `execIfPossible` would have made a request.
-/

namespace Buildkit

namespace Pipes

variable {p p' : Pipes}

/-- Every outgoing request has completed. -/
def AllClosed (p : Pipes) : Prop := ∀ o ∈ p.outgoing, o.status.completed = true

/-- The two rules `dispatch` checks after `unpark`: while an incoming request is open, so is an
outgoing one; once every incoming request is finished, every outgoing one has completed. -/
structure UnparkRules (p : Pipes) : Prop where
  incoming : (∃ r ∈ p.incoming, r.completed = false) → ∃ o ∈ p.outgoing, o.status.completed = false
  finished : (∀ r ∈ p.incoming, r.completed = true) → p.AllClosed

theorem allClosed_of_any_eq_false (h : p.outgoing.any (!·.status.completed) = false) :
    p.AllClosed := by
  simpa [AllClosed] using h

theorem exists_open_of_any (h : p.outgoing.any (!·.status.completed) = true) :
    ∃ o ∈ p.outgoing, o.status.completed = false := by
  simpa using h

theorem exists_open_of_not_allClosed (h : ¬ p.AllClosed) :
    ∃ o ∈ p.outgoing, o.status.completed = false := by
  simpa [AllClosed] using h

theorem not_allClosed_newRequest (p : Pipes) (k : OutKind) : ¬ (p.newRequest k).1.AllClosed :=
  fun h => by simpa [fresh, Status.initial] using h (p.fresh k) (by simp)

theorem completed_of_allClosed (h : p.AllClosed) (id : Nat) : p.completed id = true :=
  completed_of_closed fun o ho _ => h o ho

theorem AllClosed.not_open (h : p.AllClosed) {id : Nat} : ¬ p.Open id :=
  Closed.not_open fun o ho _ => h o ho

/-- The incoming requests after finishing those of `l` that `c` picks. -/
theorem incoming_foldl_finish (c : Incoming → Bool) (l : List Incoming) (p : Pipes) :
    (l.foldl (fun p req => if c req then p.finish req.id else p) p).incoming =
      p.incoming.map fun r =>
        if l.any (fun req => c req && req.id = r.id) then { r with completed := true } else r := by
  induction l generalizing p with
  | nil => simp
  | cons a l ih =>
    rw [List.foldl_cons, ih]
    split_ifs with ha
    · simp only [finish, List.map_map]
      apply List.map_congr_left
      intro r _
      by_cases hr : r.id = a.id
      · simp [hr, ha]
      · simp [hr, Ne.symm hr]
    · simp [ha]

theorem outgoing_foldl_finish (c : Incoming → Bool) (l : List Incoming) (p : Pipes) :
    (l.foldl (fun p req => if c req then p.finish req.id else p) p).outgoing = p.outgoing := by
  induction l generalizing p with
  | nil => rfl
  | cons a l ih =>
    rw [List.foldl_cons, ih]
    split_ifs <;> rfl

theorem nextID_foldl_finish (c : Incoming → Bool) (l : List Incoming) (p : Pipes) :
    (l.foldl (fun p req => if c req then p.finish req.id else p) p).nextID = p.nextID := by
  induction l generalizing p with
  | nil => rfl
  | cons a l ih =>
    rw [List.foldl_cons, ih]
    split_ifs <;> rfl

/-- Finishing the incoming requests that `c` picks changes only the incoming requests. -/
theorem foldl_finish_eq (c : Incoming → Bool) (l : List Incoming) (p : Pipes) :
    l.foldl (fun p req => if c req then p.finish req.id else p) p = { p with
      incoming := p.incoming.map fun r =>
        if l.any (fun req => c req && req.id = r.id) then { r with completed := true } else r } := by
  rw [← incoming_foldl_finish, ← outgoing_foldl_finish c l p, ← nextID_foldl_finish c l p]

/-- The loop that finishes every request, as one that picks every request. -/
theorem foldl_finish_all (l : List Incoming) (p : Pipes) :
    l.foldl (fun q req => q.finish req.id) p =
      l.foldl (fun q req => if (fun _ => true) req = true then q.finish req.id else q) p := by
  simp

/-- The loop that finishes the requests of two kinds, as one that picks both. -/
theorem foldl_finish_or (c₁ c₂ : Incoming → Bool) (l : List Incoming) (p : Pipes) :
    l.foldl (fun q req => if c₁ req = true then q.finish req.id
      else if c₂ req = true then q.finish req.id else q) p =
      l.foldl (fun q req => if (c₁ req || c₂ req) = true then q.finish req.id else q) p := by
  congr
  funext q req
  cases c₁ req <;> simp

/-- An incoming request that the loop does not pick, and no other with its identity, stays as it
is. -/
theorem mem_foldl_finish {c : Incoming → Bool} {l : List Incoming} {r : Incoming}
    (hr : r ∈ p.incoming) (hno : ∀ req ∈ l, req.id = r.id → c req = false) :
    r ∈ (l.foldl (fun p req => if c req then p.finish req.id else p) p).incoming := by
  rw [incoming_foldl_finish]
  refine List.mem_map.mpr ⟨r, hr, ?_⟩
  have hany : l.any (fun req => c req && req.id = r.id) = false :=
    List.any_eq_false.mpr fun req hreq => by
      by_cases hid : req.id = r.id
      · simp [hno req hreq hid]
      · simp [hid]
  rw [hany, if_neg Bool.false_ne_true]

/-- Finishing every incoming request completes them all. -/
theorem completed_foldl_finish (p : Pipes) :
    ∀ r ∈ (p.incoming.foldl (fun q req => q.finish req.id) p).incoming, r.completed = true := by
  rw [foldl_finish_all, incoming_foldl_finish]
  intro r hr
  obtain ⟨r₀, hr₀, rfl⟩ := List.mem_map.mp hr
  rw [if_pos (List.any_eq_true.mpr ⟨r₀, hr₀, by simp⟩)]

/-- The loop of `finishAllButOne`, once a request to leave open is chosen, finishes every
request with another identity. -/
theorem foldl_finishAllButOne (l : List Incoming) (x : Nat) (q : Pipes) :
    (l.foldl (fun (acc : Option Nat × Pipes) req =>
      if acc.1.isNone || acc.1 = some req.id then (some req.id, acc.2)
      else (acc.1, acc.2.finish req.id)) (some x, q)).2 =
    l.foldl (fun p req => if decide (req.id ≠ x) then p.finish req.id else p) q := by
  induction l generalizing q with
  | nil => rfl
  | cons r l ih =>
    simp only [List.foldl_cons]
    by_cases h : r.id = x
    · rw [if_pos (by simp [h]), if_neg (by simp [h]), h]
      exact ih q
    · rw [if_neg (by simp [Ne.symm h]), if_pos (by simpa using h)]
      exact ih _

/-- `finishAllButOne` finishes every request with another identity than the one it leaves
open, which is one of the list if there is one. -/
theorem finishAllButOne_eq (p : Pipes) (l : List Incoming) : ∃ x, (l ≠ [] → ∃ r ∈ l, r.id = x) ∧
    Edge.finishAllButOne p l =
      l.foldl (fun p req => if decide (req.id ≠ x) then p.finish req.id else p) p := by
  unfold Edge.finishAllButOne
  cases hf : l.find? (!·.canceled) with
  | some r =>
    refine ⟨r.id, fun _ => ⟨r, List.mem_of_find?_eq_some hf, rfl⟩, ?_⟩
    rw [Option.map_some, foldl_finishAllButOne]
  | none =>
    cases l with
    | nil => exact ⟨0, fun h => absurd rfl h, rfl⟩
    | cons a l' =>
      -- with none to leave open, the first request is
      refine ⟨a.id, fun _ => ⟨a, List.mem_cons_self .., rfl⟩, ?_⟩
      simp only [Option.map_none, List.foldl_cons, Option.isNone_none, Bool.true_or, if_true]
      rw [foldl_finishAllButOne]
      simp

theorem outgoing_finishAllButOne (p : Pipes) (l : List Incoming) :
    (Edge.finishAllButOne p l).outgoing = p.outgoing := by
  obtain ⟨x, -, heq⟩ := finishAllButOne_eq p l
  rw [heq, outgoing_foldl_finish]

/-- `finishAllButOne` leaves open one request of a nonempty list of open ones. -/
theorem open_finishAllButOne {l : List Incoming} (hne : l ≠ [])
    (hl : ∀ r ∈ l, r ∈ p.incoming ∧ r.completed = false) :
    ∃ r ∈ (Edge.finishAllButOne p l).incoming, r.completed = false := by
  obtain ⟨x, hx, heq⟩ := finishAllButOne_eq p l
  obtain ⟨r, hr, rfl⟩ := hx hne
  refine ⟨r, ?_, (hl r hr).2⟩
  rw [heq]
  exact mem_foldl_finish (hl r hr).1 fun req _ hid => by simp [hid]

end Pipes

namespace Edge

variable {e : Edge} {p : Pipes}

/-! ## A request function that leaves every request completed made none -/

theorem requestCacheMap_of_allClosed (h : (e.requestCacheMap p).2.1.AllClosed) :
    e.requestCacheMap p = (e, p, false) ∧
      (e.cacheMapReq.isSome ∨ e.cacheMap.isSome ∧ e.cacheRecords.keys ≠ []) := by
  unfold requestCacheMap at h ⊢
  split_ifs at h ⊢ with hc
  · exact absurd h (Pipes.not_allClosed_newRequest _ _)
  · refine ⟨rfl, ?_⟩
    cases hr : e.cacheMapReq <;> cases hm : e.cacheMap <;> simp_all

theorem execIfPossible_of_allClosed (h : (e.execIfPossible p).2.1.AllClosed) :
    e.execIfPossible p = (e, p, false) ∧ e.cacheRecords.keys = [] ∧ e.allDepsCompleted = false := by
  apply execIfPossible_of_false
  unfold execIfPossible postpone at h ⊢
  split_ifs at h ⊢
  · exact absurd h (Pipes.not_allClosed_newRequest _ _)
  · exact absurd ((Pipes.grows_foldl_cancel _ _).allClosed h) (Pipes.not_allClosed_newRequest _ _)
  · exact absurd h (Pipes.not_allClosed_newRequest _ _)
  · exact absurd h (Pipes.not_allClosed_newRequest _ _)
  · rfl

theorem replaceReq_of_allClosed (hp : p.AllClosed) (dep : Dep) (des : EdgeStatus) :
    replaceReq p dep des = (true, p) := by
  unfold replaceReq
  cases dep.req with
  | none => rfl
  | some r => simp [Pipes.completed_of_allClosed hp]

theorem requestDep_of_allClosed (hp : p.AllClosed) {i : Nat} {dep : Dep} {des : EdgeStatus}
    (h : (e.requestDep p i dep des).2.1.AllClosed) :
    e.requestDep p i dep des = (e, p, dep, false) ∧ des ≤ dep.state := by
  by_cases hlt : dep.state < des
  · unfold requestDep at h
    simp only [hlt, if_true, replaceReq_of_allClosed hp] at h
    exact absurd h (Pipes.not_allClosed_newRequest _ _)
  · unfold requestDep
    exact ⟨if_neg hlt, not_lt.mp hlt⟩

/-- What `requestSlowCache` asks of a dependency before it makes a request. -/
def SlowCacheWanted (e : Edge) (dep : Dep) : Prop :=
  dep.slowCacheReq = none ∧ dep.state = .complete ∧ e.slowCacheFunc dep = true ∧
    e.cacheMap.isSome = true

theorem requestSlowCache_of_allClosed {dep : Dep} (h : (e.requestSlowCache p dep).1.AllClosed) :
    e.requestSlowCache p dep = (p, dep, false) ∧ ¬ e.SlowCacheWanted dep := by
  rcases requestSlowCache_cases e p dep with h' | ⟨-, -, h'⟩
  · refine ⟨h', fun ⟨hn, hst, hf, hm⟩ => ?_⟩
    unfold requestSlowCache at h'
    rw [if_pos ⟨hst, by simp [hn], hf, hm⟩] at h'
    simp at h'
  · rw [h'] at h
    exact absurd h (Pipes.not_allClosed_newRequest _ _)

/-- What the loop of `createInputRequests` asks of a dependency before it makes a request. -/
def InputWanted (e : Edge) (des : EdgeStatus) (force : Bool) (dep : Dep) : Prop :=
  dep.state < e.desiredStateDep des force dep ∨ e.SlowCacheWanted dep

theorem requestInput_of_allClosed {des : EdgeStatus} {force : Bool} {acc : Edge × Pipes × Bool}
    {i : Nat} (hp : acc.2.1.AllClosed) (h : (requestInput des force acc i).2.1.AllClosed) :
    requestInput des force acc i = acc ∧
      ∀ dep, acc.1.depList[i]? = some dep → ¬ acc.1.InputWanted des force dep := by
  unfold requestInput at h ⊢
  cases hd : acc.1.depList[i]? with
  | none => exact ⟨rfl, fun _ h => by cases h⟩
  | some dep =>
    simp only [hd] at h ⊢
    -- the slow-cache request made none, so the pipes were closed after the input request too
    obtain ⟨hs, hslow⟩ := requestSlowCache_of_allClosed h
    rw [hs] at h
    obtain ⟨hr, hdes⟩ := requestDep_of_allClosed hp h
    rw [hr] at hs hslow ⊢
    dsimp only at hs hslow ⊢
    rw [hs]
    refine ⟨?_, fun dep' hdep => ?_⟩
    · simp [setDep_self hd]
    · cases hdep
      rintro (hlt | hw)
      · exact absurd hdes (not_le.mpr hlt)
      · exact hslow hw

theorem foldl_requestInput_of_allClosed (des : EdgeStatus) (force : Bool) :
    ∀ (is : List Nat) (acc : Edge × Pipes × Bool), acc.2.1.AllClosed →
      (is.foldl (requestInput des force) acc).2.1.AllClosed →
      is.foldl (requestInput des force) acc = acc ∧
        ∀ i ∈ is, ∀ dep, acc.1.depList[i]? = some dep → ¬ acc.1.InputWanted des force dep
  | [], _, _, _ => ⟨rfl, by simp⟩
  | i :: is, acc, hp, h => by
    rw [List.foldl_cons] at h ⊢
    have hstep := (reqStep_foldl_requestInput des force is _).grows.allClosed h
    obtain ⟨heq, hi⟩ := requestInput_of_allClosed hp hstep
    rw [heq] at h ⊢
    obtain ⟨hfold, hrest⟩ := foldl_requestInput_of_allClosed des force is acc hp h
    refine ⟨hfold, fun j hj => ?_⟩
    rcases List.mem_cons.mp hj with rfl | hj
    · exact hi
    · exact hrest j hj

theorem createInputRequests_of_allClosed {des : EdgeStatus} {force : Bool} (hp : p.AllClosed)
    (h : (e.createInputRequests des p force).2.1.AllClosed) :
    e.createInputRequests des p force = (e.initDeps, p, false) ∧
      ∀ dep ∈ e.initDeps.depList, ¬ e.initDeps.InputWanted des force dep := by
  obtain ⟨heq, hall⟩ := foldl_requestInput_of_allClosed des force _ (e.initDeps, p, false) hp h
  refine ⟨heq, fun dep hdep => ?_⟩
  obtain ⟨i, hi⟩ := List.mem_iff_getElem?.mp hdep
  exact hall i (List.mem_range.mpr (List.getElem?_eq_some_iff.mp hi).1) dep hi

theorem initDeps_of_isSome (h : e.deps.isSome) : e.initDeps = e := by
  simp [initDeps, Option.isSome_iff_ne_none.mp h]

theorem initDeps_initDeps (e : Edge) : e.initDeps.initDeps = e.initDeps := by
  apply initDeps_of_isSome
  unfold initDeps
  split_ifs with h
  · rfl
  · simpa [Option.isSome_iff_ne_none] using h

theorem hasActiveOutgoing_initDeps (e : Edge) : e.initDeps.hasActiveOutgoing = e.hasActiveOutgoing := by
  unfold initDeps
  split_ifs <;> rfl

/-- The execution step made no request, and then there was nothing to execute, or it made one. -/
theorem requestExec_cases (e : Edge) (p : Pipes) (d : EdgeStatus) :
    e.requestExec p d = (e, p, false) ∧
      (e.execReq = none → d = .complete → e.cacheRecords.keys = [] ∧ e.allDepsCompleted = false) ∨
    (e.requestExec p d).2.2 = true ∧ ¬ (e.requestExec p d).2.1.AllClosed := by
  unfold requestExec
  split_ifs with hx
  · cases hb : (e.execIfPossible p).2.2
    · obtain ⟨heq, hrec, hall⟩ := execIfPossible_of_false hb
      exact .inl ⟨heq, fun _ _ => ⟨hrec, hall⟩⟩
    · refine .inr ⟨rfl, fun hc => ?_⟩
      rw [(execIfPossible_of_allClosed hc).1] at hb
      cases hb
  · exact .inl ⟨rfl, fun hn hd => absurd (by simp [hn, hd]) hx⟩

/-- The input requests left every request completed only when no dependency of the set-up edge
needs one, even when forced. -/
theorem requestInputs_of_allClosed {d : EdgeStatus} (hp : p.AllClosed)
    (hact : e.hasActiveOutgoing = false) (h : (e.requestInputs p d false).2.AllClosed) :
    ∀ dep ∈ e.initDeps.depList, ¬ e.initDeps.InputWanted d true dep := by
  have g := (reqStep_createInputRequests e d p false).grows
  unfold requestInputs at h
  rcases h₁ : e.createInputRequests d p false with ⟨e₁, p₁, a⟩
  rw [h₁] at g h
  dsimp only at h
  have hp₁ : p₁.AllClosed := by
    split_ifs at h
    · exact (reqStep_createInputRequests e₁ d p₁ true).grows.allClosed h
    · exact h
  obtain ⟨heq, -⟩ := createInputRequests_of_allClosed hp (by rw [h₁]; exact hp₁)
  rw [h₁] at heq
  simp only [Prod.mk.injEq] at heq
  obtain ⟨rfl, rfl, rfl⟩ := heq
  -- nothing was added and no request is active: the forced pass ran
  rw [if_pos (by simp [hasActiveOutgoing_initDeps, hact])] at h
  obtain ⟨-, hdeps⟩ := createInputRequests_of_allClosed hp h
  rwa [initDeps_initDeps] at hdeps

/-! ## `requestMore` makes a request -/

theorem EdgeStatus.le_complete (s : EdgeStatus) : s ≤ .complete := by
  cases s <;> decide

theorem EdgeStatus.eq_complete_of_lt {s : EdgeStatus} (h : EdgeStatus.cacheSlow < s) :
    s = .complete := by
  revert h
  cases s <;> decide

theorem slowCacheFunc_cacheMap {dep : Dep} (h : e.slowCacheFunc dep = true) :
    e.cacheMap.isSome = true := by
  simp only [slowCacheFunc, Bool.and_eq_true] at h
  exact h.1

/-- With no request open, an edge that made no cache-map request has its cache map, done or
with records. -/
theorem cacheMap_of_noRequest (hp : p.AllClosed) (hinv : e.ReqInv p)
    (h : e.cacheMapReq.isSome ∨ e.cacheMap.isSome ∧ e.cacheRecords.keys ≠ []) :
    e.cacheMap.isSome ∧ (e.cacheMapDone = true ∨ e.cacheRecords.keys ≠ []) := by
  rcases h with h | h
  · obtain ⟨id, hid⟩ := Option.isSome_iff_exists.mp h
    rcases (hinv.roles.cacheMap hid).2 with ⟨ho, -⟩ | ⟨-, ⟨hd, hk, -⟩ | ⟨-, hmem⟩⟩
    · exact absurd ho hp.not_open
    · exact ⟨hk, .inl hd⟩
    · cases hmem
  · exact ⟨h.1, .inr h.2⟩

/-- With no request open and none wanted for any dependency even when forced, every
dependency is complete with its slow cache: the bounds allow `cache-slow` and have all
dependencies completed. -/
theorem bounds_of_noRequest {d : EdgeStatus} (hp : p.AllClosed) (hinv : e.ReqInv p)
    (h : ∀ dep ∈ e.depList, ¬ e.InputWanted d true dep) :
    e.bounds.allDepsCompleted = true ∧ e.bounds.stHigh = .cacheSlow := by
  refine bounds_of_complete fun dep hdep => ?_
  have hw := h dep hdep
  simp only [InputWanted, desiredStateDep, Bool.or_true, if_true, not_or, not_lt] at hw
  have hst : dep.state = .complete := le_antisymm (EdgeStatus.le_complete _) hw.1
  refine ⟨hst, isSlowIncomplete_of_complete hst fun hf => ?_⟩
  cases hs : dep.slowCacheReq with
  | none => exact absurd ⟨hs, hst, hf, slowCacheFunc_cacheMap hf⟩ hw.2
  | some id =>
    -- a slow-cache request that is not open has brought the slow key
    obtain ⟨j, hj⟩ := List.mem_iff_getElem?.mp hdep
    rcases (hinv.roles.slow.1 hj hs).2 with ho | ⟨-, hc | hmem⟩
    · exact absurd ho hp.not_open
    · exact hc
    · cases hmem

/-- When no outgoing request is active and the edge is not complete, `requestMore` makes a
request for any desired state above the current one. -/
theorem requestMore_opens {d : EdgeStatus} (hp : p.AllClosed) (hinv : e.ReqInv p)
    (hact : e.hasActiveOutgoing = false)
    (hF1 : e.allDepsCompleted = (e.cacheMapDone && e.bounds.allDepsCompleted))
    (hF2 : e.cacheMap.isSome → (e.cacheMapDone = true ∨ e.keys ≠ []) → e.bounds.stHigh ≤ e.state)
    (hD1 : e.cacheRecords.keys ≠ [] → e.keys ≠ []) (hD4 : e.cacheMap.isSome → e.deps.isSome)
    (hc : e.isComplete = false) (hd : e.state < d) : ¬ (e.requestMore p d).2.AllClosed := by
  intro hfin
  have g₁ := grows_requestCacheMap e p
  unfold requestMore at hfin
  rcases h₁ : e.requestCacheMap p with ⟨e₁, p₁, c⟩
  rw [h₁] at g₁ hfin
  dsimp only at g₁ hfin
  -- no cache-map request was made
  have stage₁ : p₁.AllClosed → e₁ = e ∧ p₁ = p ∧ c = false ∧ e.cacheMap.isSome ∧
      (e.cacheMapDone = true ∨ e.cacheRecords.keys ≠ []) := by
    intro hp₁
    have h := requestCacheMap_of_allClosed (e := e) (p := p) (by rw [h₁]; exact hp₁)
    rw [h₁] at h
    obtain ⟨heq, hno⟩ := h
    simp only [Prod.mk.injEq] at heq
    exact ⟨heq.1, heq.2.1, heq.2.2, cacheMap_of_noRequest hp hinv hno⟩
  rcases requestExec_cases e₁ p₁ d with ⟨heq, hinfo⟩ | ⟨hx, hna⟩
  · rw [heq] at hfin
    dsimp only at hfin
    simp only [Bool.false_eq_true, if_false] at hfin
    split_ifs at hfin with hn
    · -- no dependency wanted a request, so `complete` is desired and execution was possible
      obtain ⟨he, hpe, hce, hm, hdr⟩ :=
        stage₁ ((reqStep_requestInputs e₁ p₁ d c).grows.allClosed hfin)
      subst e₁ p₁ c
      have hdeps := requestInputs_of_allClosed hp hact hfin
      rw [initDeps_of_isSome (hD4 hm)] at hdeps
      obtain ⟨hadc, hs⟩ := bounds_of_noRequest hp hinv hdeps
      have hst : e.bounds.stHigh ≤ e.state := hF2 hm (hdr.imp_right hD1)
      rw [hs] at hst
      have hdc := EdgeStatus.eq_complete_of_lt (lt_of_le_of_lt hst hd)
      obtain ⟨hrec, hall⟩ := hinfo (by simpa using hn) hdc
      have hdone : e.cacheMapDone = true := hdr.resolve_right (by simp [hrec])
      rw [hF1, hdone, hadc] at hall
      cases hall
    · -- an execution request is pending: it is open, or it brought the result
      obtain ⟨he, -, -, -, -⟩ := stage₁ hfin
      subst e₁
      obtain ⟨id, hid⟩ := Option.ne_none_iff_exists'.mp (by simpa using hn)
      rcases (hinv.roles.exec hid).2 with ⟨ho, -⟩ | ⟨-, ⟨hr, -⟩ | ⟨-, hmem⟩⟩
      · exact hp.not_open ho
      · simp [isComplete, hr] at hc
      · cases hmem
  · rcases hX : e₁.requestExec p₁ d with ⟨e₂, p₂, x⟩
    rw [hX] at hfin hx hna
    dsimp only at hx hna
    subst hx
    exact hna hfin

/-! ## `respondToIncoming` -/

/-- The roles and the identities read only the outgoing requests and `nextID`. -/
theorem ReqInv.withIncoming (h : e.ReqInv p) (inc : List Incoming) :
    e.ReqInv { p with incoming := inc } :=
  ⟨⟨h.roles.cacheMap, h.roles.exec, h.roles.slow, h.roles.input⟩, h.kept, h.ids⟩

/-- The scan of the incoming requests: the desired state is at least the state and every desire
of a request not canceled; a request not canceled that desires more than the state is there
when the scan says not all can complete, and one not canceled when it says not all are
canceled. -/
theorem scanIncoming_spec (e : Edge) (l : List Incoming) :
    e.state ≤ (e.scanIncoming l).2.1 ∧
    (∀ r ∈ l, r.canceled = false → r.request.desiredState ≤ (e.scanIncoming l).2.1) ∧
    ((e.scanIncoming l).1 = false →
      ∃ r ∈ l, r.canceled = false ∧ e.state < r.request.desiredState) ∧
    ((e.scanIncoming l).2.2 = false → ∃ r ∈ l, r.canceled = false) := by
  unfold scanIncoming
  -- the loop from any accumulator whose desired state is at least the state
  suffices ∀ (l : List Incoming) (acc : Bool × EdgeStatus × Bool), e.state ≤ acc.2.1 →
      let r := l.foldl (fun (acc : Bool × EdgeStatus × Bool) req =>
        if req.canceled then acc
        else if acc.2.1 < req.request.desiredState then
          (acc.1 && !(e.hasActiveOutgoing || req.request.desiredState = .complete ||
              req.request.currentKeys = e.keys.length), req.request.desiredState, false)
        else (acc.1, acc.2.1, false)) acc
      acc.2.1 ≤ r.2.1 ∧
      (∀ x ∈ l, x.canceled = false → x.request.desiredState ≤ r.2.1) ∧
      (r.1 = false → acc.1 = false ∨ ∃ x ∈ l, x.canceled = false ∧ e.state < x.request.desiredState) ∧
      (r.2.2 = false → acc.2.2 = false ∨ ∃ x ∈ l, x.canceled = false) by
    obtain ⟨hle, hall, hok, hcan⟩ := this l (true, e.state, true) le_rfl
    exact ⟨hle, hall, fun h => (hok h).resolve_left (by simp),
      fun h => (hcan h).resolve_left (by simp)⟩
  intro l
  induction l with
  | nil => exact fun acc _ => ⟨le_rfl, by simp, .inl, .inl⟩
  | cons x l ih =>
    intro acc hacc
    simp only [List.foldl_cons]
    split_ifs with hc hlt
    · obtain ⟨hle, hall, hok, hcan⟩ := ih acc hacc
      refine ⟨hle, fun y hy hyc => ?_, fun h => ?_, fun h => ?_⟩
      · rcases List.mem_cons.mp hy with rfl | hy
        · simp [hc] at hyc
        · exact hall y hy hyc
      · exact (hok h).imp_right fun ⟨y, hy, hyc⟩ => ⟨y, List.mem_cons_of_mem _ hy, hyc⟩
      · exact (hcan h).imp_right fun ⟨y, hy, hyc⟩ => ⟨y, List.mem_cons_of_mem _ hy, hyc⟩
    · have hc' : x.canceled = false := by simpa using hc
      obtain ⟨hle, hall, hok, hcan⟩ := ih (acc.1 && !(e.hasActiveOutgoing ||
        x.request.desiredState = .complete || x.request.currentKeys = e.keys.length),
        x.request.desiredState, false) (le_of_lt (lt_of_le_of_lt hacc hlt))
      refine ⟨le_trans (le_of_lt hlt) hle, fun y hy hyc => ?_, fun h => ?_, fun _ => ?_⟩
      · rcases List.mem_cons.mp hy with rfl | hy
        · exact hle
        · exact hall y hy hyc
      · rcases hok h with h | ⟨y, hy, hyc⟩
        · -- the request `x` made the scan fail, or an earlier one did
          cases hacc1 : acc.1
          · exact .inl rfl
          · exact .inr ⟨x, List.mem_cons_self .., hc', lt_of_le_of_lt hacc hlt⟩
        · exact .inr ⟨y, List.mem_cons_of_mem _ hy, hyc⟩
      · exact .inr ⟨x, List.mem_cons_self .., hc'⟩
    · have hc' : x.canceled = false := by simpa using hc
      obtain ⟨hle, hall, hok, hcan⟩ := ih (acc.1, acc.2.1, false) hacc
      refine ⟨hle, fun y hy hyc => ?_, fun h => ?_, fun _ => ?_⟩
      · rcases List.mem_cons.mp hy with rfl | hy
        · exact le_trans (not_lt.mp hlt) hle
        · exact hall y hy hyc
      · exact (hok h).imp_right fun ⟨y, hy, hyc⟩ => ⟨y, List.mem_cons_of_mem _ hy, hyc⟩
      · exact .inr ⟨x, List.mem_cons_self .., hc'⟩

/-- The scan of `respondToIncoming`, which a complete edge skips. -/
theorem respondScan_spec {l : List Incoming} {s : Bool × EdgeStatus × Bool}
    (hs : (if e.isComplete then (true, e.state, true) else e.scanIncoming l) = s) :
    e.state ≤ s.2.1 ∧
    (s.1 = false → e.isComplete = false ∧ ∃ r ∈ l, r.canceled = false ∧
      e.state < r.request.desiredState ∧ r.request.desiredState ≤ s.2.1) ∧
    (s.2.2 = false → e.isComplete = false ∧ ∃ r ∈ l, r.canceled = false) := by
  subst hs
  cases hc : e.isComplete
  · obtain ⟨hle, hall, hok, hcan⟩ := scanIncoming_spec e l
    rw [if_neg Bool.false_ne_true]
    refine ⟨hle, fun h => ⟨rfl, ?_⟩, fun h => ⟨rfl, hcan h⟩⟩
    obtain ⟨r, hr, hrc, hlt⟩ := hok h
    exact ⟨r, hr, hrc, hlt, hall r hr hrc⟩
  · simp

/-- `respondToIncoming` cancels outgoing requests and finishes incoming ones, and does nothing
else to the pipes. -/
theorem respondToIncoming_pipes (e : Edge) (p : Pipes) : ∃ p', p.Grows p' ∧
    ∃ c : Incoming → Bool, (e.respondToIncoming p).2.2 = { p' with
      incoming := p.incoming.map fun r => if c r then { r with completed := true } else r } := by
  unfold respondToIncoming
  dsimp only
  generalize (if e.isComplete = true then (true, e.state, true) else e.scanIncoming p.incoming) = s
  split_ifs
  · -- every outgoing request is canceled, then every incoming one but one is finished
    have hg : p.Grows (p.outgoing.foldl (fun p o => p.cancel o.id) p) := by
      rw [← List.foldl_map]
      exact Pipes.grows_foldl_cancel p _
    obtain ⟨x, -, heq⟩ := Pipes.finishAllButOne_eq
      (p.outgoing.foldl (fun p o => p.cancel o.id) p) p.incoming
    refine ⟨_, hg, ?_⟩
    rw [heq, Pipes.foldl_finish_eq, hg.incoming]
    exact ⟨_, rfl⟩
  · refine ⟨p, .refl p, ?_⟩
    rw [Pipes.foldl_finish_all, Pipes.foldl_finish_eq]
    exact ⟨_, rfl⟩
  · refine ⟨p, .refl p, ?_⟩
    rw [Pipes.foldl_finish_or, Pipes.foldl_finish_eq]
    exact ⟨_, rfl⟩

section respond

variable (hinc : ∀ r ∈ p.incoming, r.completed = false)
  (hact : e.hasActiveOutgoing = p.outgoing.any (!·.status.completed))

include hinc hact

/-- When `respondToIncoming` is done, its pipes keep the two rules: with an outgoing request
active, it stays open and one incoming request is left open; with none, every incoming request
is finished. -/
theorem respondToIncoming_done (hio : p.incoming = [] → p.outgoing = [])
    (h : (e.respondToIncoming p).2.1 = true) : (e.respondToIncoming p).2.2.UnparkRules := by
  unfold respondToIncoming at h ⊢
  dsimp only at h ⊢
  generalize (if e.isComplete = true then (true, e.state, true) else e.scanIncoming p.incoming) = s
    at h ⊢
  split_ifs at h ⊢ with h₁ h₂
  · have hA : e.hasActiveOutgoing = true := ((Bool.and_eq_true _ _).mp h₁).2
    have hg : p.Grows (p.outgoing.foldl (fun p o => p.cancel o.id) p) := by
      rw [← List.foldl_map]
      exact Pipes.grows_foldl_cancel p _
    have hne : p.incoming ≠ [] := fun hn => by simp [hio hn, hA] at hact
    obtain ⟨o, ho, hoc⟩ := Pipes.exists_open_of_any (hact ▸ hA)
    obtain ⟨r, hr, hrc⟩ := Pipes.open_finishAllButOne (p := p.outgoing.foldl _ p) hne
      fun r hr => ⟨hg.incoming ▸ hr, hinc r hr⟩
    refine ⟨fun _ => ?_, fun hall => absurd (hall r hr) (by simp [hrc])⟩
    -- the active request is canceled but still open
    obtain ⟨o', ho', -, hoc'⟩ := hg.open ⟨o, ho, rfl, hoc⟩
    exact ⟨o', by rwa [Pipes.outgoing_finishAllButOne], hoc'⟩
  · have hA : e.hasActiveOutgoing = false := by simpa using ((Bool.and_eq_true _ _).mp h₂).2
    refine ⟨fun ⟨r, hr, hrc⟩ => absurd (Pipes.completed_foldl_finish p r hr) (by simp [hrc]),
      fun _ => ?_⟩
    rw [Pipes.foldl_finish_all, Pipes.foldl_finish_eq]
    exact Pipes.allClosed_of_any_eq_false (hact ▸ hA)

omit hact in
/-- When `respondToIncoming` is not done, it finished only incoming requests and left one
open; without an active outgoing request, the edge is not complete and desires more than its
state. -/
theorem respondToIncoming_notDone (hnd : (p.incoming.map (·.id)).Nodup)
    (h : (e.respondToIncoming p).2.1 = false) :
    (∃ inc, (e.respondToIncoming p).2.2 = { p with incoming := inc }) ∧
    (∃ r ∈ (e.respondToIncoming p).2.2.incoming, r.completed = false) ∧
    (e.hasActiveOutgoing = false → e.isComplete = false ∧ e.state < (e.respondToIncoming p).1) := by
  unfold respondToIncoming at h ⊢
  dsimp only at h ⊢
  generalize hs : (if e.isComplete = true then (true, e.state, true)
    else e.scanIncoming p.incoming) = s at h ⊢
  obtain ⟨-, hok, hcan⟩ := respondScan_spec hs
  obtain ⟨b, d, c⟩ := s
  dsimp only at h hok hcan ⊢
  -- both done branches are excluded by `h`
  split_ifs at h ⊢ with h₁ h₂
  rw [Pipes.foldl_finish_or]
  -- the request left open: one not canceled that desires more than the state, or, with an active
  -- outgoing request, one not canceled
  have hopen : ∃ r ∈ p.incoming, r.canceled = false ∧
      (e.hasActiveOutgoing = true ∨ e.state < r.request.desiredState) ∧
      (e.hasActiveOutgoing = false → e.isComplete = false ∧ e.state < d) := by
    cases hA : e.hasActiveOutgoing
    · have hb : b = false := by simpa [hA] using h₂
      obtain ⟨hc, r, hr, hrc, hlt, hle⟩ := hok hb
      exact ⟨r, hr, hrc, .inr hlt, fun _ => ⟨hc, lt_of_lt_of_le hlt hle⟩⟩
    · have hbc : b = false ∨ c = false := by
        revert h₁
        rw [hA]
        cases b <;> cases c <;> simp
      rcases hbc with hb | hc
      · obtain ⟨-, r, hr, hrc, -⟩ := hok hb
        exact ⟨r, hr, hrc, .inl rfl, fun h => absurd h (by simp)⟩
      · obtain ⟨-, r, hr, hrc⟩ := hcan hc
        exact ⟨r, hr, hrc, .inl rfl, fun h => absurd h (by simp)⟩
  obtain ⟨r, hr, hrc, hwhy, hdes⟩ := hopen
  refine ⟨⟨_, Pipes.foldl_finish_eq _ _ _⟩, ⟨r, Pipes.mem_foldl_finish hr fun req hreq hid => ?_,
    hinc r hr⟩, hdes⟩
  -- the loop picks no request with the identity of `r` but `r` itself, and not `r`
  obtain rfl : req = r := List.inj_on_of_nodup_map hnd hreq hr hid
  rcases hwhy with hA | hlt
  · simp [hrc, hA]
  · simp [hrc, not_le.mpr hlt]

/-- What `unpark` does after its updates keeps the two rules: from pipes whose incoming requests
are open, with distinct identities, and that have an outgoing request only beside an incoming
one; and from an edge whose requests are where `Roles` says and whose flags and state agree
with its bounds. -/
theorem respondAndRequest_rules (hio : p.incoming = [] → p.outgoing = [])
    (hnd : (p.incoming.map (·.id)).Nodup) (hinv : e.ReqInv p)
    (hF1 : e.allDepsCompleted = (e.cacheMapDone && e.bounds.allDepsCompleted))
    (hF2 : e.cacheMap.isSome → (e.cacheMapDone = true ∨ e.keys ≠ []) → e.bounds.stHigh ≤ e.state)
    (hD1 : e.cacheRecords.keys ≠ [] → e.keys ≠ []) (hD3 : e.cacheMapDone = true → e.cacheMapReq.isSome)
    (hD4 : e.cacheMap.isSome → e.deps.isSome) (hres : e.result.isSome → e.execReq.isSome)
    {d : EdgeStatus} {done : Bool} {q : Pipes} (hr : e.respondToIncoming p = (d, done, q)) :
    (if done then (e, q) else e.requestMore q d).2.UnparkRules := by
  cases done
  · -- not done: an incoming request stays open, and so does an outgoing one
    obtain ⟨⟨inc, hq⟩, ⟨r, hr', hrc⟩, hmore⟩ :=
      respondToIncoming_notDone hinc hnd (by rw [hr])
    rw [hr] at hq hr' hmore
    dsimp only at hq hr' hmore
    subst hq
    simp only [Bool.false_eq_true, if_false]
    have hg := (reqStep_requestMore e { p with incoming := inc } d hD3 hres).grows
    have hopen : ∃ o ∈ (e.requestMore { p with incoming := inc } d).2.outgoing,
        o.status.completed = false := by
      cases hA : e.hasActiveOutgoing
      · -- nothing was active, so `requestMore` makes a request
        obtain ⟨hc, hlt⟩ := hmore hA
        exact Pipes.exists_open_of_not_allClosed (requestMore_opens (p := { p with incoming := inc })
          (Pipes.allClosed_of_any_eq_false (hact ▸ hA)) (hinv.withIncoming inc) hA hF1 hF2 hD1
          hD4 hc hlt)
      · -- the active request stays open
        obtain ⟨o, ho, hoc⟩ := Pipes.exists_open_of_any (hact ▸ hA)
        obtain ⟨o', ho', -, hoc'⟩ := hg.open (⟨o, ho, rfl, hoc⟩ : Pipes.Open _ o.id)
        exact ⟨o', ho', hoc'⟩
    refine ⟨fun _ => hopen, fun hall => ?_⟩
    have := hall r (by rw [hg.incoming]; exact hr')
    simp [hrc] at this
  · have := respondToIncoming_done hinc hact hio (by rw [hr])
    rw [hr] at this
    exact this

end respond

end Edge

end Buildkit
