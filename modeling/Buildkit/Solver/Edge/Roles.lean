import Buildkit.Solver.Edge.Frame

/-!
# The requests of an edge and the pipes they are on

The edge keeps the identity of each request it made: `cacheMapReq`, `execReq`, and per
dependency `req` and `slowCacheReq`, with `depRequests` mapping input requests to dependencies.
`Roles` says what each kept identity is: the pipe with it, if there is one, asks for what the
edge thinks it asks for; and either the pipe is still open, or what its response brings is
there, or its response is among the updates still to be processed.

`processUpdate` finds the role of an update from the identities the edge keeps. The roles are
told apart by the kinds of the pipes, so each update is taken for what it is; processing it
settles the role it has.
-/

namespace Buildkit

/-- What an outgoing request is for, as the edge finds it among the identities it keeps. -/
inductive Role
  | cacheMap
  | exec
  | slowCache
  | input
  | none
  deriving DecidableEq

/-- The role of a request of each kind. -/
def OutKind.role : OutKind → Role
  | .input _ => .input
  | .func (.cacheMap _) => .cacheMap
  | .func .loadCache | .func .execOp => .exec
  | .func (.calcSlowCache _) => .slowCache
  | .func .postpone | .merged => .none

theorem OutKind.Fits.cacheMap {k : OutKind} {st : Status} (hf : k.Fits st)
    (h : k.role = .cacheMap) : st.completed ∧ (st.err.isSome ∨ ∃ r, st.value = .cacheMap r) := by
  rcases k with _ | (_ | _ | _ | _ | _) | _ <;> simp_all [OutKind.role, OutKind.Fits]

theorem OutKind.Fits.exec {k : OutKind} {st : Status} (hf : k.Fits st)
    (h : k.role = .exec) : st.completed ∧ (st.err.isSome ∨ ∃ r, st.value = .result r) := by
  rcases k with _ | (_ | _ | _ | _ | _) | _ <;> simp_all [OutKind.role, OutKind.Fits]

theorem OutKind.Fits.slowCache {k : OutKind} {st : Status} (hf : k.Fits st)
    (h : k.role = .slowCache) : st.completed ∧ (st.err.isSome ∨ ∃ d, st.value = .digest d) := by
  rcases k with _ | (_ | _ | _ | _ | _) | _ <;> simp_all [OutKind.role, OutKind.Fits]

/-- What the slow-cache roles read of a dependency. -/
def Dep.slowReq (d : Dep) : Option Nat × Bool := (d.slowCacheReq, d.slowCacheComplete)

namespace Pipes

/-- Every outgoing request with this identity has this role. -/
def HasRole (p : Pipes) (id : Nat) (r : Role) : Prop := ∀ o ∈ p.outgoing, o.id = id → o.kind.role = r

end Pipes

namespace Edge

variable (fromBytes : String → Digest) (cm : CacheManager)

/-- The cache-map request `req` on the pipes `p`, with `done` for `cacheMapDone` and `known` for
whether the cache map is there: its pipe asks for a cache map, and it is open, or settled and
not pending, or pending. -/
def CacheMapRole (p : Pipes) (pending : List Nat) (req : Option Nat) (done known : Bool) : Prop :=
  ∀ {id}, req = some id → p.HasRole id .cacheMap ∧
    (p.Open id ∧ done = false ∨
      p.Closed id ∧ (done = true ∧ known = true ∧ id ∉ pending ∨ done = false ∧ id ∈ pending))

/-- The execution request `req` with the result `result`: its pipe asks for the result, and it is
open, or settled and not pending, or pending. -/
def ExecRole (p : Pipes) (pending : List Nat) (req : Option Nat) (result : Option CachedResult) :
    Prop :=
  ∀ {id}, req = some id → p.HasRole id .exec ∧
    (p.Open id ∧ result = none ∨
      p.Closed id ∧ (result.isSome ∧ id ∉ pending ∨ result = none ∧ id ∈ pending))

/-- The slow-cache requests of the dependencies `deps`: each pipe asks for a slow key, and it is
open, or its dependency has its slow key, or it is pending; no two dependencies share one. -/
def SlowRoles (p : Pipes) (pending : List Nat) (deps : List Dep) : Prop :=
  (∀ {j : Nat} {d : Dep} {id : Nat}, deps[j]? = some d → d.slowCacheReq = some id →
    p.HasRole id .slowCache ∧ (p.Open id ∨ p.Closed id ∧ (d.slowCacheComplete = true ∨ id ∈ pending))) ∧
  ∀ {j k : Nat} {dj dk : Dep} {id : Nat}, deps[j]? = some dj → deps[k]? = some dk →
    dj.slowCacheReq = some id → dk.slowCacheReq = some id → j = k

/-- The input requests `reqs`: their pipes ask for states of dependencies. -/
def InputRoles (p : Pipes) (reqs : AList (fun _ : Nat => Nat)) : Prop :=
  ∀ {id}, id ∈ reqs → p.HasRole id .input

/-- The requests of `e` on the pipes `p`, while the updates `pending` are still to be
processed. -/
structure Roles (e : Edge) (p : Pipes) (pending : List Nat) : Prop where
  cacheMap : CacheMapRole p pending e.cacheMapReq e.cacheMapDone e.cacheMap.isSome
  exec : ExecRole p pending e.execReq e.result
  slow : SlowRoles p pending e.depList
  input : InputRoles p e.depRequests

/-! ## Routing -/

section routing

variable {e : Edge} {u : Nat} {st : Status}

theorem processUpdate_of_cacheMap (hex : e.execReq ≠ some u) (hin : u ∉ e.depRequests)
    (hsl : ∀ d ∈ e.depList, d.slowCacheReq ≠ some u) :
    processUpdate fromBytes cm e u st =
      if e.cacheMapReq = some u ∧ st.completed then (processCacheMapUpdate cm e st, true)
      else (e, false) := by
  have hl : e.depRequests.lookup u = none := AList.lookup_eq_none.mpr hin
  have hf : e.depList.findIdx? (·.slowCacheReq = some u) = none :=
    List.findIdx?_eq_none_iff.mpr fun d hd => by simpa using hsl d hd
  have hx : ¬(e.execReq = some u ∧ st.completed = true) := fun h => hex h.1
  unfold processUpdate
  simp only [hx, if_false, hl, hf]

theorem processUpdate_of_exec (hcm : e.cacheMapReq ≠ some u) (hin : u ∉ e.depRequests)
    (hsl : ∀ d ∈ e.depList, d.slowCacheReq ≠ some u) :
    processUpdate fromBytes cm e u st =
      if e.execReq = some u ∧ st.completed then (processExecUpdate e st, true)
      else (e, false) := by
  have hl : e.depRequests.lookup u = none := AList.lookup_eq_none.mpr hin
  have hf : e.depList.findIdx? (·.slowCacheReq = some u) = none :=
    List.findIdx?_eq_none_iff.mpr fun d hd => by simpa using hsl d hd
  have hx : ¬(e.cacheMapReq = some u ∧ st.completed = true) := fun h => hcm h.1
  unfold processUpdate
  simp only [hx, if_false, hl, hf]

theorem processUpdate_of_input (hcm : e.cacheMapReq ≠ some u) (hex : e.execReq ≠ some u)
    (hsl : ∀ d ∈ e.depList, d.slowCacheReq ≠ some u) :
    processUpdate fromBytes cm e u st =
      match e.depRequests.lookup u with
      | some i =>
        match e.depList[i]? with
        | some d => processDepUpdate cm e i d st
        | none => (e, false)
      | none => (e, false) := by
  have hf : e.depList.findIdx? (·.slowCacheReq = some u) = none :=
    List.findIdx?_eq_none_iff.mpr fun d hd => by simpa using hsl d hd
  unfold processUpdate
  rewrite [if_neg fun h => hcm h.1, if_neg fun h => hex h.1, hf]
  -- what is left is the match of the statement against that of the definition: one matcher
  -- where both are elaborated in the same file, two that unfold to the same term elsewhere
  rfl

theorem processUpdate_of_slowCache (hcm : e.cacheMapReq ≠ some u) (hex : e.execReq ≠ some u)
    (hin : u ∉ e.depRequests) :
    processUpdate fromBytes cm e u st =
      match e.depList.findIdx? (·.slowCacheReq = some u) with
      | some i =>
        match e.depList[i]? with
        | some d => if st.completed then (processSlowCache fromBytes cm e i d st, true)
          else (e, false)
        | none => (e, false)
      | none => (e, false) := by
  have hl : e.depRequests.lookup u = none := AList.lookup_eq_none.mpr hin
  unfold processUpdate
  rewrite [if_neg fun h => hcm h.1, if_neg fun h => hex h.1, hl]
  -- as in the lemma above, the two matches agree by unfolding
  rfl

end routing

/-! ## Skipping and settling one update -/

section step

variable {p : Pipes} {u : Nat} {L : List Nat}

theorem CacheMapRole.skip {req : Option Nat} {done known : Bool}
    (h : CacheMapRole p (u :: L) req done known) (hu : req = some u → p.Open u) :
    CacheMapRole p L req done known := by
  intro id hid
  obtain ⟨hrole, hst⟩ := h hid
  refine ⟨hrole, ?_⟩
  rcases hst with h | ⟨hc, ⟨hd, hk, hnot⟩ | ⟨hd, hmem⟩⟩
  · exact .inl h
  · exact .inr ⟨hc, .inl ⟨hd, hk, fun hL => hnot (List.mem_cons_of_mem _ hL)⟩⟩
  · rcases List.mem_cons.mp hmem with rfl | hL
    · exact absurd (hu hid) hc.not_open
    · exact .inr ⟨hc, .inr ⟨hd, hL⟩⟩

theorem CacheMapRole.settle {req req' : Option Nat} {done known done' known' : Bool}
    (h : CacheMapRole p (u :: L) req done known) (hreq : req = some u) (hc : p.Closed u)
    (hu : u ∉ L) (hs : req' = none ∨ req' = some u ∧ done' = true ∧ known' = true) :
    CacheMapRole p L req' done' known' := by
  intro id hid
  rcases hs with rfl | ⟨rfl, hd, hk⟩
  · cases hid
  · cases hid
    exact ⟨(h hreq).1, .inr ⟨hc, .inl ⟨hd, hk, hu⟩⟩⟩

theorem ExecRole.skip {req : Option Nat} {result : Option CachedResult}
    (h : ExecRole p (u :: L) req result) (hu : req = some u → p.Open u) :
    ExecRole p L req result := by
  intro id hid
  obtain ⟨hrole, hst⟩ := h hid
  refine ⟨hrole, ?_⟩
  rcases hst with h | ⟨hc, ⟨hr, hnot⟩ | ⟨hr, hmem⟩⟩
  · exact .inl h
  · exact .inr ⟨hc, .inl ⟨hr, fun hL => hnot (List.mem_cons_of_mem _ hL)⟩⟩
  · rcases List.mem_cons.mp hmem with rfl | hL
    · exact absurd (hu hid) hc.not_open
    · exact .inr ⟨hc, .inr ⟨hr, hL⟩⟩

theorem ExecRole.settle {req req' : Option Nat} {result result' : Option CachedResult}
    (h : ExecRole p (u :: L) req result) (hreq : req = some u) (hc : p.Closed u) (hu : u ∉ L)
    (hs : req' = none ∨ req' = some u ∧ result'.isSome) : ExecRole p L req' result' := by
  intro id hid
  rcases hs with rfl | ⟨rfl, hr⟩
  · cases hid
  · cases hid
    exact ⟨(h hreq).1, .inr ⟨hc, .inl ⟨hr, hu⟩⟩⟩

theorem SlowRoles.skip {deps : List Dep} (h : SlowRoles p (u :: L) deps)
    (hu : ∀ {j : Nat} {d : Dep}, deps[j]? = some d → d.slowCacheReq = some u → p.Open u) :
    SlowRoles p L deps := by
  refine ⟨fun hj hid => ?_, h.2⟩
  obtain ⟨hrole, hst⟩ := h.1 hj hid
  refine ⟨hrole, ?_⟩
  rcases hst with h | ⟨hc, h | hmem⟩
  · exact .inl h
  · exact .inr ⟨hc, .inl h⟩
  · rcases List.mem_cons.mp hmem with rfl | hL
    · exact absurd (hu hj hid) hc.not_open
    · exact .inr ⟨hc, .inr hL⟩

theorem map_slowReq_of_map_slowView {l l' : List Dep}
    (h : l'.map Dep.slowView = l.map Dep.slowView) : l'.map Dep.slowReq = l.map Dep.slowReq := by
  have := congrArg (List.map fun v : Option Nat × Nat × Option Nat × Bool => (v.2.2.1, v.2.2.2)) h
  simp only [List.map_map, Function.comp_def, Dep.slowView] at this
  exact this

/-- The slow-cache roles depend on the dependencies only through their slow-cache requests. -/
theorem SlowRoles.congr {deps deps' : List Dep} (h : SlowRoles p L deps)
    (hv : deps'.map Dep.slowReq = deps.map Dep.slowReq) : SlowRoles p L deps' := by
  have hat : ∀ {j : Nat} {d' : Dep}, deps'[j]? = some d' →
      ∃ d, deps[j]? = some d ∧ d.slowCacheReq = d'.slowCacheReq ∧
        d.slowCacheComplete = d'.slowCacheComplete := by
    intro j d' hj
    have := congrArg (·[j]?) hv
    simp only [List.getElem?_map, hj, Option.map_some] at this
    cases hd : deps[j]? with
    | none => simp [hd] at this
    | some d =>
      simp only [hd, Option.map_some, Option.some.injEq, Dep.slowReq, Prod.mk.injEq] at this
      exact ⟨d, rfl, this.1.symm, this.2.symm⟩
  refine ⟨fun hj hid => ?_, fun hj hk hidj hidk => ?_⟩
  · obtain ⟨d, hd, hreq, hc⟩ := hat hj
    rw [← hc]
    exact h.1 hd (hreq.trans hid)
  · obtain ⟨dj, hdj, hreqj, -⟩ := hat hj
    obtain ⟨dk, hdk, hreqk, -⟩ := hat hk
    exact h.2 hdj hdk (hreqj.trans hidj) (hreqk.trans hidk)

/-- The pending slow-cache response of the dependency `i` settles its request. -/
theorem SlowRoles.settle {deps : List Dep} {i : Nat} {d d' : Dep} (h : SlowRoles p (u :: L) deps)
    (hd : deps[i]? = some d) (hreq : d.slowCacheReq = some u) (hc : p.Closed u)
    (hs : d'.slowCacheReq = none ∨ d'.slowCacheReq = some u ∧ d'.slowCacheComplete = true) :
    SlowRoles p L (deps.set i d') := by
  have hi : i < deps.length := (List.getElem?_eq_some_iff.mp hd).1
  -- the requests at each index: the one at `i` is gone or settled, the others are as before
  have hat : ∀ {j : Nat} {d₁ : Dep} {id : Nat}, (deps.set i d')[j]? = some d₁ →
      d₁.slowCacheReq = some id →
      j = i ∧ d₁ = d' ∧ id = u ∨ j ≠ i ∧ deps[j]? = some d₁ := by
    intro j d₁ id hj hid
    rw [List.getElem?_set] at hj
    split_ifs at hj with hij
    · subst hij
      cases hj
      rcases hs with hs | hs
      · simp [hs] at hid
      · exact .inl ⟨rfl, rfl, by simpa [hs.1] using hid.symm⟩
    · exact .inr ⟨Ne.symm hij, hj⟩
  refine ⟨fun hj hid => ?_, fun hj hk hidj hidk => ?_⟩
  · rcases hat hj hid with ⟨rfl, rfl, rfl⟩ | ⟨hne, hj'⟩
    · rcases hs with hs | hs
      · simp [hs] at hid
      · exact ⟨(h.1 hd hreq).1, .inr ⟨hc, .inl hs.2⟩⟩
    · obtain ⟨hrole, hst⟩ := h.1 hj' hid
      refine ⟨hrole, ?_⟩
      rcases hst with h' | ⟨hc', h' | hmem⟩
      · exact .inl h'
      · exact .inr ⟨hc', .inl h'⟩
      · rcases List.mem_cons.mp hmem with rfl | hL
        · exact absurd (h.2 hj' hd hid hreq) hne
        · exact .inr ⟨hc', .inr hL⟩
  · rcases hat hj hidj with ⟨rfl, rfl, rfl⟩ | ⟨hnej, hj'⟩ <;>
      rcases hat hk hidk with ⟨rfl, rfl, hid⟩ | ⟨hnek, hk'⟩
    · rfl
    · exact absurd (h.2 hk' hd hidk hreq) hnek
    · exact absurd (h.2 hj' hd hidj (hreq.trans (congrArg some hid.symm))) hnej
    · exact h.2 hj' hk' hidj hidk

/-- A cache-map response settles the cache-map request. -/
theorem processCacheMapUpdate_settles {e : Edge} {st : Status} (hreq : e.cacheMapReq = some u)
    (hfit : st.err.isSome ∨ ∃ r, st.value = .cacheMap r) :
    (processCacheMapUpdate cm e st).cacheMapReq = none ∨
      (processCacheMapUpdate cm e st).cacheMapReq = some u ∧
        (processCacheMapUpdate cm e st).cacheMapDone = true ∧
        (processCacheMapUpdate cm e st).cacheMap.isSome = true := by
  unfold processCacheMapUpdate
  split
  · exact .inl rfl
  · next herr =>
    obtain ⟨r, hr⟩ := hfit.resolve_left (by simp [herr])
    simp only [hr]
    rw [processCacheMap_eq]
    cases r.complete <;> simp [hreq]

/-- A response with a result, or an error, settles the execution request. -/
theorem processExecUpdate_settles {e : Edge} {st : Status} (hreq : e.execReq = some u)
    (hfit : st.err.isSome ∨ ∃ r, st.value = .result r) :
    (processExecUpdate e st).execReq = none ∨
      (processExecUpdate e st).execReq = some u ∧ (processExecUpdate e st).result.isSome := by
  unfold processExecUpdate
  split
  · exact .inl rfl
  · next herr =>
    obtain ⟨r, hr⟩ := hfit.resolve_left (by simp [herr])
    simp [hr, hreq]

variable {e : Edge} {st : Status}

/-- An update that is none of the edge's requests still to be settled. -/
theorem Roles.skip (hr : e.Roles p (u :: L)) (hcm : e.cacheMapReq = some u → p.Open u)
    (hex : e.execReq = some u → p.Open u)
    (hsl : ∀ d ∈ e.depList, d.slowCacheReq = some u → p.Open u) : e.Roles p L :=
  ⟨CacheMapRole.skip hr.cacheMap hcm, ExecRole.skip hr.exec hex,
    hr.slow.skip fun hj => hsl _ (List.mem_of_getElem? hj), hr.input⟩

theorem Roles.cacheMapUpdate (hr : e.Roles p (u :: L)) (hc : p.Closed u) (hu : u ∉ L)
    (hreq : e.cacheMapReq = some u) (hfit : st.err.isSome ∨ ∃ r, st.value = .cacheMap r)
    (hex : e.execReq ≠ some u) (hsl : ∀ d ∈ e.depList, d.slowCacheReq ≠ some u) :
    (processCacheMapUpdate cm e st).Roles p L := by
  obtain ⟨hx, hres⟩ := processCacheMapUpdate_exec cm e st
  refine ⟨CacheMapRole.settle hr.cacheMap hreq hc hu (processCacheMapUpdate_settles cm hreq hfit),
    ?_, ?_, ?_⟩
  · rw [hx, hres]
    exact ExecRole.skip hr.exec fun h => absurd h hex
  · refine SlowRoles.congr ?_ (map_slowReq_of_map_slowView (processCacheMapUpdate_slowView cm e st))
    exact hr.slow.skip fun hj h => absurd h (hsl _ (List.mem_of_getElem? hj))
  · rw [(updateFrame_processCacheMapUpdate cm e st).depRequests]
    exact hr.input

theorem Roles.execUpdate (hr : e.Roles p (u :: L)) (hc : p.Closed u) (hu : u ∉ L)
    (hreq : e.execReq = some u) (hfit : st.err.isSome ∨ ∃ r, st.value = .result r)
    (hcm : e.cacheMapReq ≠ some u) (hsl : ∀ d ∈ e.depList, d.slowCacheReq ≠ some u) :
    (processExecUpdate e st).Roles p L := by
  have heq := processExecUpdate_eq e st
  refine ⟨?_, ExecRole.settle hr.exec hreq hc hu (processExecUpdate_settles hreq hfit), ?_, ?_⟩
  · rw [heq]
    exact CacheMapRole.skip hr.cacheMap fun h => absurd h hcm
  · rw [heq]
    exact hr.slow.skip fun hj h => absurd h (hsl _ (List.mem_of_getElem? hj))
  · rw [heq]
    exact hr.input

/-- The state of a dependency changes none of the requests. -/
theorem Roles.depUpdate {i : Nat} {d : Dep} (hr : e.Roles p L) (hd : e.depList[i]? = some d) :
    (processDepUpdate cm e i d st).1.Roles p L := by
  obtain ⟨d', hdeps, hview, -⟩ := processDepUpdate_deps cm e i d st
  have heq := eq_of_dropDeps (processDepUpdate_dropDeps cm e i d st)
  refine ⟨?_, ?_, hr.slow.congr ?_, ?_⟩
  · rw [heq]
    exact hr.cacheMap
  · rw [heq]
    exact hr.exec
  · rw [depList_of_deps hdeps]
    refine List.map_set_of_getElem? hd ?_
    simp only [Dep.slowReq, Dep.slowView, Prod.mk.injEq] at hview ⊢
    exact ⟨hview.2.2.1, hview.2.2.2⟩
  · rw [heq]
    exact hr.input

theorem Roles.slowCacheUpdate {i : Nat} {d : Dep} (hr : e.Roles p (u :: L)) (hc : p.Closed u)
    (hd : e.depList[i]? = some d) (hreq : d.slowCacheReq = some u)
    (hcm : e.cacheMapReq ≠ some u) (hex : e.execReq ≠ some u) :
    (processSlowCache fromBytes cm e i d st).Roles p L := by
  obtain ⟨d', hdeps, -, -, -, herr, hok⟩ := processSlowCache_deps fromBytes cm e i d st hd
  have heq := eq_of_dropDeps (processSlowCache_dropDeps fromBytes cm e i d st)
  refine ⟨?_, ?_, ?_, ?_⟩
  · rw [heq]
    exact CacheMapRole.skip hr.cacheMap fun h => absurd h hcm
  · rw [heq]
    exact ExecRole.skip hr.exec fun h => absurd h hex
  · rw [depList_of_deps hdeps]
    refine hr.slow.settle hd hreq hc ?_
    -- a failed slow-cache request is dropped; a digest completes the slow cache
    cases h : st.err with
    | some _ => exact .inl (herr (by simp [h]))
    | none => exact .inr ⟨(hok h).1.trans hreq, (hok h).2⟩
  · rw [heq]
    exact hr.input

/-- Processing a received update takes it off the pending ones: the role of its pipe decides
what `processUpdate` does with it, and a response that fits the role settles it. -/
theorem Roles.update {o : Outgoing} (hr : e.Roles p (u :: L))
    (hn : (p.outgoing.map (·.id)).Nodup) (ho : o ∈ p.outgoing) (hid : o.id = u)
    (hfit : o.kind.Fits o.status) (hu : u ∉ L) :
    (processUpdate fromBytes cm e u (p.statusOf u)).1.Roles p L := by
  have hst : p.statusOf u = o.status := hid ▸ Pipes.statusOf_of_mem hn ho
  -- whatever the edge keeps under `u` has the role of the pipe `o`
  have hrole : ∀ {r}, p.HasRole u r → o.kind.role = r := fun h => h o ho hid
  have hcm : o.kind.role ≠ .cacheMap → e.cacheMapReq ≠ some u :=
    fun hne h => hne (hrole (hr.cacheMap h).1)
  have hex : o.kind.role ≠ .exec → e.execReq ≠ some u := fun hne h => hne (hrole (hr.exec h).1)
  have hsl : o.kind.role ≠ .slowCache → ∀ d ∈ e.depList, d.slowCacheReq ≠ some u := by
    intro hne d hd h
    obtain ⟨j, hj⟩ := List.mem_iff_getElem?.mp hd
    exact hne (hrole (hr.slow.1 hj h).1)
  have hin : o.kind.role ≠ .input → u ∉ e.depRequests := fun hne h => hne (hrole (hr.input h))
  have hskip : o.kind.role ≠ .cacheMap → o.kind.role ≠ .exec → o.kind.role ≠ .slowCache →
      e.Roles p L := fun h₁ h₂ h₃ =>
    hr.skip (fun h => absurd h (hcm h₁)) (fun h => absurd h (hex h₂))
      fun d hd h => absurd h (hsl h₃ d hd)
  -- a completed pipe is the only one with its identity
  have hclosed : o.status.completed = true → p.Closed u := fun h =>
    (Pipes.completed_eq_true_iff hn).mp (hid ▸ (Pipes.completed_of_mem hn ho).trans h)
  rw [hst]
  cases hk : o.kind.role
  case cacheMap =>
    obtain ⟨hcomp, hf⟩ := hfit.cacheMap hk
    rw [processUpdate_of_cacheMap fromBytes cm (hex (by simp [hk])) (hin (by simp [hk]))
      (hsl (by simp [hk]))]
    by_cases hreq : e.cacheMapReq = some u
    · rw [if_pos ⟨hreq, hcomp⟩]
      exact hr.cacheMapUpdate cm (hclosed hcomp) hu hreq hf (hex (by simp [hk]))
        (hsl (by simp [hk]))
    · rw [if_neg fun h => hreq h.1]
      exact hr.skip (fun h => absurd h hreq) (fun h => absurd h (hex (by simp [hk])))
        fun d hd h => absurd h (hsl (by simp [hk]) d hd)
  case exec =>
    obtain ⟨hcomp, hf⟩ := hfit.exec hk
    rw [processUpdate_of_exec fromBytes cm (hcm (by simp [hk])) (hin (by simp [hk]))
      (hsl (by simp [hk]))]
    by_cases hreq : e.execReq = some u
    · rw [if_pos ⟨hreq, hcomp⟩]
      exact hr.execUpdate (hclosed hcomp) hu hreq hf (hcm (by simp [hk])) (hsl (by simp [hk]))
    · rw [if_neg fun h => hreq h.1]
      exact hr.skip (fun h => absurd h (hcm (by simp [hk]))) (fun h => absurd h hreq)
        fun d hd h => absurd h (hsl (by simp [hk]) d hd)
  case slowCache =>
    obtain ⟨hcomp, -⟩ := hfit.slowCache hk
    rw [processUpdate_of_slowCache fromBytes cm (hcm (by simp [hk])) (hex (by simp [hk]))
      (hin (by simp [hk]))]
    split
    · next i hi =>
      obtain ⟨hlt, hreq, -⟩ := List.findIdx?_eq_some_iff_getElem.mp hi
      have hd : e.depList[i]? = some e.depList[i] := List.getElem?_eq_getElem hlt
      simp only [hd, hcomp, if_true]
      exact hr.slowCacheUpdate fromBytes cm (hclosed hcomp) hd (by simpa using hreq)
        (hcm (by simp [hk])) (hex (by simp [hk]))
    · next hnone =>
      refine hr.skip (fun h => absurd h (hcm (by simp [hk])))
        (fun h => absurd h (hex (by simp [hk]))) fun d hd h => ?_
      have := List.findIdx?_eq_none_iff.mp hnone d hd
      simp [h] at this
  case input =>
    have hL := hskip (by simp [hk]) (by simp [hk]) (by simp [hk])
    rw [processUpdate_of_input fromBytes cm (hcm (by simp [hk])) (hex (by simp [hk]))
      (hsl (by simp [hk]))]
    split
    · split
      · exact hL.depUpdate cm ‹_›
      · exact hL
    · exact hL
  case none =>
    rw [processUpdate_of_cacheMap fromBytes cm (hex (by simp [hk])) (hin (by simp [hk]))
      (hsl (by simp [hk])), if_neg fun h => hcm (by simp [hk]) h.1]
    exact hskip (by simp [hk]) (by simp [hk]) (by simp [hk])

end step

end Edge

end Buildkit
