import Buildkit.Solver.Edge.Roles

/-!
# The requests `unpark` makes

`requestMore` and its helpers only append outgoing requests, with the next identities, and
cancel others; `Pipes.Grows` says so, and every fact about a pipe that was there before carries
over. On the edge they set request identities and nothing else: `dropReqs` is the edge without
them. `ReqInv` is what the requests keep true: every identity the edge keeps names a pipe of its
role, and identities are fresh.
-/

namespace Buildkit

namespace Pipes

variable {p p' p'' : Pipes} {id : Nat}

/-- `p'` is `p` with some outgoing requests canceled and new ones appended: the new ones take
the next identities in order, and nothing was received on them or sent to them. -/
structure Grows (p p' : Pipes) : Prop where
  incoming : p'.incoming = p.incoming
  nextID : p.nextID ≤ p'.nextID
  outgoing : ∃ new : List Outgoing, p'.outgoing.map view = p.outgoing.map view ++ new.map view ∧
    new.map (·.id) = List.range' p.nextID (p'.nextID - p.nextID) ∧
    ∀ o ∈ new, o.status = .initial ∧ o.sent = none

theorem Grows.refl (p : Pipes) : p.Grows p := ⟨rfl, le_rfl, [], by simp, by simp, by simp⟩

theorem Grows.trans (h₁ : p.Grows p') (h₂ : p'.Grows p'') : p.Grows p'' := by
  obtain ⟨n₁, hv₁, hid₁, hs₁⟩ := h₁.outgoing
  obtain ⟨n₂, hv₂, hid₂, hs₂⟩ := h₂.outgoing
  have hn₁ := h₁.nextID
  have hn₂ := h₂.nextID
  refine ⟨h₂.incoming.trans h₁.incoming, hn₁.trans hn₂, n₁ ++ n₂, by simp [hv₂, hv₁], ?_, ?_⟩
  · obtain ⟨a, ha⟩ := Nat.exists_eq_add_of_le hn₁
    obtain ⟨b, hb⟩ := Nat.exists_eq_add_of_le hn₂
    rw [List.map_append, hid₁, hid₂, hb, ha]
    simp only [Nat.add_sub_cancel_left, Nat.add_assoc, List.range'_append_1]
    congr 1
    omega
  · intro o ho
    rcases List.mem_append.mp ho with h | h
    · exact hs₁ o h
    · exact hs₂ o h

theorem grows_newRequest (p : Pipes) (k : OutKind) : p.Grows (p.newRequest k).1 :=
  ⟨rfl, by simp, [p.fresh k], by simp, by simp [fresh], by simp [fresh]⟩

/-- The outgoing requests grow alike whatever the incoming ones are. -/
theorem Grows.setIncoming (h : p.Grows p') (inc : List Incoming) :
    ({ p with incoming := inc } : Pipes).Grows { p' with incoming := inc } :=
  ⟨rfl, h.nextID, h.outgoing⟩

theorem with_incoming_eq {inc : List Incoming} (h : p.incoming = inc) :
    ({ p with incoming := inc } : Pipes) = p := by
  subst h
  rfl

theorem grows_cancel (p : Pipes) (r : Nat) : p.Grows (p.cancel r) :=
  ⟨rfl, le_rfl, [], by simp [map_view_cancel], by simp, by simp⟩

theorem grows_foldl_cancel (p : Pipes) (rs : List Nat) : p.Grows (rs.foldl Pipes.cancel p) := by
  induction rs generalizing p with
  | nil => exact .refl p
  | cons r rs ih => exact (grows_cancel p r).trans (ih _)

/-- A pipe of the grown pipes is an old one, or a new one after every old identity. -/
theorem Grows.mem (h : p.Grows p') {o' : Outgoing} (ho' : o' ∈ p'.outgoing) :
    (∃ o ∈ p.outgoing, view o = view o') ∨
      p.nextID ≤ o'.id ∧ o'.id < p'.nextID ∧ o'.status = .initial ∧ o'.sent = none := by
  obtain ⟨new, hv, hid, hs⟩ := h.outgoing
  have hmem : view o' ∈ p'.outgoing.map view := List.mem_map_of_mem ho'
  rw [hv, List.mem_append] at hmem
  rcases hmem with hm | hm
  · obtain ⟨o, ho, he⟩ := List.mem_map.mp hm
    exact .inl ⟨o, ho, he⟩
  · obtain ⟨n, hn, he⟩ := List.mem_map.mp hm
    have hnid : n.id ∈ new.map (·.id) := List.mem_map_of_mem hn
    rw [hid, List.mem_range'_1] at hnid
    simp only [view, Prod.mk.injEq] at he
    obtain ⟨hst, hsent⟩ := hs n hn
    exact .inr ⟨by omega, by omega, he.2.2.1 ▸ hst, he.2.2.2 ▸ hsent⟩

theorem Grows.mem_old (h : p.Grows p') {o : Outgoing} (ho : o ∈ p.outgoing) :
    ∃ o' ∈ p'.outgoing, view o' = view o := by
  obtain ⟨new, hv, -⟩ := h.outgoing
  have hmem : view o ∈ p'.outgoing.map view := by
    rw [hv]
    exact List.mem_append_left _ (List.mem_map_of_mem ho)
  obtain ⟨o', ho', he⟩ := List.mem_map.mp hmem
  exact ⟨o', ho', he⟩

theorem Grows.open (h : p.Grows p') (ho : p.Open id) : p'.Open id := by
  obtain ⟨o, ho, rfl, hc⟩ := ho
  obtain ⟨o', ho', he⟩ := h.mem_old ho
  simp only [view, Prod.mk.injEq] at he
  exact ⟨o', ho', he.1, he.2.2.1 ▸ hc⟩

/-- An identity below the old `nextID` has only old pipes. -/
theorem Grows.of_lt (h : p.Grows p') {o' : Outgoing} (ho' : o' ∈ p'.outgoing)
    (hid : o'.id < p.nextID) : ∃ o ∈ p.outgoing, view o = view o' := by
  rcases h.mem ho' with h | h
  · exact h
  · omega

/-- Pipes that end with every request completed started so. -/
theorem Grows.allClosed (h : p.Grows p') (hc : ∀ o ∈ p'.outgoing, o.status.completed = true) :
    ∀ o ∈ p.outgoing, o.status.completed = true := by
  intro o ho
  obtain ⟨o', ho', he⟩ := h.mem_old ho
  simp only [view, Prod.mk.injEq] at he
  exact he.2.2.1 ▸ hc o' ho'

theorem Grows.lt (h : p.Grows p') (hlt : ∀ o ∈ p.outgoing, o.id < p.nextID) :
    ∀ o ∈ p'.outgoing, o.id < p'.nextID := by
  intro o' ho'
  rcases h.mem ho' with ⟨o, ho, he⟩ | ⟨-, hlt', -⟩
  · simp only [view, Prod.mk.injEq] at he
    exact he.1 ▸ lt_of_lt_of_le (hlt o ho) h.nextID
  · exact hlt'

theorem Grows.nodup (h : p.Grows p') (hn : (p.outgoing.map (·.id)).Nodup)
    (hlt : ∀ o ∈ p.outgoing, o.id < p.nextID) : (p'.outgoing.map (·.id)).Nodup := by
  obtain ⟨new, hv, hid, -⟩ := h.outgoing
  have hids : p'.outgoing.map (·.id) = p.outgoing.map (·.id) ++ new.map (·.id) := by
    have := congrArg (List.map Prod.fst) hv
    simpa [List.map_map, Function.comp_def] using this
  rw [hids, List.nodup_append, hid]
  refine ⟨hn, List.nodup_range' 1 (by omega), ?_⟩
  intro a ha b hb hab
  obtain ⟨o, ho, rfl⟩ := List.mem_map.mp ha
  rw [List.mem_range'_1] at hb
  have := hlt o ho
  omega

/-- What was sent on a pipe fits its request, for every pipe of the grown pipes. -/
theorem Grows.sentFits (h : p.Grows p') (hs : ∀ o ∈ p.outgoing, ∀ s ∈ o.sent, o.kind.Fits s) :
    ∀ o ∈ p'.outgoing, ∀ s ∈ o.sent, o.kind.Fits s := by
  intro o' ho' s hs'
  rcases h.mem ho' with ⟨o, ho, he⟩ | ⟨-, -, -, hsent⟩
  · simp only [view, Prod.mk.injEq] at he
    rw [← he.2.1]
    exact hs o ho s (he.2.2.2 ▸ hs')
  · simp [hsent] at hs'

/-- The pipes `p'` keep what the roles read of the requests of `p` below `n`: each request of
`p'` below `n` has the identity, role and completion of one of `p`, and an open identity of `p`
below `n` stays open. -/
structure Keeps (n : Nat) (p p' : Pipes) : Prop where
  old : ∀ o' ∈ p'.outgoing, o'.id < n → ∃ o ∈ p.outgoing,
    o.id = o'.id ∧ o.kind.role = o'.kind.role ∧ o.status.completed = o'.status.completed
  stillOpen : ∀ {id}, id < n → p.Open id → p'.Open id

theorem Keeps.closed {n : Nat} (h : p.Keeps n p') (hc : p.Closed id) (hid : id < n) :
    p'.Closed id := by
  intro o' ho' hid'
  obtain ⟨o, ho, he, -, hcmp⟩ := h.old o' ho' (hid' ▸ hid)
  rw [← hcmp]
  exact hc o ho (he.trans hid')

theorem Keeps.hasRole {n : Nat} (h : p.Keeps n p') {r : Role} (hr : p.HasRole id r)
    (hid : id < n) : p'.HasRole id r := by
  intro o' ho' hid'
  obtain ⟨o, ho, he, hrole, -⟩ := h.old o' ho' (hid' ▸ hid)
  rw [← hrole]
  exact hr o ho (he.trans hid')

theorem Grows.keeps (h : p.Grows p') : p.Keeps p.nextID p' := by
  refine ⟨fun o' ho' hid => ?_, fun _ ho => h.open ho⟩
  obtain ⟨o, ho, he⟩ := h.of_lt ho' hid
  simp only [view, Prod.mk.injEq] at he
  exact ⟨o, ho, he.1, by rw [he.2.1], by rw [he.2.2.1]⟩

theorem open_newRequest (p : Pipes) (k : OutKind) : (p.newRequest k).1.Open p.nextID :=
  ⟨p.fresh k, by simp, rfl, rfl⟩

theorem hasRole_newRequest (p : Pipes) (k : OutKind) (hlt : ∀ o ∈ p.outgoing, o.id < p.nextID) :
    (p.newRequest k).1.HasRole p.nextID k.role := by
  intro o ho hid
  rcases List.mem_append.mp ho with ho | ho
  · exact absurd hid (Nat.ne_of_lt (hlt o ho))
  · rw [List.mem_singleton.mp ho]

end Pipes

/-- A dependency without its requests. -/
def Dep.dropReqs (d : Dep) : Dep := { d with req := none, slowCacheReq := none }

namespace Edge

variable {e e' e'' : Edge} {p p' p'' : Pipes} {L : List Nat}

/-! ## Fresh identities and the roles on grown pipes -/

/-- The edge without its request identities and its dependencies. -/
def dropReqs (e : Edge) : Edge :=
  { e with cacheMapReq := none, execReq := none, depRequests := ∅, deps := none }

/-- Every identity the edge keeps is below `n`. -/
structure KeptBelow (e : Edge) (n : Nat) : Prop where
  cacheMap : ∀ {id}, e.cacheMapReq = some id → id < n
  exec : ∀ {id}, e.execReq = some id → id < n
  slow : ∀ {d : Dep} {id}, d ∈ e.depList → d.slowCacheReq = some id → id < n
  input : ∀ {id}, id ∈ e.depRequests → id < n

theorem KeptBelow.mono {n m : Nat} (h : e.KeptBelow n) (hn : n ≤ m) : e.KeptBelow m :=
  ⟨fun h' => lt_of_lt_of_le (h.cacheMap h') hn, fun h' => lt_of_lt_of_le (h.exec h') hn,
    fun hd h' => lt_of_lt_of_le (h.slow hd h') hn, fun h' => lt_of_lt_of_le (h.input h') hn⟩

theorem CacheMapRole.keeps {req : Option Nat} {done known : Bool} {n : Nat}
    (h : CacheMapRole p L req done known) (hlt : ∀ {id}, req = some id → id < n)
    (hp : p.Keeps n p') : CacheMapRole p' L req done known := by
  intro id hid
  obtain ⟨hr, hst⟩ := h hid
  refine ⟨hp.hasRole hr (hlt hid), ?_⟩
  rcases hst with ⟨ho, hd⟩ | ⟨hc, hrest⟩
  · exact .inl ⟨hp.stillOpen (hlt hid) ho, hd⟩
  · exact .inr ⟨hp.closed hc (hlt hid), hrest⟩

theorem ExecRole.keeps {req : Option Nat} {result : Option CachedResult} {n : Nat}
    (h : ExecRole p L req result) (hlt : ∀ {id}, req = some id → id < n)
    (hp : p.Keeps n p') : ExecRole p' L req result := by
  intro id hid
  obtain ⟨hr, hst⟩ := h hid
  refine ⟨hp.hasRole hr (hlt hid), ?_⟩
  rcases hst with ⟨ho, hd⟩ | ⟨hc, hrest⟩
  · exact .inl ⟨hp.stillOpen (hlt hid) ho, hd⟩
  · exact .inr ⟨hp.closed hc (hlt hid), hrest⟩

theorem SlowRoles.keeps {deps : List Dep} {n : Nat} (h : SlowRoles p L deps)
    (hlt : ∀ {d : Dep} {id}, d ∈ deps → d.slowCacheReq = some id → id < n)
    (hp : p.Keeps n p') : SlowRoles p' L deps := by
  refine ⟨fun hj hid => ?_, h.2⟩
  obtain ⟨hr, hst⟩ := h.1 hj hid
  have hl := hlt (List.mem_of_getElem? hj) hid
  refine ⟨hp.hasRole hr hl, ?_⟩
  rcases hst with ho | ⟨hc, hrest⟩
  · exact .inl (hp.stillOpen hl ho)
  · exact .inr ⟨hp.closed hc hl, hrest⟩

theorem InputRoles.keeps {reqs : AList (fun _ : Nat => Nat)} {n : Nat} (h : InputRoles p reqs)
    (hlt : ∀ {id}, id ∈ reqs → id < n) (hp : p.Keeps n p') : InputRoles p' reqs :=
  fun hid => hp.hasRole (h hid) (hlt hid)

/-- The roles read only the identities, roles and completions of the requests the edge keeps. -/
theorem Roles.keeps {n : Nat} (h : e.Roles p L) (hk : e.KeptBelow n) (hp : p.Keeps n p') :
    e.Roles p' L :=
  ⟨CacheMapRole.keeps h.cacheMap hk.cacheMap hp, ExecRole.keeps h.exec hk.exec hp,
    SlowRoles.keeps h.slow hk.slow hp, InputRoles.keeps h.input hk.input hp⟩

theorem Roles.grows (h : e.Roles p L) (hk : e.KeptBelow p.nextID) (hg : p.Grows p') :
    e.Roles p' L :=
  h.keeps hk hg.keeps

/-- A new slow-cache request for the dependency `i`, which had none. -/
theorem SlowRoles.setFresh {deps : List Dep} {i n : Nat} {d d' : Dep} (h : SlowRoles p L deps)
    (hd : deps[i]? = some d)
    (hfresh : ∀ {d₁ : Dep} {id}, d₁ ∈ deps → d₁.slowCacheReq = some id → id < n)
    (hreq : d'.slowCacheReq = some n) (hr : p.HasRole n .slowCache) (ho : p.Open n) :
    SlowRoles p L (deps.set i d') := by
  -- the request at `i` is the new one; every other is an old one, below `n`
  have hat : ∀ {j : Nat} {d₁ : Dep} {id : Nat}, (deps.set i d')[j]? = some d₁ →
      d₁.slowCacheReq = some id → j = i ∧ id = n ∨ j ≠ i ∧ deps[j]? = some d₁ ∧ id < n := by
    intro j d₁ id hj hid
    rw [List.getElem?_set] at hj
    split_ifs at hj with hij
    · cases hj
      exact .inl ⟨hij.symm, by simpa [hreq] using hid.symm⟩
    · exact .inr ⟨Ne.symm hij, hj, hfresh (List.mem_of_getElem? hj) hid⟩
  refine ⟨fun hj hid => ?_, fun hj hk hidj hidk => ?_⟩
  · rcases hat hj hid with ⟨-, rfl⟩ | ⟨-, hj', -⟩
    · exact ⟨hr, .inl ho⟩
    · exact h.1 hj' hid
  · rcases hat hj hidj with ⟨rfl, rfl⟩ | ⟨hnej, hj', hlt⟩ <;>
      rcases hat hk hidk with ⟨rfl, hid⟩ | ⟨hnek, hk', hlt'⟩
    · rfl
    · omega
    · omega
    · exact h.2 hj' hk' hidj hidk

/-- The requests of the edge on its pipes, between updates: every kept identity names a pipe of
its role, and is below the next identity, like every pipe's. -/
structure ReqInv (e : Edge) (p : Pipes) : Prop where
  roles : e.Roles p []
  kept : e.KeptBelow p.nextID
  ids : ∀ o ∈ p.outgoing, o.id < p.nextID

theorem ReqInv.grows (h : e.ReqInv p) (hg : p.Grows p') : e.ReqInv p' :=
  ⟨h.roles.grows h.kept hg, h.kept.mono hg.nextID, hg.lt h.ids⟩

/-- A new request keeps its role and stays open while the pipes grow. -/
theorem ReqInv.fresh (h : e.ReqInv p) (k : OutKind) (hg : (p.newRequest k).1.Grows p') :
    p'.HasRole p.nextID k.role ∧ p'.Open p.nextID :=
  ⟨hg.keeps.hasRole (Pipes.hasRole_newRequest p k h.ids) (by simp), hg.open (Pipes.open_newRequest p k)⟩

/-! ## One step of the requests -/

/-- What a request function does: the pipes grow, and the edge changes only in its request
identities and the requests of its dependencies. The cache-map and execution requests are only
set, when none was there, and then under the conditions of `requestCacheMap` and
`execIfPossible`; before the cache map, no dependency gets keys found or a slow-cache request;
the invariant of the requests carries over. -/
structure ReqStep (e : Edge) (p : Pipes) (e' : Edge) (p' : Pipes) : Prop where
  grows : p.Grows p'
  drop : e'.dropReqs = e.dropReqs
  deps : ∀ {ds}, e.deps = some ds →
    ∃ ds', e'.deps = some ds' ∧ ds'.map Dep.dropReqs = ds.map Dep.dropReqs
  cacheMapReq : e'.cacheMapReq = e.cacheMapReq ∨
    e.cacheMapReq = none ∧ (e.cacheMap = none ∨ e.cacheRecords.keys = [])
  execReq : e'.execReq = e.execReq ∨
    e.execReq = none ∧ (e.cacheRecords.keys ≠ [] ∨ e.allDepsCompleted = true)
  noCacheDeps : e.cacheMap = none → (∀ d ∈ e.depList, d.keyMap.keys = [] ∧ d.slowCacheReq = none) →
    ∀ d ∈ e'.depList, d.keyMap.keys = [] ∧ d.slowCacheReq = none
  inv : e.ReqInv p → e'.ReqInv p'

theorem ReqStep.refl (e : Edge) (p : Pipes) : ReqStep e p e p :=
  ⟨.refl p, rfl, fun h => ⟨_, h, rfl⟩, .inl rfl, .inl rfl, fun _ h => h, id⟩

theorem ReqStep.of_grows (hg : p.Grows p') : ReqStep e p e p' :=
  ⟨hg, rfl, fun h => ⟨_, h, rfl⟩, .inl rfl, .inl rfl, fun _ h => h, fun h => h.grows hg⟩

theorem ReqStep.trans (h₁ : ReqStep e p e' p') (h₂ : ReqStep e' p' e'' p'') :
    ReqStep e p e'' p'' := by
  have hd : ∀ {α : Type} (f : Edge → α), (∀ e, f e.dropReqs = f e) → f e' = f e :=
    fun f hf => by rw [← hf e', h₁.drop, hf]
  have hmap := hd (·.cacheMap) fun _ => rfl
  have hrec := hd (·.cacheRecords) fun _ => rfl
  have hall := hd (·.allDepsCompleted) fun _ => rfl
  refine ⟨h₁.grows.trans h₂.grows, h₂.drop.trans h₁.drop, fun hds => ?_, ?_, ?_,
    fun hm hq => h₂.noCacheDeps (hmap.trans hm) (h₁.noCacheDeps hm hq), h₂.inv ∘ h₁.inv⟩
  · obtain ⟨ds', h', hv'⟩ := h₁.deps hds
    obtain ⟨ds'', h'', hv''⟩ := h₂.deps h'
    exact ⟨ds'', h'', hv''.trans hv'⟩
  · rcases h₁.cacheMapReq with h₁c | h₁c <;> rcases h₂.cacheMapReq with h₂c | h₂c
    · exact .inl (h₂c.trans h₁c)
    · exact .inr ⟨h₁c ▸ h₂c.1, by simpa [hmap, hrec] using h₂c.2⟩
    · exact .inr h₁c
    · exact .inr h₁c
  · rcases h₁.execReq with h₁x | h₁x <;> rcases h₂.execReq with h₂x | h₂x
    · exact .inl (h₂x.trans h₁x)
    · exact .inr ⟨h₁x ▸ h₂x.1, by simpa [hrec, hall] using h₂x.2⟩
    · exact .inr h₁x
    · exact .inr h₁x

/-! ## The request functions -/

theorem setDep_self {i : Nat} {d : Dep} (hd : e.depList[i]? = some d) : e.setDep i d = e := by
  simp only [setDep, deps_map_set_self hd]

theorem setDep_setDep (e : Edge) (i : Nat) (a b : Dep) : (e.setDep i a).setDep i b = e.setDep i b := by
  simp [setDep, Option.map_map, Function.comp_def]

theorem reqStep_requestCacheMap (hdone : e.cacheMapDone = true → e.cacheMapReq.isSome) :
    ReqStep e p (e.requestCacheMap p).1 (e.requestCacheMap p).2.1 := by
  unfold requestCacheMap
  split
  · next hc =>
    simp only [Bool.and_eq_true, Option.isNone_iff_eq_none, Bool.or_eq_true,
      List.isEmpty_iff] at hc
    have hg := Pipes.grows_newRequest p (.func (.cacheMap e.cacheMapIndex))
    -- a done cache map keeps its request, so there is none to be done
    have hd : e.cacheMapDone = false := by
      cases hdn : e.cacheMapDone
      · rfl
      · simpa [hc.1] using hdone hdn
    refine ⟨hg, rfl, fun h => ⟨_, h, rfl⟩, .inr hc, .inl rfl, fun _ h => h, fun h => ?_⟩
    have hr := h.roles.grows h.kept hg
    have hk := h.kept.mono hg.nextID
    obtain ⟨hrole, hopen⟩ := h.fresh _ (.refl _)
    refine ⟨⟨fun hid => ?_, hr.exec, hr.slow, hr.input⟩,
      ⟨fun hid => ?_, hk.exec, hk.slow, hk.input⟩, hg.lt h.ids⟩
    · cases hid
      exact ⟨hrole, .inl ⟨hopen, hd⟩⟩
    · cases hid
      simp
  · exact .refl e p

theorem grows_requestCacheMap (e : Edge) (p : Pipes) : p.Grows (e.requestCacheMap p).2.1 := by
  unfold requestCacheMap
  split
  · exact Pipes.grows_newRequest p _
  · exact .refl p

/-- Setting the execution request to a new request of its role. -/
theorem reqStep_setExec {k : OutKind} (hk : k.role = .exec) (hg : (p.newRequest k).1.Grows p')
    (hnone : e.execReq = none) (hres : e.result = none)
    (hwhy : e.cacheRecords.keys ≠ [] ∨ e.allDepsCompleted = true) :
    ReqStep e p { e with execReq := some p.nextID } p' := by
  have hg' := (Pipes.grows_newRequest p k).trans hg
  refine ⟨hg', rfl, fun h => ⟨_, h, rfl⟩, .inl rfl, .inr ⟨hnone, hwhy⟩, fun _ h => h, fun h => ?_⟩
  have hr := h.roles.grows h.kept hg'
  have hk' := h.kept.mono hg'.nextID
  obtain ⟨hrole, hopen⟩ := h.fresh k hg
  have hlt : p.nextID < p'.nextID := by
    have := hg.nextID
    simp only [Pipes.nextID_newRequest] at this
    omega
  refine ⟨⟨hr.cacheMap, fun hid => ?_, hr.slow, hr.input⟩,
    ⟨hk'.cacheMap, fun hid => ?_, hk'.slow, hk'.input⟩, hg'.lt h.ids⟩
  · cases hid
    exact ⟨hk ▸ hrole, .inl ⟨hopen, hres⟩⟩
  · cases hid
    exact hlt

theorem reqStep_execIfPossible (hnone : e.execReq = none) (hres : e.result = none) :
    ReqStep e p (e.execIfPossible p).1 (e.execIfPossible p).2.1 := by
  unfold execIfPossible postpone
  split_ifs with hrec hkdc hall hkdc'
  · exact .of_grows (Pipes.grows_newRequest p _)
  · exact reqStep_setExec rfl (Pipes.grows_foldl_cancel _ _) hnone hres (.inl (by simpa using hrec))
  · exact .of_grows (Pipes.grows_newRequest p _)
  · exact reqStep_setExec rfl (.refl _) hnone hres (.inr hall)
  · exact .refl e p

/-- `execIfPossible` makes no request only when there are no records and not all dependencies
are completed, and then changes nothing. -/
theorem execIfPossible_of_false (h : (e.execIfPossible p).2.2 = false) :
    e.execIfPossible p = (e, p, false) ∧ e.cacheRecords.keys = [] ∧ e.allDepsCompleted = false := by
  unfold execIfPossible at h ⊢
  -- split_ifs closes the branches that make a request against h
  split_ifs at h ⊢ with hrec _ hall
  exact ⟨rfl, by simpa using hrec, by simpa using hall⟩

theorem replaceReq_grows (p : Pipes) (dep : Dep) (des : EdgeStatus) :
    p.Grows (replaceReq p dep des).2 ∧ (replaceReq p dep des).2.nextID = p.nextID := by
  unfold replaceReq
  split
  · split_ifs
    · exact ⟨Pipes.grows_cancel p _, rfl⟩
    · exact ⟨.refl p, rfl⟩
    · exact ⟨.refl p, rfl⟩
  · exact ⟨.refl p, rfl⟩

theorem replaceReq_of_false {dep : Dep} {des : EdgeStatus} (h : (replaceReq p dep des).1 = false) :
    (replaceReq p dep des).2 = p := by
  unfold replaceReq at h ⊢
  cases hr : dep.req with
  | none => simp [hr] at h
  | some r =>
    simp only [hr] at h ⊢
    -- only the branch that keeps the request is left, the others contradict h
    split_ifs at h ⊢
    rfl

/-- `requestDep` adds a request after `replaceReq`, or changes nothing. -/
theorem requestDep_cases (e : Edge) (p : Pipes) (i : Nat) (dep : Dep) (des : EdgeStatus) :
    e.requestDep p i dep des = (e, p, dep, false) ∨
      dep.state < des ∧ (replaceReq p dep des).1 = true ∧
      e.requestDep p i dep des =
        ({ e with depRequests := e.depRequests.insert p.nextID i },
          ((replaceReq p dep des).2.newRequest (.input ⟨des, dep.toEdgeState, dep.keys.length⟩)).1,
          { dep with req := some p.nextID }, true) := by
  unfold requestDep
  dsimp only
  split_ifs with hlt hc
  · refine .inr ⟨hlt, hc, ?_⟩
    rw [Pipes.newRequest_snd, (replaceReq_grows p dep des).2]
  · exact .inl (by rw [replaceReq_of_false (by simpa using hc)])
  · exact .inl rfl

theorem requestDep_fst (e : Edge) (p : Pipes) (i : Nat) (dep : Dep) (des : EdgeStatus) :
    (e.requestDep p i dep des).1 = { e with depRequests := (e.requestDep p i dep des).1.depRequests } := by
  rcases requestDep_cases e p i dep des with h | ⟨-, -, h⟩ <;> rw [h]

/-- A new input request for the dependency `i`, after pipes that grew without new identities. -/
theorem reqStep_addInput {i : Nat} {dep : Dep} {p₀ : Pipes} (hd : e.depList[i]? = some dep)
    (hg₀ : p.Grows p₀) (hn₀ : p₀.nextID = p.nextID) {k : OutKind} (hk : k.role = .input) :
    ReqStep e p ({ e with depRequests := e.depRequests.insert p.nextID i }.setDep i
      { dep with req := some p.nextID }) (p₀.newRequest k).1 := by
  have hg := hg₀.trans (Pipes.grows_newRequest p₀ k)
  refine ⟨hg, rfl, fun {ds} hds => ?_, .inl rfl, .inl rfl, fun _ hq d hd₁ => ?_, fun h => ?_⟩
  · have hd' : ds[i]? = some dep := by simpa [depList, hds] using hd
    exact ⟨ds.set i { dep with req := some p.nextID }, by simp [setDep, hds],
      List.map_set_of_getElem? hd' rfl⟩
  · -- the new request changes only the request of the dependency
    rw [depList_setDep] at hd₁
    rcases List.mem_or_eq_of_mem_set hd₁ with hd₁ | rfl
    · exact hq d hd₁
    · exact hq dep (List.mem_of_getElem? hd)
  have hr := h.roles.grows h.kept hg
  have hk' := h.kept.mono hg.nextID
  have hrole : (p₀.newRequest k).1.HasRole p.nextID .input := by
    have := Pipes.hasRole_newRequest p₀ k (hg₀.lt h.ids)
    rwa [hn₀, hk] at this
  have hlt : p.nextID < (p₀.newRequest k).1.nextID := by simp [hn₀]
  refine ⟨⟨hr.cacheMap, hr.exec, ?_, fun hid => ?_⟩,
    ⟨hk'.cacheMap, hk'.exec, fun hd₁ hid => ?_, fun hid => ?_⟩, hg.lt h.ids⟩
  · rw [depList_setDep]
    exact hr.slow.congr (List.map_set_of_getElem? hd rfl)
  · rcases (AList.mem_insert _).mp hid with rfl | hid
    · exact hrole
    · exact hr.input hid
  · rw [depList_setDep] at hd₁
    rcases List.mem_or_eq_of_mem_set hd₁ with hd₁ | rfl
    · exact hk'.slow hd₁ hid
    · exact hk'.slow (List.mem_of_getElem? hd) hid
  · rcases (AList.mem_insert _).mp hid with rfl | hid
    · exact hlt
    · exact hk'.input hid

theorem reqStep_requestDep {i : Nat} {dep : Dep} (des : EdgeStatus) (hd : e.depList[i]? = some dep) :
    ReqStep e p ((e.requestDep p i dep des).1.setDep i (e.requestDep p i dep des).2.2.1)
      (e.requestDep p i dep des).2.1 := by
  rcases requestDep_cases e p i dep des with h | ⟨-, -, h⟩ <;> rw [h]
  · rw [setDep_self hd]
    exact .refl e p
  · obtain ⟨hg₀, hn₀⟩ := replaceReq_grows p dep des
    exact reqStep_addInput hd hg₀ hn₀ rfl

/-- `requestSlowCache` adds a request for a dependency that has none, or changes nothing. -/
theorem requestSlowCache_cases (e : Edge) (p : Pipes) (dep : Dep) :
    e.requestSlowCache p dep = (p, dep, false) ∨
      dep.slowCacheReq = none ∧
      (dep.state = .complete ∧ e.slowCacheFunc dep = true ∧ e.cacheMap.isSome = true) ∧
      e.requestSlowCache p dep = ((p.newRequest (.func (.calcSlowCache dep.index))).1,
        { dep with slowCacheReq := some p.nextID }, true) := by
  unfold requestSlowCache
  split_ifs with h
  · exact .inr ⟨by simpa using h.2.1, ⟨h.1, h.2.2.1, h.2.2.2⟩, rfl⟩
  · exact .inl rfl

theorem requestSlowCache_congr (h : e'.cacheMap = e.cacheMap) :
    e'.requestSlowCache = e.requestSlowCache := by
  funext p dep
  unfold requestSlowCache slowCacheFunc cacheMapDep
  rw [h]

theorem reqStep_requestSlowCache {i : Nat} {dep : Dep} (hd : e.depList[i]? = some dep) :
    ReqStep e p (e.setDep i (e.requestSlowCache p dep).2.1) (e.requestSlowCache p dep).1 := by
  rcases requestSlowCache_cases e p dep with h | ⟨hnone, ⟨-, -, hm⟩, h⟩ <;> rw [h]
  · rw [setDep_self hd]
    exact .refl e p
  · have hg := Pipes.grows_newRequest p (.func (.calcSlowCache dep.index))
    refine ⟨hg, rfl, fun {ds} hds => ?_, .inl rfl, .inl rfl, fun hm' => by simp [hm'] at hm,
      fun h => ?_⟩
    · have hd' : ds[i]? = some dep := by simpa [depList, hds] using hd
      exact ⟨ds.set i { dep with slowCacheReq := some p.nextID }, by simp [setDep, hds],
        List.map_set_of_getElem? hd' rfl⟩
    have hr := h.roles.grows h.kept hg
    have hk' := h.kept.mono hg.nextID
    obtain ⟨hrole, hopen⟩ := h.fresh _ (.refl _)
    refine ⟨⟨hr.cacheMap, hr.exec, ?_, hr.input⟩,
      ⟨hk'.cacheMap, hk'.exec, fun hd₁ hid => ?_, hk'.input⟩, hg.lt h.ids⟩
    · rw [depList_setDep]
      exact hr.slow.setFresh hd (fun hd₁ hid => h.kept.slow hd₁ hid) rfl hrole hopen
    · rw [depList_setDep] at hd₁
      rcases List.mem_or_eq_of_mem_set hd₁ with hd₁ | rfl
      · exact hk'.slow hd₁ hid
      · cases hid
        simp

theorem reqStep_requestInput (des : EdgeStatus) (force : Bool) (acc : Edge × Pipes × Bool)
    (i : Nat) :
    ReqStep acc.1 acc.2.1 (requestInput des force acc i).1 (requestInput des force acc i).2.1 := by
  unfold requestInput
  split
  · exact .refl _ _
  · next dep hd =>
    dsimp only
    have h₁ := reqStep_requestDep (p := acc.2.1) (acc.1.desiredStateDep des force dep) hd
    have hr := requestDep_fst acc.1 acc.2.1 i dep (acc.1.desiredStateDep des force dep)
    generalize acc.1.requestDep acc.2.1 i dep (acc.1.desiredStateDep des force dep) = r at h₁ hr ⊢
    -- the slow-cache request is made for the dependency with its new request
    have hdl : r.1.depList = acc.1.depList := by
      rw [hr]
      rfl
    have hd' : (r.1.setDep i r.2.2.1).depList[i]? = some r.2.2.1 := by
      rw [depList_setDep, hdl]
      exact List.getElem?_set_self (List.getElem?_eq_some_iff.mp hd).1
    have h₂ := reqStep_requestSlowCache (p := r.2.1) hd'
    rw [requestSlowCache_congr (show (r.1.setDep i r.2.2.1).cacheMap = r.1.cacheMap from rfl),
      setDep_setDep] at h₂
    exact h₁.trans h₂

theorem reqStep_initDeps (e : Edge) (p : Pipes) : ReqStep e p e.initDeps p := by
  unfold initDeps
  split_ifs with h
  · -- new dependencies have no requests yet, and no keys found
    have hnone : ∀ d ∈ (List.range e.edge.inputs).map newDep, d.slowCacheReq = none := by
      simp [newDep]
    refine ⟨.refl p, rfl, fun hds => by simp [hds] at h, .inl rfl, .inl rfl,
      fun _ _ d hd => ?_, fun hi => ?_⟩
    · simp only [depList, Option.getD_some, List.mem_map, List.mem_range] at hd
      obtain ⟨j, -, rfl⟩ := hd
      exact ⟨rfl, rfl⟩
    refine ⟨⟨hi.roles.cacheMap, hi.roles.exec, ⟨fun hj hid => ?_, fun hj _ hid _ => ?_⟩,
      fun hid => by simp at hid⟩, ⟨hi.kept.cacheMap, hi.kept.exec, fun hd hid => ?_,
      fun hid => by simp at hid⟩, hi.ids⟩
    · simp [hnone _ (List.mem_of_getElem? hj)] at hid
    · simp [hnone _ (List.mem_of_getElem? hj)] at hid
    · simp [hnone _ hd] at hid
  · exact .refl e p

theorem reqStep_foldl_requestInput (des : EdgeStatus) (force : Bool) :
    ∀ (is : List Nat) (acc : Edge × Pipes × Bool), ReqStep acc.1 acc.2.1
      (is.foldl (requestInput des force) acc).1 (is.foldl (requestInput des force) acc).2.1
  | [], _ => .refl _ _
  | i :: is, acc =>
    (reqStep_requestInput des force acc i).trans (reqStep_foldl_requestInput des force is _)

theorem reqStep_createInputRequests (e : Edge) (des : EdgeStatus) (p : Pipes) (force : Bool) :
    ReqStep e p (e.createInputRequests des p force).1 (e.createInputRequests des p force).2.1 :=
  (reqStep_initDeps e p).trans (reqStep_foldl_requestInput des force _ (e.initDeps, p, false))

/-- The fields `dropReqs` keeps are kept by every request step. -/
theorem ReqStep.eq_of_drop {α : Type} (h : ReqStep e p e' p') (f : Edge → α)
    (hf : ∀ e, f e.dropReqs = f e) : f e' = f e := by
  rw [← hf e', h.drop, hf]

theorem reqStep_requestExec (e : Edge) (p : Pipes) (des : EdgeStatus)
    (hres : e.result.isSome → e.execReq.isSome) :
    ReqStep e p (e.requestExec p des).1 (e.requestExec p des).2.1 := by
  unfold requestExec
  split_ifs with hx
  · simp only [Bool.and_eq_true, Option.isNone_iff_eq_none] at hx
    -- the execution request is made only when there is none, so there is no result yet
    exact reqStep_execIfPossible hx.1 (by simpa [hx.1] using mt hres)
  · exact .refl e p

theorem reqStep_requestInputs (e : Edge) (p : Pipes) (des : EdgeStatus) (c : Bool) :
    ReqStep e p (e.requestInputs p des c).1 (e.requestInputs p des c).2 := by
  have s₁ := reqStep_createInputRequests e des p false
  unfold requestInputs
  rcases h : e.createInputRequests des p false with ⟨e₁, p₁, a⟩
  rw [h] at s₁
  dsimp only
  split_ifs
  · exact s₁.trans (reqStep_createInputRequests e₁ des p₁ true)
  · exact s₁

theorem reqStep_requestMore (e : Edge) (p : Pipes) (des : EdgeStatus)
    (hdone : e.cacheMapDone = true → e.cacheMapReq.isSome)
    (hres : e.result.isSome → e.execReq.isSome) :
    ReqStep e p (e.requestMore p des).1 (e.requestMore p des).2 := by
  unfold requestMore
  have s₁ := reqStep_requestCacheMap (p := p) hdone
  rcases h₁ : e.requestCacheMap p with ⟨e₁, p₁, c⟩
  rw [h₁] at s₁
  dsimp only
  -- the cache-map request leaves the result and the execution request
  have hres₁ : e₁.result.isSome → e₁.execReq.isSome := by
    rw [s₁.eq_of_drop (·.result) fun _ => rfl]
    intro h
    rcases s₁.execReq with hx | hx
    · exact hx ▸ hres h
    · simp [hx.1] at hres
      simp [hres] at h
  have s₂ := reqStep_requestExec e₁ p₁ des hres₁
  rcases h₂ : e₁.requestExec p₁ des with ⟨e₂, p₂, x⟩
  rw [h₂] at s₂
  dsimp only
  have s₁₂ := s₁.trans s₂
  split_ifs
  · exact s₁₂
  · exact s₁₂.trans (reqStep_requestInputs e₂ p₂ des c)
  · exact s₁₂

end Edge

end Buildkit
