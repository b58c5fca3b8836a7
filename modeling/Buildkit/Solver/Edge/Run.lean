import Buildkit.Solver.Edge.Invariant

/-!
# Runs of one edge in the scheduler

`World.Inv` is what holds of an edge and its pipes between two dispatches: the incoming
requests are open, with distinct identities below `nextID`, and so are the outgoing ones; what
was sent on an outgoing request fits what it asks for; there is an outgoing request only beside
an incoming one; the requests the edge keeps are where `Roles` says; and the data keep
`DataInv` and `BoundsInv`. A dispatch keeps it, and so does every move of the rest of the
scheduler.

Over it, the two rules `dispatch` checks after `unpark` hold in every reachable world
(`unparked_rules`), so that `dispatch` never marks the edge failed, and the edge makes
`Progress` over every run (`run_progress`).
-/

namespace Buildkit

/-! ## Receiving -/

namespace Outgoing

@[simp] theorem receive_id (o : Outgoing) : o.receive.id = o.id := by
  unfold receive
  split <;> rfl

@[simp] theorem receive_kind (o : Outgoing) : o.receive.kind = o.kind := by
  unfold receive
  split <;> rfl

@[simp] theorem receive_sent (o : Outgoing) : o.receive.sent = none := by
  unfold receive
  split <;> simp_all

theorem receive_of_none {o : Outgoing} (h : o.sent = none) : o.receive = o := by
  simp [receive, h]

theorem receive_of_some {o : Outgoing} {st : Status} (h : o.sent = some st) :
    o.receive.status = st := by
  simp [receive, h]

end Outgoing

namespace Pipes

/-- The pipes after every outgoing request received the last status sent on it, as `dispatch`
does first. -/
def receiveAll (p : Pipes) : Pipes := { p with outgoing := p.outgoing.map Outgoing.receive }

/-- The outgoing requests that received something: the updates `dispatch` passes to
`unpark`. -/
def updates (p : Pipes) : List Nat := (p.outgoing.filter (·.sent.isSome)).map (·.id)

variable {p : Pipes} {id : Nat}

@[simp] theorem receiveAll_incoming (p : Pipes) : p.receiveAll.incoming = p.incoming := rfl

@[simp] theorem receiveAll_nextID (p : Pipes) : p.receiveAll.nextID = p.nextID := rfl

theorem map_id_receiveAll (p : Pipes) :
    p.receiveAll.outgoing.map (·.id) = p.outgoing.map (·.id) := by
  simp [receiveAll, Function.comp_def]

theorem mem_updates : id ∈ p.updates ↔ ∃ o ∈ p.outgoing, o.sent.isSome ∧ o.id = id := by
  simp [updates, and_assoc]

/-- An open request stays open unless it received something. -/
theorem Open.receiveAll (h : p.Open id) : p.receiveAll.Open id ∨ id ∈ p.updates := by
  obtain ⟨o, ho, rfl, hc⟩ := h
  cases hs : o.sent with
  | none => exact .inl ⟨o, List.mem_map.mpr ⟨o, ho, Outgoing.receive_of_none hs⟩, rfl, hc⟩
  | some _ => exact .inr (mem_updates.mpr ⟨o, ho, by simp [hs], rfl⟩)

theorem open_or_pending (h : p.Open id) :
    p.receiveAll.Open id ∨ p.receiveAll.Closed id ∧ id ∈ p.updates := by
  rcases h.receiveAll with ho | hu
  · exact .inl ho
  · rcases open_or_closed p.receiveAll id with ho | hc
    · exact .inl ho
    · exact .inr ⟨hc, hu⟩

/-- Between dispatches every outgoing request is open, so a closed identity has no pipe: it
stays closed, and nothing is received on it. -/
theorem Closed.receiveAll (hopen : ∀ o ∈ p.outgoing, o.status.completed = false)
    (h : p.Closed id) : p.receiveAll.Closed id ∧ id ∉ p.updates := by
  have hno : ∀ o ∈ p.outgoing, o.id ≠ id := fun o ho hid => by
    simpa [hopen o ho] using h o ho hid
  refine ⟨fun o' ho' hid => ?_, fun hu => ?_⟩
  · obtain ⟨o, ho, rfl⟩ := List.mem_map.mp ho'
    exact absurd (by simpa using hid) (hno o ho)
  · obtain ⟨o, ho, -, hid⟩ := mem_updates.mp hu
    exact hno o ho hid

theorem HasRole.receiveAll {r : Role} (h : p.HasRole id r) : p.receiveAll.HasRole id r := by
  intro o' ho' hid
  obtain ⟨o, ho, rfl⟩ := List.mem_map.mp ho'
  simpa using h o ho (by simpa using hid)

theorem nodup_updates (hn : (p.outgoing.map (·.id)).Nodup) : p.updates.Nodup :=
  hn.sublist (List.filter_sublist.map _)

/-- Each update comes with the pipe it was received on, whose status fits its request. -/
theorem fits_updates (hs : ∀ o ∈ p.outgoing, ∀ s ∈ o.sent, o.kind.Fits s) :
    ∀ u ∈ p.updates, ∃ o ∈ p.receiveAll.outgoing, o.id = u ∧ o.kind.Fits o.status := by
  intro u hu
  obtain ⟨o, ho, hsome, rfl⟩ := mem_updates.mp hu
  obtain ⟨st, hst⟩ := Option.isSome_iff_exists.mp hsome
  refine ⟨o.receive, List.mem_map_of_mem ho, by simp, ?_⟩
  rw [Outgoing.receive_kind, Outgoing.receive_of_some hst]
  exact hs o ho st hst

/-! ## What the moves keep of the pipes -/

theorem Keeps.of_eq {n : Nat} {p' : Pipes} (h : p'.outgoing = p.outgoing) : p.Keeps n p' := by
  refine ⟨fun o' ho' _ => ⟨o', h ▸ ho', rfl, rfl, rfl⟩, fun _ ho => ?_⟩
  obtain ⟨o, ho, hid, hc⟩ := ho
  exact ⟨o, h ▸ ho, hid, hc⟩

/-- A map of the outgoing requests that keeps their identities, kinds and statuses. -/
theorem Keeps.of_map {n : Nat} {p' : Pipes} {f : Outgoing → Outgoing}
    (h : p'.outgoing = p.outgoing.map f)
    (hf : ∀ o, (f o).id = o.id ∧ (f o).kind = o.kind ∧ (f o).status = o.status) :
    p.Keeps n p' := by
  refine ⟨fun o' ho' _ => ?_, fun _ ho => ?_⟩
  · rw [h] at ho'
    obtain ⟨o, ho, rfl⟩ := List.mem_map.mp ho'
    obtain ⟨hid, hk, hs⟩ := hf o
    exact ⟨o, ho, hid.symm, by rw [hk], by rw [hs]⟩
  · obtain ⟨o, ho, rfl, hc⟩ := ho
    obtain ⟨hid, -, hs⟩ := hf o
    exact ⟨f o, h ▸ List.mem_map_of_mem ho, hid, hs ▸ hc⟩

/-- New requests after every identity below `n`. -/
theorem Keeps.append {n : Nat} {p' : Pipes} {new : List Outgoing}
    (h : p'.outgoing = p.outgoing ++ new) (hnew : ∀ o ∈ new, n ≤ o.id) : p.Keeps n p' := by
  refine ⟨fun o' ho' hlt => ?_, fun _ ho => ?_⟩
  · rw [h, List.mem_append] at ho'
    rcases ho' with ho | ho
    · exact ⟨o', ho, rfl, rfl, rfl⟩
    · exact absurd (hnew o' ho) (Nat.not_le.mpr hlt)
  · obtain ⟨o, ho, hid, hc⟩ := ho
    exact ⟨o, h ▸ List.mem_append_left _ ho, hid, hc⟩

/-- Dropping the completed requests keeps the open ones. -/
theorem Keeps.filter {n : Nat} {p' : Pipes}
    (h : p'.outgoing = p.outgoing.filter (!·.status.completed)) : p.Keeps n p' := by
  refine ⟨fun o' ho' _ => ?_, fun _ ho => ?_⟩
  · rw [h] at ho'
    exact ⟨o', List.mem_of_mem_filter ho', rfl, rfl, rfl⟩
  · obtain ⟨o, ho, hid, hc⟩ := ho
    exact ⟨o, h ▸ List.mem_filter.mpr ⟨ho, by simp [hc]⟩, hid, hc⟩

end Pipes

namespace Edge

variable {p : Pipes} {e : Edge}

section receive

variable (hopen : ∀ o ∈ p.outgoing, o.status.completed = false)

include hopen

theorem CacheMapRole.receiveAll {req : Option Nat} {done known : Bool}
    (h : CacheMapRole p [] req done known) :
    CacheMapRole p.receiveAll p.updates req done known := by
  intro id hid
  obtain ⟨hr, hst⟩ := h hid
  refine ⟨hr.receiveAll, ?_⟩
  rcases hst with ⟨ho, hd⟩ | ⟨hc, ⟨hd, hk, -⟩ | ⟨-, hmem⟩⟩
  · rcases Pipes.open_or_pending ho with ho' | ⟨hc', hu⟩
    · exact .inl ⟨ho', hd⟩
    · exact .inr ⟨hc', .inr ⟨hd, hu⟩⟩
  · obtain ⟨hc', hu⟩ := hc.receiveAll hopen
    exact .inr ⟨hc', .inl ⟨hd, hk, hu⟩⟩
  · cases hmem

theorem ExecRole.receiveAll {req : Option Nat} {result : Option CachedResult}
    (h : ExecRole p [] req result) : ExecRole p.receiveAll p.updates req result := by
  intro id hid
  obtain ⟨hr, hst⟩ := h hid
  refine ⟨hr.receiveAll, ?_⟩
  rcases hst with ⟨ho, hd⟩ | ⟨hc, ⟨hd, -⟩ | ⟨-, hmem⟩⟩
  · rcases Pipes.open_or_pending ho with ho' | ⟨hc', hu⟩
    · exact .inl ⟨ho', hd⟩
    · exact .inr ⟨hc', .inr ⟨hd, hu⟩⟩
  · obtain ⟨hc', hu⟩ := hc.receiveAll hopen
    exact .inr ⟨hc', .inl ⟨hd, hu⟩⟩
  · cases hmem

theorem SlowRoles.receiveAll {deps : List Dep} (h : SlowRoles p [] deps) :
    SlowRoles p.receiveAll p.updates deps := by
  refine ⟨fun hj hid => ?_, h.2⟩
  obtain ⟨hr, hst⟩ := h.1 hj hid
  refine ⟨hr.receiveAll, ?_⟩
  rcases hst with ho | ⟨hc, hd | hmem⟩
  · rcases Pipes.open_or_pending ho with ho' | ⟨hc', hu⟩
    · exact .inl ho'
    · exact .inr ⟨hc', .inr hu⟩
  · exact .inr ⟨(hc.receiveAll hopen).1, .inl hd⟩
  · cases hmem

/-- Receiving makes pending exactly the updates of requests that were open. -/
theorem Roles.receiveAll (h : e.Roles p []) : e.Roles p.receiveAll p.updates :=
  ⟨CacheMapRole.receiveAll hopen h.cacheMap, ExecRole.receiveAll hopen h.exec,
    h.slow.receiveAll hopen, fun hid => (h.input hid).receiveAll⟩

end receive

/-! ## The flags set around `unpark` -/

section flags

variable (a b : Bool)

/-- Nothing the invariants read depends on `hasActiveOutgoing` or `keysDidChange`. -/
theorem DataInv.flags (h : e.DataInv) :
    { e with hasActiveOutgoing := a, keysDidChange := b }.DataInv := by
  obtain ⟨h₁, h₂, h₃, h₄, h₅, h₆, h₇, h₈⟩ := h
  refine ⟨fun hm => ?_, h₂, h₃, h₄, h₅, h₆, h₇, h₈⟩
  obtain ⟨q₁, q₂, q₃, q₄, q₅, q₆, q₇, q₈⟩ := h₁ hm
  exact ⟨q₁, q₂, q₃, q₄, q₅, q₆, q₇, q₈⟩

theorem quiet_flags (e : Edge) : Quiet e { e with hasActiveOutgoing := a, keysDidChange := b } :=
  ⟨rfl, rfl, rfl, rfl, rfl, fun _ => bounds_congr rfl rfl⟩

theorem BoundsInv.flags (h : e.BoundsInv) (hd : e.DataInv) :
    { e with hasActiveOutgoing := a, keysDidChange := b }.BoundsInv :=
  h.quiet (quiet_flags a b e) hd.preCache

theorem Roles.flags {L : List Nat} (h : e.Roles p L) :
    { e with hasActiveOutgoing := a, keysDidChange := b }.Roles p L :=
  ⟨h.cacheMap, h.exec, h.slow, h.input⟩

theorem KeptBelow.flags {n : Nat} (h : e.KeptBelow n) :
    { e with hasActiveOutgoing := a, keysDidChange := b }.KeptBelow n :=
  ⟨h.cacheMap, h.exec, h.slow, h.input⟩

theorem progress_flags (e : Edge) :
    Progress e { e with hasActiveOutgoing := a, keysDidChange := b } :=
  ⟨le_rfl, List.prefix_refl _, fun _ h => h, id, id⟩

end flags

/-! ## `unpark` -/

/-- What `unpark` leaves, from the edge `e` on the pipes `p`: the two rules, the invariants of
the edge, its progress, its requests where `Roles` says, and pipes that grew and had some
incoming requests finished. -/
structure Unparked (e : Edge) (p : Pipes) (e' : Edge) (q : Pipes) : Prop where
  rules : q.UnparkRules
  data : e'.DataInv
  bounds : e'.BoundsInv
  progress : Progress e e'
  reqs : e'.ReqInv q
  grows : p.Grows { q with incoming := p.incoming }
  incoming : ∃ c : Incoming → Bool,
    q.incoming = p.incoming.map fun r => if c r then { r with completed := true } else r

variable (fromBytes : String → Digest) (cm : CacheManager) (ord : IterOrder String)

/-- `unpark` with the pending updates `U` of the pipes `p`, from an edge whose requests are
where `Roles` says and that keeps its invariants, on pipes whose incoming requests are open with
distinct identities and that have an outgoing request only beside an incoming one. -/
theorem unpark_spec {U : List Nat} (hr : e.Roles p U) (hn : (p.outgoing.map (·.id)).Nodup)
    (hU : U.Nodup) (hfit : ∀ u ∈ U, ∃ o ∈ p.outgoing, o.id = u ∧ o.kind.Fits o.status)
    (hkept : e.KeptBelow p.nextID) (hids : ∀ o ∈ p.outgoing, o.id < p.nextID)
    (h : e.DataInv) (hb : e.BoundsInv) (hinc : ∀ r ∈ p.incoming, r.completed = false)
    (hio : p.incoming = [] → p.outgoing = []) (hnd : (p.incoming.map (·.id)).Nodup)
    (hact : e.hasActiveOutgoing = p.outgoing.any (!·.status.completed)) :
    Unparked e p (e.unpark fromBytes cm ord p U).1 (e.unpark fromBytes cm ord p U).2 := by
  obtain ⟨hr₁, hs₁, hf₁, hq₁⟩ := processUpdates_spec fromBytes cm hn U e hr hU hfit h
  unfold unpark
  rcases hpu : processUpdates fromBytes cm e p U with ⟨e₁, c⟩
  rw [hpu] at hr₁ hs₁ hf₁ hq₁
  dsimp only at hr₁ hs₁ hf₁ hq₁ ⊢
  -- the edge after the updates and, if one reported a change, `recalcCurrentState`
  have hmid : (if c then recalcCurrentState cm ord e₁ else e₁).Roles p [] ∧
      (if c then recalcCurrentState cm ord e₁ else e₁).DataInv ∧
      (if c then recalcCurrentState cm ord e₁ else e₁).BoundsInv ∧
      (if c then recalcCurrentState cm ord e₁ else e₁).KeptBelow p.nextID ∧
      Progress e (if c then recalcCurrentState cm ord e₁ else e₁) ∧
      (if c then recalcCurrentState cm ord e₁ else e₁).hasActiveOutgoing = e.hasActiveOutgoing := by
    cases c
    · simp only [Bool.false_eq_true, if_false]
      exact ⟨hr₁, hs₁.data, hb.quiet (hq₁ rfl) h.preCache, hs₁.kept hkept, hs₁.advance.progress,
        hf₁.hasActiveOutgoing⟩
    · simp only [if_true]
      refine ⟨hr₁.recalcCurrentState cm ord, dataInv_recalcCurrentState cm ord hs₁.data,
        boundsInv_recalcCurrentState cm ord hs₁.data, (hs₁.kept hkept).recalcCurrentState cm ord,
        progress_recalcCurrentState cm ord h hb hs₁.advance hs₁.data, ?_⟩
      rw [recalcCurrentState_fields]
      exact hf₁.hasActiveOutgoing
  generalize (if c then recalcCurrentState cm ord e₁ else e₁) = e₂ at hmid ⊢
  obtain ⟨hr₂, hd₂, hb₂, hk₂, hp₂, ha₂⟩ := hmid
  have hinv : e₂.ReqInv p := ⟨hr₂, hk₂, hids⟩
  rcases hres : e₂.respondToIncoming p with ⟨d, done, q⟩
  dsimp only
  obtain ⟨hd₃, hb₃, hp₃, hinv₃⟩ := respondAndRequest_edge hinv hd₂ hb₂ hres
  obtain ⟨hg, hc⟩ := respondAndRequest_pipes hd₂ hres
  exact ⟨respondAndRequest_rules hinc (ha₂.trans hact) hio hnd hinv hb₂.allDepsCompleted
    hb₂.stHigh hd₂.keys hd₂.cacheMapReq (fun hm => hd₂.deps (.inr hm)) hd₂.execReq hres,
    hd₃, hb₃, hp₂.trans hp₃, hinv₃, hg, hc⟩

end Edge

/-! ## The invariant between dispatches -/

namespace Pipes

variable {p : Pipes}

/-- What holds of the pipes of an edge between two dispatches: the incoming requests are open,
with distinct identities below `nextID`, and so are the outgoing ones; what was sent on a pipe
fits its request; and there is an outgoing request only beside an incoming one. -/
structure Inv (p : Pipes) : Prop where
  incomingOpen : ∀ r ∈ p.incoming, r.completed = false
  incomingIds : (p.incoming.map (·.id)).Nodup
  incomingLt : ∀ r ∈ p.incoming, r.id < p.nextID
  outgoingOpen : ∀ o ∈ p.outgoing, o.status.completed = false
  outgoingIds : (p.outgoing.map (·.id)).Nodup
  outgoingLt : ∀ o ∈ p.outgoing, o.id < p.nextID
  sentFits : ∀ o ∈ p.outgoing, ∀ s ∈ o.sent, o.kind.Fits s
  beside : p.incoming = [] → p.outgoing = []

theorem inv_empty (p : Pipes) : ({ p with incoming := [], outgoing := [] } : Pipes).Inv :=
  ⟨by simp, by simp, by simp, by simp, by simp, by simp, by simp, fun _ => rfl⟩

/-- The open pipes that `postUnpark` keeps. -/
def openPipes (p : Pipes) : Pipes :=
  { p with incoming := World.openIncoming p, outgoing := World.openOutgoing p }

/-- With no incoming request left open, the second rule leaves no outgoing one open. -/
theorem UnparkRules.openOutgoing_eq_nil (hr : p.UnparkRules) (h : World.openIncoming p = []) :
    World.openOutgoing p = [] := by
  have hfin : ∀ r ∈ p.incoming, r.completed = true := by
    intro r hr'
    by_contra hc
    have : r ∈ World.openIncoming p := List.mem_filter.mpr ⟨hr', by simpa using hc⟩
    rw [h] at this
    cases this
  have hall := hr.finished hfin
  refine List.filter_eq_nil_iff.mpr fun o ho => ?_
  simp [hall o ho]

/-- An incoming request left open has an open outgoing one beside it. -/
theorem UnparkRules.openOutgoing_ne_nil (hr : p.UnparkRules) (h : World.openIncoming p ≠ []) :
    World.openOutgoing p ≠ [] := by
  obtain ⟨r, hr'⟩ := List.exists_mem_of_ne_nil _ h
  obtain ⟨hmem, hc⟩ := List.mem_filter.mp hr'
  obtain ⟨o, ho, hoc⟩ := hr.incoming ⟨r, hmem, by simpa using hc⟩
  exact List.ne_nil_of_mem (List.mem_filter.mpr ⟨ho, by simp [hoc]⟩)

/-- After an `unpark` that keeps its two rules, the open pipes keep the invariant. -/
theorem inv_openPipes (hr : p.UnparkRules) (hi : (p.incoming.map (·.id)).Nodup)
    (hil : ∀ r ∈ p.incoming, r.id < p.nextID) (ho : (p.outgoing.map (·.id)).Nodup)
    (hol : ∀ o ∈ p.outgoing, o.id < p.nextID) (hs : ∀ o ∈ p.outgoing, ∀ s ∈ o.sent, o.kind.Fits s) :
    p.openPipes.Inv := by
  refine ⟨fun r hr' => ?_, hi.sublist (List.filter_sublist.map _), fun r hr' => ?_,
    fun o ho' => ?_, ho.sublist (List.filter_sublist.map _), fun o ho' => ?_,
    fun o ho' => hs o (List.mem_of_mem_filter ho'), hr.openOutgoing_eq_nil⟩
  · simpa using (List.mem_filter.mp hr').2
  · exact hil r (List.mem_of_mem_filter hr')
  · simpa using (List.mem_filter.mp ho').2
  · exact hol o (List.mem_of_mem_filter ho')

/-- The identities of `mapIdx` from `n` on. -/
theorem map_mapIdx_range' {α β : Type} (l : List α) {f : Nat → α → β} {g : β → Nat} (n : Nat)
    (hg : ∀ i a, g (f i a) = n + i) : (l.mapIdx f).map g = List.range' n l.length := by
  apply List.ext_getElem (by simp)
  intro i h₁ _
  simp [List.getElem_mapIdx, hg]

/-! ## The moves of the rest of the scheduler -/

/-- A new incoming request, with the next identity. -/
theorem Inv.request (h : p.Inv) (req : EdgeRequest) :
    ({ p with incoming := p.incoming ++ [⟨p.nextID, req, false, false⟩],
              nextID := p.nextID + 1 } : Pipes).Inv := by
  refine ⟨fun r hr => ?_, ?_, fun r hr => ?_, h.outgoingOpen, h.outgoingIds,
    fun o ho => Nat.lt_succ_of_lt (h.outgoingLt o ho), h.sentFits, fun hnil => by simp at hnil⟩
  · rcases List.mem_append.mp hr with hr | hr
    · exact h.incomingOpen r hr
    · rw [List.mem_singleton.mp hr]
  · rw [List.map_append, List.nodup_append]
    refine ⟨h.incomingIds, by simp, fun a ha b hb => ?_⟩
    obtain ⟨r, hr, rfl⟩ := List.mem_map.mp ha
    have hb : b = p.nextID := by simpa using hb
    exact hb ▸ Nat.ne_of_lt (h.incomingLt r hr)
  · rcases List.mem_append.mp hr with hr | hr
    · exact Nat.lt_succ_of_lt (h.incomingLt r hr)
    · rw [List.mem_singleton.mp hr]
      exact Nat.lt_succ_self _

/-- A map of the incoming requests that keeps their identities and completions. -/
theorem Inv.mapIncoming (h : p.Inv) {f : Incoming → Incoming}
    (hf : ∀ r, (f r).id = r.id ∧ (f r).completed = r.completed) :
    ({ p with incoming := p.incoming.map f } : Pipes).Inv := by
  have hids : (p.incoming.map f).map (·.id) = p.incoming.map (·.id) := by
    simp only [List.map_map]
    exact List.map_congr_left fun r _ => (hf r).1
  refine ⟨fun r hr => ?_, hids ▸ h.incomingIds, fun r hr => ?_, h.outgoingOpen, h.outgoingIds,
    h.outgoingLt, h.sentFits, fun hnil => h.beside (List.map_eq_nil_iff.mp hnil)⟩
  · obtain ⟨r₀, hr₀, rfl⟩ := List.mem_map.mp hr
    rw [(hf r₀).2]
    exact h.incomingOpen r₀ hr₀
  · obtain ⟨r₀, hr₀, rfl⟩ := List.mem_map.mp hr
    rw [(hf r₀).1]
    exact h.incomingLt r₀ hr₀

/-- A map of the outgoing requests that keeps their identities, kinds and statuses, and sends
only what fits. -/
theorem Inv.mapOutgoing (h : p.Inv) {f : Outgoing → Outgoing}
    (hf : ∀ o, (f o).id = o.id ∧ (f o).kind = o.kind ∧ (f o).status = o.status)
    (hs : ∀ o ∈ p.outgoing, ∀ s ∈ (f o).sent, o.kind.Fits s) :
    ({ p with outgoing := p.outgoing.map f } : Pipes).Inv := by
  have hids : (p.outgoing.map f).map (·.id) = p.outgoing.map (·.id) := by
    simp only [List.map_map]
    exact List.map_congr_left fun o _ => (hf o).1
  refine ⟨h.incomingOpen, h.incomingIds, h.incomingLt, fun o ho => ?_, hids ▸ h.outgoingIds,
    fun o ho => ?_, fun o ho => ?_, fun hnil => by simp [h.beside hnil]⟩
  · obtain ⟨o₀, ho₀, rfl⟩ := List.mem_map.mp ho
    rw [(hf o₀).2.2]
    exact h.outgoingOpen o₀ ho₀
  · obtain ⟨o₀, ho₀, rfl⟩ := List.mem_map.mp ho
    rw [(hf o₀).1]
    exact h.outgoingLt o₀ ho₀
  · obtain ⟨o₀, ho₀, rfl⟩ := List.mem_map.mp ho
    rw [(hf o₀).2.1]
    exact hs o₀ ho₀

/-- The pipes `mergeTo` moves here: incoming requests, then outgoing ones beside them, with
fresh identities. -/
theorem Inv.mergeIn (h : p.Inv) (incs : List (EdgeRequest × Bool))
    (outs : List (Status × Option Status)) (hio : outs ≠ [] → incs ≠ [])
    (hout : ∀ o ∈ outs, o.1.completed = false) :
    ({ incoming := p.incoming ++ incs.mapIdx fun i r => ⟨p.nextID + i, r.1, r.2, false⟩
       outgoing := p.outgoing ++ outs.mapIdx fun i o =>
         ⟨p.nextID + incs.length + i, .merged, true, o.1, o.2⟩
       nextID := p.nextID + incs.length + outs.length } : Pipes).Inv := by
  have hinc := map_mapIdx_range' incs (g := Incoming.id) p.nextID
    (f := fun i r => (⟨p.nextID + i, r.1, r.2, false⟩ : Incoming)) fun _ _ => rfl
  have hout' := map_mapIdx_range' outs (g := Outgoing.id) (p.nextID + incs.length)
    (f := fun i o => (⟨p.nextID + incs.length + i, .merged, true, o.1, o.2⟩ : Outgoing))
    fun _ _ => rfl
  refine ⟨fun r hr => ?_, ?_, fun r hr => ?_, fun o ho => ?_, ?_, fun o ho => ?_,
    fun o ho => ?_, fun hnil => ?_⟩
  · rcases List.mem_append.mp hr with hr | hr
    · exact h.incomingOpen r hr
    · obtain ⟨i, hi, rfl⟩ := List.mem_mapIdx.mp hr
      rfl
  · rw [List.map_append, List.nodup_append, hinc]
    refine ⟨h.incomingIds, List.nodup_range', fun a ha b hb => ?_⟩
    obtain ⟨r, hr, rfl⟩ := List.mem_map.mp ha
    rw [List.mem_range'_1] at hb
    have := h.incomingLt r hr
    omega
  · rcases List.mem_append.mp hr with hr | hr
    · have := h.incomingLt r hr
      dsimp only
      omega
    · obtain ⟨i, hi, rfl⟩ := List.mem_mapIdx.mp hr
      dsimp only
      omega
  · rcases List.mem_append.mp ho with ho | ho
    · exact h.outgoingOpen o ho
    · obtain ⟨i, hi, rfl⟩ := List.mem_mapIdx.mp ho
      exact hout _ (List.getElem_mem hi)
  · rw [List.map_append, List.nodup_append, hout']
    refine ⟨h.outgoingIds, List.nodup_range', fun a ha b hb => ?_⟩
    obtain ⟨o, ho, rfl⟩ := List.mem_map.mp ha
    rw [List.mem_range'_1] at hb
    have := h.outgoingLt o ho
    omega
  · rcases List.mem_append.mp ho with ho | ho
    · have := h.outgoingLt o ho
      dsimp only
      omega
    · obtain ⟨i, hi, rfl⟩ := List.mem_mapIdx.mp ho
      dsimp only
      omega
  · rcases List.mem_append.mp ho with ho | ho
    · exact h.sentFits o ho
    · obtain ⟨i, hi, rfl⟩ := List.mem_mapIdx.mp ho
      exact fun _ _ => trivial
  · -- no incoming request at all: none was moved, so no outgoing one was either
    obtain ⟨hp, hi⟩ := List.append_eq_nil_iff.mp hnil
    have hincs : incs = [] := List.mapIdx_eq_nil_iff.mp hi
    have houts : outs = [] := by
      by_contra hne
      exact hio hne hincs
    simp [h.beside hp, houts]

end Pipes

namespace World

variable (fromBytes : String → Digest) (cm : CacheManager) (ord : IterOrder String)
variable {w w' : World}

/-- What holds of a world between two dispatches: its pipes keep their invariant, and are empty
once the edge is merged away; before that, the requests the edge keeps are where `Roles` says,
below `nextID`; and the data of the edge keep `DataInv` and `BoundsInv`. -/
structure Inv (w : World) : Prop where
  pipes : w.pipes.Inv
  merged : w.merged = true → w.pipes.incoming = [] ∧ w.pipes.outgoing = []
  roles : w.merged = false → w.edge.Roles w.pipes []
  kept : w.edge.KeptBelow w.pipes.nextID
  data : w.edge.DataInv
  bounds : w.edge.BoundsInv

theorem inv_new (ed : SolverEdge) (op : ActiveOp) : (World.new ed op).Inv := by
  have hpre : (newEdge ed op).PreCache :=
    ⟨rfl, rfl, rfl, rfl, rfl, rfl, rfl, fun d hd => by simp [Edge.depList, newEdge] at hd⟩
  have hdata : (newEdge ed op).DataInv :=
    ⟨fun _ => hpre, fun h => absurd hpre.records h, fun h => by simp [newEdge] at h,
      fun h => by simp [newEdge] at h, fun h => by simp [newEdge] at h,
      fun h => by simp [newEdge] at h, fun h => by simp [newEdge] at h,
      fun _ _ _ => hpre.records⟩
  -- nothing is kept yet, so the roles and the bounds hold of any pipes
  have hroles : (newEdge ed op).Roles ⟨[], [], 0⟩ [] := by
    refine ⟨fun h => by simp [newEdge] at h, fun h => by simp [newEdge] at h, ⟨?_, ?_⟩,
      fun h => by simp [newEdge] at h⟩
    · intro j d id hj
      simp [Edge.depList, newEdge] at hj
    · intro j k dj dk id hj
      simp [Edge.depList, newEdge] at hj
  have hkept : (newEdge ed op).KeptBelow 0 := by
    refine ⟨fun h => by simp [newEdge] at h, fun h => by simp [newEdge] at h, fun hd => ?_,
      fun h => by simp [newEdge] at h⟩
    simp [Edge.depList, newEdge] at hd
  exact ⟨Pipes.inv_empty ⟨[], [], 0⟩, fun h => absurd h Bool.false_ne_true, fun _ => hroles,
    hkept, hdata, .of_preCache rfl hpre⟩

/-- The first part of `dispatch` is `unpark` on the received pipes. -/
theorem unparked_eq (w : World) :
    w.unparked fromBytes cm ord =
      { w.edge with hasActiveOutgoing := w.pipes.receiveAll.outgoing.any (!·.status.completed) }.unpark
        fromBytes cm ord w.pipes.receiveAll w.pipes.updates := rfl

/-- On empty pipes `unpark` has nothing to process and nothing to answer: it stops at once. -/
theorem unparked_of_empty (w : World) (hi : w.pipes.incoming = []) (ho : w.pipes.outgoing = []) :
    w.unparked fromBytes cm ord = ({ w.edge with hasActiveOutgoing := false }, w.pipes) := by
  obtain ⟨e, ⟨inc, out, n⟩, m⟩ := w
  dsimp only at hi ho
  subst hi ho
  have hscan : ∀ e' : Edge, (if e'.isComplete then (true, e'.state, true) else e'.scanIncoming []) =
      (true, e'.state, true) := fun e' => by
    split <;> rfl
  simp only [unparked, Edge.unpark, Edge.processUpdates, List.map_nil, List.filter_nil,
    List.foldl_nil, Bool.false_eq_true, if_false, List.any_nil, Edge.respondToIncoming, hscan]
  rfl

/-- What the first part of `dispatch` leaves of a world that keeps its invariant: the two rules
on the pipes, what the open pipes need of them, the invariants of the edge, and its progress. -/
structure UnparkedInv (w : World) (e : Edge) (q : Pipes) : Prop where
  rules : q.UnparkRules
  incomingIds : (q.incoming.map (·.id)).Nodup
  incomingLt : ∀ r ∈ q.incoming, r.id < q.nextID
  outgoingIds : (q.outgoing.map (·.id)).Nodup
  outgoingLt : ∀ o ∈ q.outgoing, o.id < q.nextID
  sentFits : ∀ o ∈ q.outgoing, ∀ s ∈ o.sent, o.kind.Fits s
  merged : w.merged = true → q.incoming = [] ∧ q.outgoing = []
  roles : w.merged = false → e.Roles q []
  kept : e.KeptBelow q.nextID
  data : e.DataInv
  bounds : e.BoundsInv
  progress : Edge.Progress w.edge e

/-- Finishing some incoming requests keeps their identities. -/
theorem map_id_finished (l : List Incoming) (c : Incoming → Bool) :
    (l.map fun r => if c r then { r with completed := true } else r).map (·.id) =
      l.map (·.id) := by
  simp only [List.map_map]
  refine List.map_congr_left fun r _ => ?_
  simp only [Function.comp_apply]
  split <;> rfl

theorem unparked_inv (hw : w.Inv) :
    UnparkedInv w (w.unparked fromBytes cm ord).1 (w.unparked fromBytes cm ord).2 := by
  have hp := hw.pipes
  cases hm : w.merged
  · -- a live edge: `unpark` on the received pipes, with the updates they received
    let a := w.pipes.receiveAll.outgoing.any (!·.status.completed)
    let k := w.edge.keysDidChange
    have hn : (w.pipes.receiveAll.outgoing.map (·.id)).Nodup := by
      rw [Pipes.map_id_receiveAll]
      exact hp.outgoingIds
    have hids : ∀ o ∈ w.pipes.receiveAll.outgoing, o.id < w.pipes.receiveAll.nextID := by
      intro o ho
      obtain ⟨o₀, ho₀, rfl⟩ := List.mem_map.mp ho
      simpa using hp.outgoingLt o₀ ho₀
    have hsent : ∀ o ∈ w.pipes.receiveAll.outgoing, ∀ s ∈ o.sent, o.kind.Fits s := by
      intro o ho s hs
      obtain ⟨o₀, -, rfl⟩ := List.mem_map.mp ho
      simp at hs
    have hu := Edge.unpark_spec fromBytes cm ord (e := { w.edge with hasActiveOutgoing := a })
      ((Edge.Roles.receiveAll hp.outgoingOpen (hw.roles hm)).flags a k) hn
      (Pipes.nodup_updates hp.outgoingIds) (Pipes.fits_updates hp.sentFits) (hw.kept.flags a k)
      hids (hw.data.flags a k) (hw.bounds.flags a k hw.data) hp.incomingOpen
      (fun hi => by simp [Pipes.receiveAll, hp.beside hi]) hp.incomingIds rfl
    rw [← unparked_eq] at hu
    generalize w.unparked fromBytes cm ord = r at hu ⊢
    obtain ⟨c, hc⟩ := hu.incoming
    refine ⟨hu.rules, ?_, fun r hr => ?_, hu.grows.nodup hn hids, hu.reqs.ids,
      hu.grows.sentFits hsent, fun h => absurd (hm.symm.trans h) Bool.false_ne_true,
      fun _ => hu.reqs.roles, hu.reqs.kept, hu.data, hu.bounds,
      (Edge.progress_flags a k w.edge).trans hu.progress⟩
    · rw [hc, map_id_finished]
      exact hp.incomingIds
    · rw [hc] at hr
      obtain ⟨r₀, hr₀, rfl⟩ := List.mem_map.mp hr
      have hlt := hp.incomingLt r₀ hr₀
      have hle : w.pipes.nextID ≤ r.2.nextID := hu.grows.nextID
      have hid : (if c r₀ then { r₀ with completed := true } else r₀).id = r₀.id := by
        split <;> rfl
      omega
  · -- a merged edge: its pipes are empty and `unpark` stops at once
    obtain ⟨hi, ho⟩ := hw.merged hm
    rw [unparked_of_empty fromBytes cm ord w hi ho]
    let k := w.edge.keysDidChange
    have hrules : w.pipes.UnparkRules := by
      refine ⟨fun ⟨r, hr, _⟩ => ?_, fun _ o ho' => ?_⟩
      · rw [hi] at hr
        cases hr
      · rw [ho] at ho'
        cases ho'
    exact ⟨hrules, hp.incomingIds, hp.incomingLt, hp.outgoingIds, hp.outgoingLt, hp.sentFits,
      fun _ => ⟨hi, ho⟩, fun h => absurd (hm.symm.trans h) (by decide),
      hw.kept.flags false k, hw.data.flags false k, hw.bounds.flags false k hw.data,
      Edge.progress_flags false k w.edge⟩

/-- The two checks at the end of `dispatch` fail on pipes that keep the two rules. -/
theorem checks_of_rules {q : Pipes} (hr : q.UnparkRules) :
    (!(openIncoming q).isEmpty && (openOutgoing q).isEmpty) = false ∧
      ((openIncoming q).isEmpty && !(openOutgoing q).isEmpty) = false := by
  constructor
  · cases hi : (openIncoming q).isEmpty
    · have hne := hr.openOutgoing_ne_nil (by simpa using hi)
      simp [hne]
    · rfl
  · cases hi : (openIncoming q).isEmpty
    · rfl
    · simp [hr.openOutgoing_eq_nil (List.isEmpty_iff.mp hi)]

/-- After an `unpark` that keeps the two rules, `postUnpark` keeps the open pipes, or empties them
when the edge is merged away, and changes only `keysDidChange` of the edge. -/
theorem postUnpark_of_rules (merge : Bool) (n : Nat) (e : Edge) {q : Pipes} (m : Bool)
    (hr : q.UnparkRules) :
    ∃ w', postUnpark fromBytes merge (n + 1) ⟨e, q, m⟩ = some w' ∧
      (∃ b, w'.edge = { e with keysDidChange := b }) ∧
      (w'.pipes = q.openPipes ∧ w'.merged = m ∨
        w'.pipes = { q.openPipes with incoming := [], outgoing := [] } ∧ w'.merged = true) := by
  obtain ⟨h₁, h₂⟩ := checks_of_rules hr
  simp only [postUnpark, h₁, h₂, Bool.false_eq_true, if_false]
  by_cases hk : e.keysDidChange = true
  · rw [if_pos hk]
    by_cases hm : ((currentIndexKey fromBytes e).isSome && merge) = true
    · rw [if_pos hm]
      exact ⟨_, rfl, ⟨false, rfl⟩, .inr ⟨rfl, rfl⟩⟩
    · rw [if_neg hm]
      exact ⟨_, rfl, ⟨false, rfl⟩, .inl ⟨rfl, rfl⟩⟩
  · rw [if_neg hk]
    exact ⟨_, rfl, ⟨e.keysDidChange, rfl⟩, .inl ⟨rfl, rfl⟩⟩

theorem postUnpark_inv {e : Edge} {q : Pipes} (h : UnparkedInv w e q) (merge : Bool) (n : Nat) :
    ∃ w', postUnpark fromBytes merge (n + 1) ⟨e, q, w.merged⟩ = some w' ∧ w'.Inv ∧
      Edge.Progress w.edge w'.edge ∧ ∃ b, w'.edge = { e with keysDidChange := b } := by
  obtain ⟨w', hpost, ⟨b, he⟩, hp⟩ := postUnpark_of_rules fromBytes merge n e w.merged h.rules
  refine ⟨w', hpost, ?_, he ▸ h.progress.trans (Edge.progress_flags _ b e), b, he⟩
  obtain ⟨we, wp, wm⟩ := w'
  dsimp only at he hp ⊢
  subst he
  have hk : ({ e with keysDidChange := b } : Edge).KeptBelow q.nextID :=
    h.kept.flags e.hasActiveOutgoing b
  rcases hp with ⟨rfl, rfl⟩ | ⟨rfl, rfl⟩
  · refine ⟨Pipes.inv_openPipes h.rules h.incomingIds h.incomingLt h.outgoingIds h.outgoingLt
      h.sentFits, fun hm => ?_, fun hm => ((h.roles hm).keeps h.kept (Pipes.Keeps.filter rfl)).flags
      e.hasActiveOutgoing b, hk, h.data.flags _ b, h.bounds.flags _ b h.data⟩
    obtain ⟨hi, ho⟩ := h.merged hm
    simp [Pipes.openPipes, openIncoming, openOutgoing, hi, ho]
  · exact ⟨Pipes.inv_empty _, fun _ => ⟨rfl, rfl⟩, (fun h => by cases h), hk,
      h.data.flags _ b, h.bounds.flags _ b h.data⟩

/-- A dispatch of a world that keeps its invariant returns, keeps it, makes progress, and after
`unpark` changes only `keysDidChange`: it never marks the edge failed. -/
theorem dispatch_spec (hw : w.Inv) (merge : Bool) :
    ∃ w', w.dispatch fromBytes cm ord merge = some w' ∧ w'.Inv ∧ Edge.Progress w.edge w'.edge ∧
      ∃ b, w'.edge = { (w.unparked fromBytes cm ord).1 with keysDidChange := b } :=
  postUnpark_inv fromBytes (unparked_inv fromBytes cm ord hw) merge 1

/-- Every move keeps the invariant. -/
theorem Inv.step (hw : w.Inv) (hs : Step fromBytes w w') : w'.Inv := by
  -- a move of the rest of the scheduler changes the pipes only
  have hset : ∀ {p : Pipes}, p.Inv → w.pipes.Keeps w.pipes.nextID p → w.pipes.nextID ≤ p.nextID →
      (w.merged = true → p.incoming = [] ∧ p.outgoing = []) → ({ w with pipes := p } : World).Inv :=
    fun hp hk hn hm => ⟨hp, hm, fun h => (hw.roles h).keeps hw.kept hk, hw.kept.mono hn, hw.data,
      hw.bounds⟩
  cases hs with
  | dispatch cm ord merge hd =>
    obtain ⟨w'', hd', hinv, -⟩ := dispatch_spec fromBytes cm ord hw merge
    rw [hd] at hd'
    exact Option.some.inj hd' ▸ hinv
  | request req hm =>
    exact hset (hw.pipes.request req) (Pipes.Keeps.of_eq rfl) (Nat.le_succ _)
      fun h => absurd (hm.symm.trans h) Bool.false_ne_true
  | cancel id =>
    refine hset (hw.pipes.mapIncoming fun r => ?_) (Pipes.Keeps.of_eq rfl) le_rfl fun h => ?_
    · split <;> exact ⟨rfl, rfl⟩
    · obtain ⟨hi, ho⟩ := hw.merged h
      simp [hi, ho]
  | send id st hst =>
    refine hset (hw.pipes.mapOutgoing (fun o => ?_) fun o ho s hs => ?_)
      (Pipes.Keeps.of_map rfl fun o => ?_) le_rfl fun h => ?_
    · split <;> exact ⟨rfl, rfl, rfl⟩
    · -- what is sent now fits the request, and what was sent before did
      by_cases hid : o.id = id
      · simp only [hid, if_true, Option.mem_def, Option.some.injEq] at hs
        exact hs ▸ (hst o ho hid).2.2.1
      · simp only [hid, if_false] at hs
        exact hw.pipes.sentFits o ho s hs
    · split <;> exact ⟨rfl, rfl, rfl⟩
    · obtain ⟨hi, ho⟩ := hw.merged h
      simp [hi, ho]
  | mergeIn incs outs hm hio hout =>
    refine hset (hw.pipes.mergeIn incs outs hio hout) (Pipes.Keeps.append rfl fun o ho => ?_)
      (by dsimp only; omega) fun h => absurd (hm.symm.trans h) Bool.false_ne_true
    obtain ⟨i, hi, rfl⟩ := List.mem_mapIdx.mp ho
    dsimp only
    omega

end World

namespace Reachable

variable {fromBytes : String → Digest} {w w' : World}

theorem inv (h : Reachable fromBytes w) : w.Inv := by
  induction h with
  | init ed op => exact World.inv_new ed op
  | step _ hs ih => exact ih.step fromBytes hs

theorem run (hw : Reachable fromBytes w) (hr : Relation.ReflTransGen (Step fromBytes) w w') :
    Reachable fromBytes w' := by
  induction hr with
  | refl => exact hw
  | tail _ hs ih => exact .step ih hs

end Reachable

namespace World

variable (fromBytes : String → Digest) (cm : CacheManager) (ord : IterOrder String)
variable {w w' : World}

/-- In every reachable world, `unpark` within `dispatch` leaves the two rules: an open incoming
request has an open outgoing one beside it, and once every incoming request is finished no
outgoing one is open. -/
theorem unparked_rules (hw : Reachable fromBytes w) :
    (w.unparked fromBytes cm ord).2.UnparkRules :=
  (unparked_inv fromBytes cm ord hw.inv).rules

/-- The rules after the first dispatch of a new edge with one incoming request. -/
theorem unparked_rules_requested :
    ((⟨newEdge ⟨0, 0⟩ ⟨false⟩, ⟨[⟨0, ⟨.complete, ⟨.initial, none, none, []⟩, 0⟩, false, false⟩],
      [], 1⟩, false⟩ : World).unparked id ⟨fun _ _ _ _ => .ok [], fun _ => .ok []⟩
      IterOrder.stored).2.UnparkRules :=
  unparked_rules id _ _ (.step (.init _ _) (.request _ rfl))

theorem step_progress (hw : w.Inv) (hs : Step fromBytes w w') : Edge.Progress w.edge w'.edge := by
  cases hs with
  | dispatch cm ord merge hd =>
    obtain ⟨w'', hd', -, hp, -⟩ := dispatch_spec fromBytes cm ord hw merge
    rw [hd] at hd'
    exact Option.some.inj hd' ▸ hp
  | request | cancel | send | mergeIn => exact .refl _

/-- Over every run from a reachable world the edge makes `Progress`: its state never falls, its
keys only grow at the end, its records only get more, and once complete it stays so with its
result. -/
theorem run_progress (hw : Reachable fromBytes w) (hr : Relation.ReflTransGen (Step fromBytes) w w') :
    Edge.Progress w.edge w'.edge := by
  induction hr with
  | refl => exact .refl _
  | tail hr' hs ih => exact ih.trans (step_progress fromBytes (hw.run hr').inv hs)

theorem run_progress_requested :
    Edge.Progress (World.new ⟨0, 0⟩ ⟨false⟩).edge
      (⟨newEdge ⟨0, 0⟩ ⟨false⟩, ⟨[⟨0, ⟨.complete, ⟨.initial, none, none, []⟩, 0⟩, false, false⟩],
        [], 1⟩, false⟩ : World).edge :=
  run_progress id (.init _ _) (.single (.request _ rfl))

end World

end Buildkit
