import Buildkit.Lib.Loop
import Buildkit.Solver.CacheKey
import Buildkit.Solver.MemoryCacheStorage.Invariant

/-!
# The cache manager

`cacheManager` of `solver/cachemanager.go`, over any key storage: the IDs it gives cache keys
(`getID`, `getIDFromDeps`) and `Query`, which finds the keys linked from the dependency keys of
a vertex and carries the links of each over to the dependency keys that lack them.

Representation. The storage is a `KeyStorage σ`, the methods of the `CacheKeyStorage` interface
the manager calls; the in-memory store is one (`InMemoryStore.keyStorage`), and what is proved
here holds of every storage whose links behave as its own do (`KeyStorage.LinkLaws`). The
in-memory store never returns an error, so the methods here return none and the error paths of
the manager are left out. A cache key is a pointer into the key objects `Env.keys`, since
`getID` memoizes the ID of a key object for the manager (`k.ids[c]`); the memo is part of the
state. `identity.NewID` is `Env.newID` of a counter, and the order of every loop over a map is
`Env.ord`. `getID` recurses through the dependency keys with no bound in the source; here it is
given fuel, and `none` is a recursion that did not end. Key objects are built from keys that
exist already, so they form a DAG, and a rank along it bounds the fuel `getID` needs
(`exists_getID_eq_some`). The locks are left out: `Query` holds the manager's read lock, and the
key's lock guards its memo.
-/

namespace Buildkit

/-- The methods of `CacheKeyStorage` the cache manager calls, on stores of type `σ`. -/
structure KeyStorage (σ : Type) where
  «exists» : σ → String → Bool
  walkResults : σ → String → List CacheResult
  walkLinks : σ → String → CacheInfoLink → List String
  hasLink : σ → String → CacheInfoLink → String → Bool
  addResult : σ → String → CacheResult → σ
  addLink : σ → String → CacheInfoLink → String → σ
  release : σ → String → Option σ

/-- The storage's links are a set that `HasLink` reads and `WalkLinks` lists, and `AddLink` adds
one link to it and no other. -/
structure KeyStorage.LinkLaws {σ : Type} (b : KeyStorage σ) : Prop where
  hasLink_iff : ∀ s id l t, b.hasLink s id l t = true ↔ t ∈ b.walkLinks s id l
  mem_walkLinks_addLink : ∀ s id l t y l' t',
    t' ∈ b.walkLinks (b.addLink s id l t) y l' ↔ t' ∈ b.walkLinks s y l' ∨ (y = id ∧ l' = l ∧ t' = t)

/-- The in-memory store as a key storage, the loops of `Release` in the order `ord`. -/
def InMemoryStore.keyStorage (ord : IterOrder String) : KeyStorage InMemoryStore where
  «exists» := InMemoryStore.exists
  walkResults := InMemoryStore.walkResults
  walkLinks := InMemoryStore.walkLinks
  hasLink := InMemoryStore.hasLink
  addResult := InMemoryStore.addResult
  addLink := InMemoryStore.addLink
  release := InMemoryStore.release ord

theorem InMemoryStore.keyStorage_linkLaws (ord : IterOrder String) :
    (InMemoryStore.keyStorage ord).LinkLaws where
  hasLink_iff _ _ _ _ := InMemoryStore.hasLink_iff_mem_walkLinks
  mem_walkLinks_addLink _ _ _ _ _ _ _ := InMemoryStore.mem_walkLinks_addLink

/-- A `CacheKey` object as the cache manager reads it: its `ID`, digest and output and, per
input, the selector and the key object of each dependency, by pointer. -/
structure KeyObj where
  id : String
  digest : Digest
  output : Index
  deps : List (List (Digest × Nat))

/-- `cacheManager`: the key storage, with the IDs the key objects memoize for the manager and the
counter of `identity.NewID`. -/
structure Manager (σ : Type) where
  backend : σ
  ids : Nat → Option String
  next : Nat

namespace Manager

variable {σ : Type}

/-- What the methods read besides the manager: the key objects, the order of the loops over maps,
`identity.NewID` and `digest.FromBytes`. -/
structure Env where
  keys : Nat → KeyObj
  ord : IterOrder String
  newID : Nat → String
  fromBytes : String → Digest

/-- A rank of the key objects that every dependency key is below. -/
def Env.Ranked (env : Env) (rank : Nat → Nat) : Prop :=
  ∀ k, ∀ ds ∈ (env.keys k).deps, ∀ d ∈ ds, rank d.2 < rank k

/-- `k.ids[c] = id`. -/
def setID (st : Manager σ) (k : Nat) (id : String) : Manager σ :=
  { st with ids := fun j => if j = k then some id else st.ids j }

/-! ## `getID` -/

/-- The matches of `getIDFromDeps` once the targets of one dependency key are walked: at input 0
each target joins them, at a later input only the matches among the targets stay. -/
def addMatches (i : Nat) (matchIDs targets : List String) : List String :=
  if i = 0 then targets.foldl (fun m id => m.insert id) matchIDs else matchIDs.filter (· ∈ targets)

/-- `getIDFromDeps`, with `recurse` for `getID`: a key linked, under the digest and output of
`k`, from a dependency key of input 0 and from every dependency key of each later input, or
else a new ID. A later input is walked only while there are matches. -/
def getIDFromDeps (env : Env) (b : KeyStorage σ)
    (recurse : Manager σ → Nat → Option (String × Manager σ)) (st : Manager σ) (k : Nat) :
    Option (String × Manager σ) := do
  let kn := env.keys k
  let (matchIDs, st) ← kn.deps.zipIdx.foldlM
    (fun (acc : List String × Manager σ) (p : List (Digest × Nat) × Nat) =>
      if p.2 = 0 ∨ acc.1 ≠ [] then
        p.1.foldlM (fun (acc : List String × Manager σ) (ck : Digest × Nat) => do
          let (ckID, st) ← recurse acc.2 ck.2
          let targets := b.walkLinks st.backend ckID ⟨p.2, kn.output, kn.digest, ck.1⟩
          pure (addMatches p.2 acc.1 targets, st)) acc
      else pure acc) ([], st)
  -- `for k := range matches { return k }`
  match env.ord.order matchIDs with
  | id :: _ => pure (id, st)
  | [] => pure (env.newID st.next, { st with next := st.next + 1 })

/-- `getID`: the memo of the key object, or else its `ID` if it has no dependencies, or else the
ID from its dependencies; the ID is memoized. -/
def getID (env : Env) (b : KeyStorage σ) : Nat → Manager σ → Nat → Option (String × Manager σ)
  | 0, _, _ => none
  | fuel + 1, st, k =>
    match st.ids k with
    | some id => some (id, st)
    | none =>
      let kn := env.keys k
      if kn.deps = [] then some (kn.id, st.setID k kn.id)
      else do
        let (id, st) ← getIDFromDeps env b (getID env b fuel) st k
        pure (id, st.setID k id)

/-! ## `Query` -/

/-- The `dep` of `Query`: a dependency key with the IDs its links lead to. -/
structure Dep where
  results : List String
  key : Digest × Nat

/-- The link `Query` walks and adds from a dependency key. -/
def queryLink (input : Index) (dgst : Digest) (output : Index) (d : Digest × Nat) : CacheInfoLink :=
  ⟨input, output, dgst, d.1⟩

/-- `newKeyWithID`: a key object whose memo for the manager is `id`. -/
def newKeyWithID (id : String) (dgst : Digest) (output : Index) : CacheKey :=
  .mk id dgst output []

/-- One iteration of the first loop of `Query`: the IDs the dependency key `d` links to join
its `dep` and the union `allRes`. -/
def walkDep (env : Env) (b : KeyStorage σ) (fuel : Nat) (input : Index) (dgst : Digest)
    (output : Index) (acc : List Dep × List String × Manager σ) (d : Digest × Nat) :
    Option (List Dep × List String × Manager σ) := do
  let (ckID, st) ← getID env b fuel acc.2.2 d.2
  let targets := b.walkLinks st.backend ckID (queryLink input dgst output d)
  pure (acc.1 ++ [⟨targets, d⟩], targets.foldl (fun r id => r.insert id) acc.2.1, st)

/-- One iteration of the inner loop of the second loop of `Query`: the dependency key of `d`
links to `id` unless its walk found it. The target, `c.getID(key)` of the key `newKeyWithID`
made, is its memo `id`. -/
def carryLink (env : Env) (b : KeyStorage σ) (fuel : Nat) (input : Index) (dgst : Digest)
    (output : Index) (id : String) (st : Manager σ) (d : Dep) : Option (Manager σ) :=
  if id ∈ d.results then pure st
  else do
    let (ckID, st) ← getID env b fuel st d.key.2
    pure { st with backend := b.addLink st.backend ckID (queryLink input dgst output d.key) id }

/-- The second loop of `Query`: "link the results against the keys that didn't exist". -/
def linkMissing (env : Env) (b : KeyStorage σ) (fuel : Nat) (input : Index) (dgst : Digest)
    (output : Index) (allDeps : List Dep) (ids : List String) (st : Manager σ) :
    Option (Manager σ) :=
  ids.foldlM (fun st id => allDeps.foldlM (carryLink env b fuel input dgst output id) st) st

/-- `Query`: the keys the links of the dependency keys lead to, each linked afterwards from every
dependency key; a query without dependencies finds the root key, if the storage has it. -/
def query (env : Env) (b : KeyStorage σ) (fuel : Nat) (st : Manager σ) (deps : List (Digest × Nat))
    (input : Index) (dgst : Digest) (output : Index) : Option (List CacheKey × Manager σ) := do
  let (allDeps, allRes, st) ← deps.foldlM (walkDep env b fuel input dgst output) ([], [], st)
  let st ← linkMissing env b fuel input dgst output allDeps (env.ord.order allRes) st
  if deps = [] then
    if b.exists st.backend (rootKey env.fromBytes dgst output) then
      pure ([newKeyWithID (rootKey env.fromBytes dgst output) dgst output], st)
    else pure ([], st)
  else pure ((env.ord.order allRes).map fun id => newKeyWithID id dgst output, st)

/-! ## What `getID` changes -/

/-- The storage is left as it is and every memo stays. -/
def Keeps (st st' : Manager σ) : Prop :=
  st'.backend = st.backend ∧ ∀ j x, st.ids j = some x → st'.ids j = some x

theorem Keeps.refl (st : Manager σ) : Keeps st st := ⟨rfl, fun _ _ h => h⟩

theorem Keeps.trans {s₁ s₂ s₃ : Manager σ} (h₁ : Keeps s₁ s₂) (h₂ : Keeps s₂ s₃) : Keeps s₁ s₃ :=
  ⟨h₂.1.trans h₁.1, fun j x h => h₂.2 j x (h₁.2 j x h)⟩

/-- A memo written for a key that had none keeps every memo. -/
theorem Keeps.setID {st₀ st : Manager σ} (h : Keeps st₀ st) {k : Nat} (hk : st₀.ids k = none)
    (id : String) : Keeps st₀ (st.setID k id) := by
  refine ⟨h.1, fun j x hj => ?_⟩
  have hne : j ≠ k := by rintro rfl; simp [hk] at hj
  simp [Manager.setID, hne, h.2 j x hj]

@[simp] theorem setID_ids_self (st : Manager σ) (k : Nat) (id : String) :
    (st.setID k id).ids k = some id := by
  simp [Manager.setID]

theorem getIDFromDeps_keeps {env : Env} {b : KeyStorage σ}
    {recurse : Manager σ → Nat → Option (String × Manager σ)}
    (hrec : ∀ {st k r}, recurse st k = some r → Keeps st r.2) {st : Manager σ} {k : Nat}
    {r : String × Manager σ} (h : getIDFromDeps env b recurse st k = some r) : Keeps st r.2 := by
  unfold getIDFromDeps at h
  obtain ⟨⟨matchIDs, st₁⟩, h₁, h⟩ := Option.bind_eq_some_iff.mp h
  -- the walks of the dependency keys only memoize IDs
  have hk₁ : Keeps st st₁ := by
    refine Loop.foldlM_rel (fun a b => Keeps a.2 b.2) (fun _ => .refl _)
      (by intro _ _ _ h₁ h₂; exact h₁.trans h₂) (fun p _ acc acc' hp => ?_) h₁
    split at hp
    · refine Loop.foldlM_rel (fun a b => Keeps a.2 b.2) (fun _ => .refl _)
        (by intro _ _ _ h₁ h₂; exact h₁.trans h₂) (fun ck _ a a' ha => ?_) hp
      obtain ⟨⟨ckID, st₂⟩, h₂, ha⟩ := Option.bind_eq_some_iff.mp ha
      cases ha
      exact hrec h₂
    · cases hp
      exact .refl _
  dsimp only at h
  -- a new ID moves only the counter of `identity.NewID`
  split at h
  · cases h
    exact hk₁
  · cases h
    exact hk₁

/-- By induction on the fuel: `getID` only memoizes, and the ID it returns is the memo of `k`. -/
theorem getID_spec {env : Env} {b : KeyStorage σ} (fuel : Nat) :
    ∀ {st : Manager σ} {k : Nat} {r : String × Manager σ}, getID env b fuel st k = some r →
      Keeps st r.2 ∧ r.2.ids k = some r.1 := by
  induction fuel with
  | zero => intro st k r h; cases h
  | succ fuel ih =>
    intro st k r h
    rw [getID] at h
    split at h
    · next id hid =>
      cases h
      exact ⟨.refl _, hid⟩
    · next hnone =>
      dsimp only at h
      split at h
      · cases h
        exact ⟨(Keeps.refl st).setID hnone _, setID_ids_self _ _ _⟩
      · obtain ⟨⟨id, st₁⟩, h₁, h⟩ := Option.bind_eq_some_iff.mp h
        cases h
        exact ⟨(getIDFromDeps_keeps (fun h => (ih h).1) h₁).setID hnone _, setID_ids_self _ _ _⟩

/-- `getID` of a key object with a memo returns it. -/
theorem getID_of_memo {env : Env} {b : KeyStorage σ} {fuel : Nat} {st : Manager σ} {k : Nat}
    {x : String} (h : st.ids k = some x) : getID env b (fuel + 1) st k = some (x, st) := by
  simp [getID, h]

theorem exists_getIDFromDeps_eq_some {env : Env} {b : KeyStorage σ}
    {recurse : Manager σ → Nat → Option (String × Manager σ)} {k : Nat}
    (hrec : ∀ st, ∀ ds ∈ (env.keys k).deps, ∀ d ∈ ds, ∃ r, recurse st d.2 = some r)
    (st : Manager σ) : ∃ r, getIDFromDeps env b recurse st k = some r := by
  unfold getIDFromDeps
  refine Loop.exists_bind_eq_some (Loop.foldlM_eq_some_of_forall (fun p hp acc => ?_) _)
    fun acc _ => ?_
  · split
    · refine Loop.foldlM_eq_some_of_forall (fun ck hck a => ?_) _
      obtain ⟨r, hr⟩ := hrec a.2 p.1 (List.fst_mem_of_mem_zipIdx hp) ck hck
      exact ⟨_, by rw [hr]; rfl⟩
    · exact ⟨acc, rfl⟩
  · obtain ⟨matchIDs, st₁⟩ := acc
    dsimp only
    split
    · exact ⟨_, rfl⟩
    · exact ⟨_, rfl⟩

/-- By induction on the fuel: on key objects ranked along their dependencies, `getID` ends with
fuel above the rank of the key. -/
theorem exists_getID_eq_some {env : Env} {b : KeyStorage σ} {rank : Nat → Nat}
    (hrank : env.Ranked rank) (fuel : Nat) :
    ∀ (st : Manager σ) (k : Nat), rank k < fuel → ∃ r, getID env b fuel st k = some r := by
  induction fuel with
  | zero => intro st k h; omega
  | succ fuel ih =>
    intro st k hk
    rw [getID]
    split
    · exact ⟨_, rfl⟩
    · dsimp only
      split
      · exact ⟨_, rfl⟩
      · refine Loop.exists_bind_eq_some (exists_getIDFromDeps_eq_some (fun st ds hds d hd => ?_) st)
          fun _ _ => ⟨_, rfl⟩
        have := hrank k ds hds d hd
        exact ih st d.2 (by omega)

/-! ## `Query` finds the union and carries the links over -/

section Query

variable {env : Env} {b : KeyStorage σ} {fuel : Nat} {input : Index} {dgst : Digest}
  {output : Index}

/-- What the first loop of `Query`, started from the manager `st₀`, has found once it has walked
the dependency keys `done`: a `dep` for each, with the memo of its key and the IDs the links of
that ID lead to in the storage of `st₀`, and the union of these IDs without repetition. -/
structure Walked (b : KeyStorage σ) (input : Index) (dgst : Digest) (output : Index)
    (st₀ : Manager σ) (done : List (Digest × Nat)) (acc : List Dep × List String × Manager σ) :
    Prop where
  keeps : Keeps st₀ acc.2.2
  keys : acc.1.map (·.key) = done
  results : ∀ d ∈ acc.1, ∃ x, acc.2.2.ids d.key.2 = some x ∧
    d.results = b.walkLinks st₀.backend x (queryLink input dgst output d.key)
  nodup : acc.2.1.Nodup
  mem : ∀ id, id ∈ acc.2.1 ↔ ∃ d ∈ acc.1, id ∈ d.results

theorem walked_nil (st₀ : Manager σ) : Walked b input dgst output st₀ [] ([], [], st₀) :=
  ⟨.refl _, rfl, by simp, List.nodup_nil, by simp⟩

/-- A walk keeps `Walked`, once `getID` has given the ID of the dependency key. -/
theorem Walked.walkDep {st₀ : Manager σ} {done : List (Digest × Nat)}
    {acc : List Dep × List String × Manager σ} (hw : Walked b input dgst output st₀ done acc)
    {d : Digest × Nat} {r : String × Manager σ} (hr : getID env b fuel acc.2.2 d.2 = some r) :
    ∃ acc', walkDep env b fuel input dgst output acc d = some acc' ∧
      Walked b input dgst output st₀ (done ++ [d]) acc' := by
  obtain ⟨hk, hkeys, hres, hnd, hmem⟩ := hw
  obtain ⟨hk', hid⟩ := getID_spec fuel hr
  -- the walk reads the storage, which `getID` leaves alone
  have hback : r.2.backend = st₀.backend := hk'.1.trans hk.1
  let targets := b.walkLinks r.2.backend r.1 (queryLink input dgst output d)
  refine ⟨(acc.1 ++ [⟨targets, d⟩], targets.foldl (fun r id => r.insert id) acc.2.1, r.2),
    by rw [Manager.walkDep, hr]; rfl, hk.trans hk', by simp [hkeys], ?_,
    List.nodup_foldl_insert hnd _, ?_⟩
  · intro d' hd'
    rcases List.mem_append.mp hd' with hd' | hd'
    · obtain ⟨x, hx, hx'⟩ := hres d' hd'
      exact ⟨x, hk'.2 _ _ hx, hx'⟩
    · rw [List.mem_singleton] at hd'
      subst hd'
      exact ⟨r.1, hid, by show b.walkLinks r.2.backend _ _ = _; rw [hback]⟩
  · intro id
    rw [List.mem_foldl_insert, hmem]
    simp [or_and_right, exists_or]

/-- The first loop of `Query` ends, on key objects ranked along their dependencies with fuel
above the rank of every dependency key. -/
theorem exists_walkDeps {rank : Nat → Nat} (hrank : env.Ranked rank) {deps : List (Digest × Nat)}
    (hfuel : ∀ d ∈ deps, rank d.2 < fuel) (st : Manager σ) :
    ∃ acc, deps.foldlM (walkDep env b fuel input dgst output) ([], [], st) = some acc ∧
      Walked b input dgst output st deps acc :=
  Loop.foldlM_rule (Walked b input dgst output st) deps (fun done d rest acc hl hw => by
      obtain ⟨r, hr⟩ := exists_getID_eq_some (b := b) hrank fuel acc.2.2 d.2
        (hfuel d (by rw [← hl]; simp))
      exact hw.walkDep hr) (walked_nil st)

/-- Once the first loop has walked every dependency key, each has its ID. -/
theorem Walked.memo {st₀ : Manager σ} {deps : List (Digest × Nat)}
    {acc : List Dep × List String × Manager σ} (hw : Walked b input dgst output st₀ deps acc)
    {d : Digest × Nat} (hd : d ∈ deps) : ∃ x, acc.2.2.ids d.2 = some x := by
  rw [← hw.keys, List.mem_map] at hd
  obtain ⟨dep, hdep, rfl⟩ := hd
  exact (hw.results dep hdep).imp fun _ h => h.1

/-- The union the first loop finds: the IDs linked from the ID of some dependency key. -/
theorem Walked.mem_union {st₀ : Manager σ} {deps : List (Digest × Nat)}
    {acc : List Dep × List String × Manager σ} (hw : Walked b input dgst output st₀ deps acc)
    (id : String) : id ∈ acc.2.1 ↔ ∃ d ∈ deps, ∃ x, acc.2.2.ids d.2 = some x ∧
      id ∈ b.walkLinks st₀.backend x (queryLink input dgst output d) := by
  rw [hw.mem, ← hw.keys]
  constructor
  · rintro ⟨dep, hdep, hid⟩
    obtain ⟨x, hx, hr⟩ := hw.results dep hdep
    exact ⟨dep.key, List.mem_map_of_mem hdep, x, hx, hr ▸ hid⟩
  · rintro ⟨d, hd, x, hx, hid⟩
    obtain ⟨dep, hdep, rfl⟩ := List.mem_map.mp hd
    obtain ⟨x', hx', hr⟩ := hw.results dep hdep
    rw [hx] at hx'
    cases hx'
    exact ⟨dep, hdep, hr ▸ hid⟩

/-- What `carryLink` leaves once the ID of the dependency key of `d` is `x`. -/
def carried (b : KeyStorage σ) (input : Index) (dgst : Digest) (output : Index) (id : String)
    (st : Manager σ) (d : Dep) (x : String) : Manager σ :=
  if id ∈ d.results then st
  else { st with backend := b.addLink st.backend x (queryLink input dgst output d.key) id }

theorem carryLink_of_memo {st : Manager σ} {d : Dep} {x : String} (hx : st.ids d.key.2 = some x)
    (id : String) : carryLink env b (fuel + 1) input dgst output id st d =
      some (carried b input dgst output id st d x) := by
  by_cases h : id ∈ d.results <;> simp [carryLink, carried, h, getID_of_memo hx]

@[simp] theorem carried_ids (st : Manager σ) (id : String) (d : Dep) (x : String) :
    (carried b input dgst output id st d x).ids = st.ids := by
  unfold carried
  split <;> rfl

/-- A carried link is the one from the dependency key of `d` to `id`, if its walk did not find
`id`. -/
theorem mem_walkLinks_carried (hb : b.LinkLaws) {st : Manager σ} {d : Dep} {x : String}
    (hx : st.ids d.key.2 = some x) (id : String) {y : String} {l : CacheInfoLink} {t : String} :
    t ∈ b.walkLinks (carried b input dgst output id st d x).backend y l ↔
      t ∈ b.walkLinks st.backend y l ∨ (id ∉ d.results ∧ st.ids d.key.2 = some y ∧
        l = queryLink input dgst output d.key ∧ t = id) := by
  unfold carried
  by_cases h : id ∈ d.results
  · simp [h]
  · simp only [h, if_false, hb.mem_walkLinks_addLink, hx, Option.some.injEq, not_false_eq_true,
      true_and]
    rw [@eq_comm _ x y]

/-- By induction on the `dep`s: the inner loop for `id` links each dependency key whose walk did
not find `id` to it, and adds no other link. -/
theorem exists_foldlM_carryLink (hb : b.LinkLaws) (id : String) (ds : List Dep) :
    ∀ (st : Manager σ), (∀ d ∈ ds, ∃ x, st.ids d.key.2 = some x) →
      ∃ st', ds.foldlM (carryLink env b (fuel + 1) input dgst output id) st = some st' ∧
        st'.ids = st.ids ∧ ∀ y l t, t ∈ b.walkLinks st'.backend y l ↔
          t ∈ b.walkLinks st.backend y l ∨ ∃ d ∈ ds, id ∉ d.results ∧ st.ids d.key.2 = some y ∧
            l = queryLink input dgst output d.key ∧ t = id := by
  induction ds with
  | nil => intro st _; exact ⟨st, rfl, rfl, by simp⟩
  | cons d ds ih =>
    intro st hmemo
    obtain ⟨x, hx⟩ := hmemo d List.mem_cons_self
    have hids₁ : (carried b input dgst output id st d x).ids = st.ids := carried_ids st id d x
    obtain ⟨st', h', hids', hl'⟩ := ih _ fun d' hd' => hids₁ ▸ hmemo d' (List.mem_cons_of_mem d hd')
    refine ⟨st', by rw [List.foldlM_cons, carryLink_of_memo hx]; exact h', hids'.trans hids₁,
      fun y l t => ?_⟩
    rw [hl', mem_walkLinks_carried hb hx, hids₁]
    simp only [List.mem_cons, or_and_right, exists_or, exists_eq_left, or_assoc]

/-- By induction on the IDs: the second loop of `Query` links each dependency key to each ID
its walk did not find, and adds no other link. -/
theorem exists_linkMissing (hb : b.LinkLaws) (allDeps : List Dep) (ids : List String) :
    ∀ (st : Manager σ), (∀ d ∈ allDeps, ∃ x, st.ids d.key.2 = some x) →
      ∃ st', linkMissing env b (fuel + 1) input dgst output allDeps ids st = some st' ∧
        st'.ids = st.ids ∧ ∀ y l t, t ∈ b.walkLinks st'.backend y l ↔
          t ∈ b.walkLinks st.backend y l ∨ ∃ id ∈ ids, ∃ d ∈ allDeps, id ∉ d.results ∧
            st.ids d.key.2 = some y ∧ l = queryLink input dgst output d.key ∧ t = id := by
  induction ids with
  | nil => intro st _; exact ⟨st, rfl, rfl, by simp⟩
  | cons id ids ih =>
    intro st hmemo
    obtain ⟨st₁, h₁, hids₁, hl₁⟩ := exists_foldlM_carryLink hb id allDeps st hmemo
    obtain ⟨st', h', hids', hl'⟩ := ih st₁ (hids₁ ▸ hmemo)
    refine ⟨st', by rw [linkMissing, List.foldlM_cons, h₁]; exact h', hids'.trans hids₁,
      fun y l t => ?_⟩
    rw [hl', hl₁, hids₁]
    simp only [List.mem_cons, or_and_right, exists_or, exists_eq_left, or_assoc]

@[simp] theorem newKeyWithID_id (id : String) (dgst : Digest) (output : Index) :
    (newKeyWithID id dgst output).id = id := rfl

end Query

/-- Key objects without dependencies: "foo" and "content0", linked to "r0" under the digest
"sha256:res" with the selectors "sha256:sel0" and "", and "bar", linked to nothing. -/
def sublinkKeys : Nat → KeyObj
  | 0 => ⟨"foo", "sha256:foo", 0, []⟩
  | 1 => ⟨"content0", "sha256:content0", 0, []⟩
  | _ => ⟨"bar", "sha256:bar", 0, []⟩

/-- The keys of `sublinkKeys`, the loops in the stored order and the new IDs numbered. -/
def sublinkEnv : Env := ⟨sublinkKeys, IterOrder.stored, fun n => "id" ++ toString n, id⟩

theorem sublinkEnv_ranked : sublinkEnv.Ranked fun _ => 0 := by
  intro k ds hds
  -- no key object has dependencies
  have hnil : (sublinkEnv.keys k).deps = [] := by
    rcases k with _ | _ | k <;> rfl
  simp [hnil] at hds

/-- A manager over an in-memory store holding the links of "foo" and "content0". -/
def sublinkManager : Manager InMemoryStore :=
  ⟨(newInMemoryCacheStorage.addLink "foo" ⟨0, 0, "sha256:res", "sha256:sel0"⟩ "r0").addLink
    "content0" ⟨0, 0, "sha256:res", ""⟩ "r0", fun _ => none, 0⟩

/-- The second dependency key leads to "r0", and "bar" is linked to it afterwards. -/
example : (query sublinkEnv (InMemoryStore.keyStorage IterOrder.stored) 1 sublinkManager
    [("sha256:sel0", 2), ("", 1)] 0 "sha256:res" 0).map (fun r => (r.1.map CacheKey.id,
      r.2.backend.hasLink "bar" ⟨0, 0, "sha256:res", "sha256:sel0"⟩ "r0")) =
    some (["r0"], true) := by
  decide +kernel

end Manager

end Buildkit
