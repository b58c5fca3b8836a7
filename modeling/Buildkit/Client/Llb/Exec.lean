import Mathlib.Data.List.Sort
import Buildkit.Solver.Llbsolver.Ops.Exec

/-!
# The outputs of a client exec op

`ExecOp` of `client/llb/exec.go`: the mounts a client adds to an exec, the output index
`getMountIndexFn` gives the output of a mount, and the mounts `Marshal` writes into the
`pb.ExecOp`. Three loops number the outputs of an exec, each over the mounts sorted by target.
`Marshal` numbers the mounts that are writable and neither a cache nor a tmpfs mount `0, 1, ...`,
and the mount loop of the daemon (`Ops.mountOutputs`) returns the
result of each of them at that number. `getMountIndexFn` skips only the read-only and the cache
mounts, so that a writable tmpfs mount sorted before a mount moves its index one up
(`getMountIndexFn_counts_tmpfs`): a later op that reads the output is given the result of the
next mount, or none.

A mount stands for the pointer of the Go code by `ref`, the order in which it was added; the
source of a mount is what its `ToInput` gives. The metadata, capabilities and constraints that
`Marshal` writes beside the mounts are left out.
-/

namespace Buildkit

namespace Client

/-- `CacheMountSharingMode`. -/
inductive CacheMountSharingMode
  | shared
  | «private»
  | locked
  deriving DecidableEq, Repr

/-- The sharing option `Marshal` writes for a cache mount. -/
def CacheMountSharingMode.toPb : CacheMountSharingMode → Pb.CacheSharingOpt
  | .shared => .shared
  | .private => .private
  | .locked => .locked

/-- `mount`: `source` is what `source.ToInput(c)` gives, for a mount with a source, and `ref`
tells two mounts apart as their pointers do. -/
structure Mount where
  target : String
  readonly : Bool
  source : Option (Except String Pb.Input)
  selector : String
  cacheID : String
  tmpfs : Bool
  cacheSharing : CacheMountSharingMode
  ref : Nat
  deriving DecidableEq, Repr

/-- `SecretInfo`, and `SSHInfo`, which has the same fields. -/
structure SecretInfo where
  id : String
  target : String
  mode : Nat
  uid : Nat
  gid : Nat
  optional : Bool
  deriving DecidableEq, Repr

/-- The options of `AddMount`: `Readonly`, `SourcePath`, `AsPersistentCacheDir` and `Tmpfs`. -/
inductive MountOption
  | readonly
  | sourcePath (src : String)
  | asPersistentCacheDir (id : String) (sharing : CacheMountSharingMode)
  | tmpfs
  deriving DecidableEq, Repr

/-- What a `MountOption` sets of a mount. -/
def MountOption.apply (m : Mount) : MountOption → Mount
  | .readonly => { m with readonly := true }
  | .sourcePath src => { m with selector := src }
  | .asPersistentCacheDir id sharing => { m with cacheID := id, cacheSharing := sharing }
  | .tmpfs => { m with tmpfs := true }

/-- An `ExecOp`, by its mounts in the order they were added and its secret and SSH mounts. The
pointers of the mounts are their positions. -/
structure ExecOp where
  mounts : List Mount
  secrets : List SecretInfo
  ssh : List SecretInfo
  refs : mounts.map (·.ref) = List.range mounts.length

/-- The `Output` a mount gives: its source for a read-only mount, an error for a tmpfs mount,
and otherwise an output of the exec whose index `getMountIndexFn` gives. -/
inductive MountOutput
  | source (src : Option (Except String Pb.Input))
  | error (msg : String)
  | index (m : Mount)
  deriving DecidableEq, Repr

/-- The output `AddMount` and `NewExecOp` give a mount. -/
def mountOutput (m : Mount) : MountOutput :=
  if m.readonly then .source m.source
  else if m.tmpfs then .error ("tmpfs mount for " ++ m.target ++ " can't be used as a parent")
  else .index m

@[simp] theorem MountOption.ref_apply (m : Mount) (o : MountOption) : (o.apply m).ref = m.ref := by
  cases o <;> rfl

theorem ref_foldl_apply (opt : List MountOption) (m : Mount) :
    (opt.foldl MountOption.apply m).ref = m.ref := by
  induction opt generalizing m with
  | nil => rfl
  | cons o opt ih => rw [List.foldl_cons, ih, MountOption.ref_apply]

/-- `NewExecOp`: the root mount. -/
def newExecOp (root : Option (Except String Pb.Input)) (readOnly : Bool) : ExecOp × MountOutput :=
  let rootMount : Mount := ⟨Pb.rootMount, readOnly, root, "", "", false, .shared, 0⟩
  (⟨[rootMount], [], [], rfl⟩, mountOutput rootMount)

/-- `ExecOp.AddMount`. -/
def ExecOp.addMount (e : ExecOp) (target : String) (source : Option (Except String Pb.Input))
    (opt : List MountOption) : ExecOp × MountOutput :=
  let m := opt.foldl MountOption.apply ⟨target, false, source, "", "", false, .shared, e.mounts.length⟩
  (⟨e.mounts ++ [m], e.secrets, e.ssh, by simp [m, e.refs, ref_foldl_apply, List.range_succ]⟩,
    mountOutput m)

/-- The mounts sorted by target, as `sort.Slice` leaves them. -/
def sortMounts (ms : List Mount) : List Mount := ms.insertionSort fun a b => a.target ≤ b.target

/-! ## `getMountIndexFn` -/

/-- The mounts the loop of `getMountIndexFn` passes over. -/
def Mount.skipped (m : Mount) : Bool := m.readonly || m.cacheID != ""

/-- The loop of `getMountIndexFn` over the sorted mounts, with `i` the mounts counted so far. -/
def mountIndexGo (m : Mount) : Nat → List Mount → Except String Int
  | _, [] => .error ("invalid mount: " ++ m.target)
  | i, m2 :: ms =>
    if m2.skipped then mountIndexGo m i ms
    else if m.ref = m2.ref then .ok i
    else mountIndexGo m (i + 1) ms

/-- `ExecOp.getMountIndexFn`: the output index of mount `m` of the op. -/
def getMountIndexFn (e : ExecOp) (m : Mount) : Except String Int :=
  mountIndexGo m 0 (sortMounts e.mounts)

/-! ## The mounts of `Marshal` -/

/-- The mounts `Marshal` gives an output index. -/
def Mount.hasOutput (m : Mount) : Bool := !m.readonly && m.cacheID == "" && !m.tmpfs

/-- What the mount loop of `Marshal` carries: the inputs of the op so far and the next output
index. -/
structure MarshalState where
  inputs : List Pb.Input
  outIndex : Nat
  deriving DecidableEq, Repr

/-- The input index of a mount, with the inputs of the op after it: the first equal input, or
a new one. -/
def MarshalState.addInput (st : MarshalState) (inp : Pb.Input) : List Pb.Input × Int :=
  match st.inputs.idxOf? inp with
  | some i => (st.inputs, i)
  | none => (st.inputs ++ [inp], st.inputs.length)

/-- The input index of a mount, with the inputs of the op after it. -/
def MarshalState.mountInput (st : MarshalState) (m : Mount) : Except String (List Pb.Input × Int) :=
  match m.source with
  | some src =>
    if m.tmpfs then .error "tmpfs mounts must use scratch"
    else do
      let inp ← src
      pure (st.addInput inp)
  | none => pure (st.inputs, Pb.empty)

/-- One mount of the loop of `Marshal`. -/
def marshalMount (st : MarshalState) (m : Mount) : Except String (MarshalState × Pb.Mount) := do
  let (inputs, inputIndex) ← st.mountInput m
  let (outputIndex, outIndex) :=
    if m.hasOutput then ((st.outIndex : Int), st.outIndex + 1) else (Pb.skipOutput, st.outIndex)
  -- a tmpfs mount with a cache id is written as a tmpfs mount that keeps its cache options
  let mountType := if m.tmpfs then Pb.MountType.tmpfs else if m.cacheID ≠ "" then .cache else .bind
  let cacheOpt := if m.cacheID ≠ "" then some ⟨m.cacheID, m.cacheSharing.toPb⟩ else none
  pure (⟨inputs, outIndex⟩,
    ⟨inputIndex, m.selector, m.target, outputIndex, m.readonly, mountType, cacheOpt, none, none⟩)

/-- The loop of `Marshal` over the sorted mounts. -/
def marshalMountsGo : MarshalState → List Mount → Except String (MarshalState × List Pb.Mount)
  | st, [] => .ok (st, [])
  | st, m :: ms => do
    let (st, pm) ← marshalMount st m
    let (st, pms) ← marshalMountsGo st ms
    pure (st, pm :: pms)

/-- A secret mount: it is written without an input index, that is with input `0`. -/
def secretMount (s : SecretInfo) : Pb.Mount :=
  ⟨0, "", s.target, 0, false, .secret, none, some ⟨s.id, s.uid, s.gid, s.mode, s.optional⟩, none⟩

/-- An SSH mount, at `/run/buildkit/ssh_agent.<i>` if it has no target. -/
def sshMount (i : Nat) (s : SecretInfo) : Pb.Mount :=
  let target := if s.target = "" then "/run/buildkit/ssh_agent." ++ toString i else s.target
  ⟨0, "", target, 0, false, .ssh, none, none, some ⟨s.id, s.uid, s.gid, s.mode, s.optional⟩⟩

/-- The inputs and the mounts `Marshal` writes into the `pb.Op` of an exec. -/
def marshalMounts (e : ExecOp) : Except String (List Pb.Input × List Pb.Mount) := do
  let (st, pms) ← marshalMountsGo ⟨[], 0⟩ (sortMounts e.mounts)
  pure (st.inputs, pms ++ e.secrets.map secretMount ++ e.ssh.mapIdx sshMount)

/-! ## The index of a mount -/

theorem ExecOp.nodup_refs (e : ExecOp) : (e.mounts.map (·.ref)).Nodup :=
  e.refs ▸ List.nodup_range

theorem sortMounts_perm (ms : List Mount) : (sortMounts ms).Perm ms :=
  List.perm_insertionSort _ ms

/-- A mount sorted after `pre` is not one of them. -/
theorem ref_not_mem_of_sortMounts {e : ExecOp} {pre post : List Mount} {m : Mount}
    (h : sortMounts e.mounts = pre ++ m :: post) : m.ref ∉ pre.map (·.ref) := by
  have hnd : ((pre ++ m :: post).map (·.ref)).Nodup :=
    h ▸ ((sortMounts_perm e.mounts).map _).nodup_iff.mpr e.nodup_refs
  rw [List.map_append, List.map_cons] at hnd
  exact fun hm => List.disjoint_of_nodup_append hnd hm List.mem_cons_self

/-- The loop of `getMountIndexFn` counts the mounts before `m` that it does not pass over. -/
theorem mountIndexGo_append {m : Mount} (hm : m.skipped = false) (post : List Mount) :
    ∀ {pre : List Mount} (i : Nat), m.ref ∉ pre.map (·.ref) →
      mountIndexGo m i (pre ++ m :: post) = .ok (i + (pre.filter (!·.skipped)).length)
  | [], i, _ => by simp [mountIndexGo, hm]
  | m2 :: pre, i, hne => by
    have hne' : m.ref ≠ m2.ref := fun h => hne (h ▸ List.mem_cons_self)
    have hpre : m.ref ∉ pre.map (·.ref) := fun h => hne (List.mem_cons_of_mem _ h)
    cases hs : m2.skipped with
    | true => simp [mountIndexGo, hs, mountIndexGo_append hm post i hpre]
    | false =>
      simp only [List.cons_append, mountIndexGo, hs, hne', if_false, Bool.false_eq_true,
        mountIndexGo_append hm post (i + 1) hpre, List.filter_cons, Bool.not_false, if_true,
        List.length_cons]
      congr 1
      omega

theorem getMountIndexFn_eq {e : ExecOp} {pre post : List Mount} {m : Mount}
    (h : sortMounts e.mounts = pre ++ m :: post) (hm : m.skipped = false) :
    getMountIndexFn e m = .ok (pre.filter (!·.skipped)).length := by
  rw [getMountIndexFn, h, mountIndexGo_append hm post 0 (ref_not_mem_of_sortMounts h)]
  simp

theorem Mount.hasOutput_eq (m : Mount) : m.hasOutput = (!m.skipped && !m.tmpfs) := by
  simp [Mount.hasOutput, Mount.skipped, bne]

/-- The mounts `getMountIndexFn` counts are those with an output and the writable tmpfs mounts. -/
theorem length_filter_not_skipped (ms : List Mount) :
    (ms.filter (!·.skipped)).length =
      (ms.filter (·.hasOutput)).length + (ms.filter fun m => !m.skipped && m.tmpfs).length := by
  induction ms with
  | nil => rfl
  | cons m ms ih =>
    simp only [List.filter_cons, Mount.hasOutput_eq m]
    cases m.skipped <;> cases m.tmpfs <;> simp [ih] <;> omega

/-! ## The output indices of `Marshal` -/

/-- What one mount of `Marshal` writes of the outputs: the next output index for a mount with an
output, which it then moves on, and `SkipOutput` for the others. -/
theorem marshalMount_spec {st st' : MarshalState} {m : Mount} {pm : Pb.Mount}
    (h : marshalMount st m = .ok (st', pm)) :
    st'.outIndex = st.outIndex + (if m.hasOutput then 1 else 0) ∧
      pm.output = (if m.hasOutput then (st.outIndex : Int) else Pb.skipOutput) ∧
      pm.dest = m.target ∧
      pm.mountType = (if m.tmpfs then .tmpfs else if m.cacheID ≠ "" then .cache else .bind) := by
  rw [marshalMount] at h
  obtain ⟨⟨inputs, inputIndex⟩, -, h⟩ := Outcome.except_bind_eq_ok.mp h
  cases hout : m.hasOutput <;> simp only [hout] at h <;> cases h <;> simp

theorem marshalMountsGo_cons_eq_ok {st st' : MarshalState} {m : Mount} {ms : List Mount}
    {pms : List Pb.Mount} :
    marshalMountsGo st (m :: ms) = .ok (st', pms) ↔ ∃ st₁ pm rest,
      marshalMount st m = .ok (st₁, pm) ∧ marshalMountsGo st₁ ms = .ok (st', rest) ∧
        pms = pm :: rest := by
  constructor
  · intro h
    rw [marshalMountsGo] at h
    obtain ⟨⟨st₁, pm⟩, hm, h⟩ := Outcome.except_bind_eq_ok.mp h
    obtain ⟨⟨st₂, rest⟩, hrest, h⟩ := Outcome.except_bind_eq_ok.mp h
    cases h
    exact ⟨st₁, pm, rest, hm, hrest, rfl⟩
  · rintro ⟨st₁, pm, rest, hm, hrest, rfl⟩
    rw [marshalMountsGo]
    exact Outcome.except_bind_eq_ok.mpr ⟨_, hm, Outcome.except_bind_eq_ok.mpr ⟨_, hrest, rfl⟩⟩

theorem marshalMountsGo_append {st st' : MarshalState} {ms ms' : List Mount} {pms : List Pb.Mount}
    (h : marshalMountsGo st (ms ++ ms') = .ok (st', pms)) :
    ∃ st₁ pms₁ pms₂, marshalMountsGo st ms = .ok (st₁, pms₁) ∧
      marshalMountsGo st₁ ms' = .ok (st', pms₂) ∧ pms = pms₁ ++ pms₂ := by
  induction ms generalizing st pms with
  | nil => exact ⟨st, [], pms, rfl, h, rfl⟩
  | cons m ms ih =>
    obtain ⟨st₁, pm, rest, hm, hrest, rfl⟩ := marshalMountsGo_cons_eq_ok.mp h
    obtain ⟨st₂, pms₁, pms₂, h₁, h₂, rfl⟩ := ih hrest
    exact ⟨st₂, pm :: pms₁, pms₂, marshalMountsGo_cons_eq_ok.mpr ⟨st₁, pm, pms₁, hm, h₁, rfl⟩,
      h₂, rfl⟩

/-- The loop of `Marshal` writes a mount per mount and moves the output index on by the mounts
with an output. -/
theorem marshalMountsGo_spec {st st' : MarshalState} {ms : List Mount} {pms : List Pb.Mount}
    (h : marshalMountsGo st ms = .ok (st', pms)) :
    pms.length = ms.length ∧ st'.outIndex = st.outIndex + (ms.filter (·.hasOutput)).length := by
  induction ms generalizing st pms with
  | nil => cases h; simp
  | cons m ms ih =>
    obtain ⟨st₁, pm, rest, hm, hrest, rfl⟩ := marshalMountsGo_cons_eq_ok.mp h
    obtain ⟨hlen, hout⟩ := ih hrest
    obtain ⟨hidx, -⟩ := marshalMount_spec hm
    refine ⟨by simp [hlen], ?_⟩
    rw [hout, hidx]
    cases ho : m.hasOutput
    · simp [ho]
    · simp [ho]
      omega

/-! ## The results of the daemon -/

/-- The daemon adds a result for a mount of `Marshal` exactly when it has an output. -/
theorem addsOutput_of_marshalMount {st st' : MarshalState} {m : Mount} {pm : Pb.Mount}
    (h : marshalMount st m = .ok (st', pm)) : Ops.addsOutput pm = m.hasOutput := by
  obtain ⟨-, hout, -, htype⟩ := marshalMount_spec h
  have hskip : ((st.outIndex : Nat) : Int) ≠ Pb.skipOutput := by unfold Pb.skipOutput; omega
  -- the mount type tells which of the three kinds of mount `Marshal` wrote
  by_cases ht : m.tmpfs
  · simp [Ops.addsOutput, htype, ht, Mount.hasOutput]
  by_cases hc : m.cacheID = ""
  · cases hr : m.readonly <;> simp_all [Ops.addsOutput, Mount.hasOutput]
  · simp_all [Ops.addsOutput, Mount.hasOutput]

/-- Over the mounts of `Marshal`, the daemon's loop returns one result per mount with an output. -/
theorem length_mountOutputs_of_marshal {st st' : MarshalState} {ms : List Mount}
    {pms : List Pb.Mount} {numInputs p : Nat} {outs : List Nat}
    (h : marshalMountsGo st ms = .ok (st', pms)) (ho : Ops.mountOutputs numInputs p pms = .ok outs) :
    outs.length = (ms.filter (·.hasOutput)).length := by
  induction ms generalizing st pms p outs with
  | nil => cases h; cases ho; rfl
  | cons m ms ih =>
    obtain ⟨st₁, pm, rest, hm, hrest, rfl⟩ := marshalMountsGo_cons_eq_ok.mp h
    obtain ⟨b, outs', hb, hrest', rfl⟩ := Ops.mountOutputs_cons_eq_ok.mp ho
    have hlen := ih hrest hrest'
    rw [Ops.mountOutput_eq_ok hb, addsOutput_of_marshalMount hm]
    cases ho : m.hasOutput <;> simp [ho, hlen]

/-- End to end, over the sorted mounts `pre ++ m :: post` of an exec: `Marshal` writes `m` at
its position, the daemon returns the result for `m` at the output index written for it, and
`getMountIndexFn` reports that index moved up by the writable tmpfs mounts before `m`. -/
theorem getMountIndexFn_counts_tmpfs (e : ExecOp) (pre post : List Mount) (m : Mount)
    (hs : sortMounts e.mounts = pre ++ m :: post) (hm : m.hasOutput = true)
    {inputs : List Pb.Input} {pms : List Pb.Mount} (h : marshalMounts e = .ok (inputs, pms)) :
    ∃ pm, pms[pre.length]? = some pm ∧ pm.dest = m.target ∧
      (∀ outs, Ops.mountOutputs inputs.length 0 pms = .ok outs →
        outs[pm.output.toNat]? = some pre.length) ∧
      getMountIndexFn e m =
        .ok (pm.output + (pre.filter fun m2 => !m2.skipped && m2.tmpfs).length) := by
  rw [marshalMounts] at h
  obtain ⟨⟨st, pmsm⟩, hgo, h⟩ := Outcome.except_bind_eq_ok.mp h
  cases h
  rw [hs] at hgo
  obtain ⟨st₁, pms₁, pms₂, h₁, h₂, rfl⟩ := marshalMountsGo_append hgo
  obtain ⟨st₂, pm, rest, hpm, -, rfl⟩ := marshalMountsGo_cons_eq_ok.mp h₂
  obtain ⟨hlen₁, hidx₁⟩ := marshalMountsGo_spec h₁
  obtain ⟨-, hout, hdest, htype⟩ := marshalMount_spec hpm
  have hpmout : pm.output = ((pre.filter (·.hasOutput)).length : Int) := by
    simp [hout, hm, hidx₁]
  have hskipped : m.skipped = false := by
    simp only [Mount.hasOutput, Bool.and_eq_true, Bool.not_eq_true', beq_iff_eq] at hm
    simp [Mount.skipped, hm.1.1, hm.1.2]
  refine ⟨pm, by simp [List.append_assoc, ← hlen₁], hdest, ?_, ?_⟩
  · -- the daemon adds a result for `m`, after one for each mount with an output before it
    intro outs ho
    simp only [List.append_assoc, List.cons_append] at ho
    obtain ⟨outs₁, outs₂, hpre, hrest, -⟩ := Ops.mountOutputs_append ho
    obtain ⟨b, -, hb, -, -⟩ := Ops.mountOutputs_cons_eq_ok.mp hrest
    obtain rfl : b = true := by rw [Ops.mountOutput_eq_ok hb, addsOutput_of_marshalMount hpm, hm]
    have hget := Ops.mountOutputs_getElem ho hpre hb
    rw [length_mountOutputs_of_marshal h₁ hpre, Nat.zero_add, hlen₁] at hget
    simpa [hpmout] using hget
  · rw [getMountIndexFn_eq hs hskipped, hpmout, length_filter_not_skipped]
    simp

/-- An exec with its root on an input, a tmpfs mount at `/a` and a writable scratch mount at
`/b`. -/
def scratchAfterTmpfs : ExecOp :=
  (((newExecOp (some (.ok ⟨"sha256:base", 0⟩)) false).1.addMount "/a" none [.tmpfs]).1.addMount
    "/b" none []).1

/-- The output of `/b` is the second result of the exec, and the index the client gives it is
`2`, past the two results there are. -/
theorem getMountIndexFn_counts_tmpfs_scratch :
    (∃ pm, [(⟨0, "", "/", 0, false, .bind, none, none, none⟩ : Pb.Mount),
          ⟨Pb.empty, "", "/a", Pb.skipOutput, false, .tmpfs, none, none, none⟩,
          ⟨Pb.empty, "", "/b", 1, false, .bind, none, none, none⟩][2]? = some pm ∧
        pm.dest = "/b" ∧
        (∀ outs, Ops.mountOutputs 1 0 [⟨0, "", "/", 0, false, .bind, none, none, none⟩,
            ⟨Pb.empty, "", "/a", Pb.skipOutput, false, .tmpfs, none, none, none⟩,
            ⟨Pb.empty, "", "/b", 1, false, .bind, none, none, none⟩] = .ok outs →
          outs[pm.output.toNat]? = some 2) ∧
        getMountIndexFn scratchAfterTmpfs ⟨"/b", false, none, "", "", false, .shared, 2⟩ =
          .ok (pm.output + (([⟨"/", false, some (.ok ⟨"sha256:base", 0⟩), "", "", false, .shared, 0⟩,
            ⟨"/a", false, none, "", "", true, .shared, 1⟩] : List Mount).filter
              fun m2 => !m2.skipped && m2.tmpfs).length)) ∧
      Ops.mountOutputs 1 0 [⟨0, "", "/", 0, false, .bind, none, none, none⟩,
          ⟨Pb.empty, "", "/a", Pb.skipOutput, false, .tmpfs, none, none, none⟩,
          ⟨Pb.empty, "", "/b", 1, false, .bind, none, none, none⟩] = .ok [0, 2] ∧
      getMountIndexFn scratchAfterTmpfs ⟨"/b", false, none, "", "", false, .shared, 2⟩ = .ok 2 :=
  ⟨@getMountIndexFn_counts_tmpfs scratchAfterTmpfs
    [⟨"/", false, some (.ok ⟨"sha256:base", 0⟩), "", "", false, .shared, 0⟩,
      ⟨"/a", false, none, "", "", true, .shared, 1⟩] [] ⟨"/b", false, none, "", "", false, .shared, 2⟩
    (by decide +kernel) rfl [⟨"sha256:base", 0⟩] _ (by decide +kernel), by decide +kernel,
    by decide +kernel⟩

end Client

end Buildkit
