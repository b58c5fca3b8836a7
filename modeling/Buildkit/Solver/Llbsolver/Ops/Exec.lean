import Mathlib.Data.List.Sort
import Mathlib.Data.List.Dedup
import Mathlib.Data.String.Basic
import Buildkit.Lib.Outcome
import Buildkit.Lib.Path
import Buildkit.Solver.Pb

/-!
# The cache map of an exec op

`execOp.CacheMap` of `solver/llbsolver/ops/exec.go`. The definition key is the digest of the JSON
of the op with the IPs of the extra hosts, the selectors of the mounts and the proxy environment
blanked, on a copy made by `cloneExecOp` so that the op run later keeps them. Per input, the
selectors of its mounts give the selector of the input, and an input whose mounts are all
read-only and not the root gets a content hash over the paths `dedupePaths` keeps of them.

Two findings. `cloneExecOp` sets the mounts of the copy to nil and then copies them from the copy
itself, so that the key has no mounts at all: two ops that differ only in their mounts have one
key (`cacheMap_digest_ignores_mounts`). And `dedupePaths` drops a path that has another as a
string prefix, not only one below another: `/foobar` is dropped beside `/foo`, and the content
hash never reads it (`cacheMap_misses_sibling_selector`).

`encoding/json` is a parameter `json` on the value marshalled, `digest.FromBytes` is
`fromBytes`, and `proto.CompactTextString`, the `String` method of `pb.Mount` that `%v` prints a
mount with, is `compactTextString`. The content hash function is kept as the selectors it is
built with; its meaning, `newContentHashFunc`, takes `contenthash.Checksum` as a parameter.

The mount loop of `execOp.Exec` is kept as the results it returns, each told by the position of
the mount it is made for: a bind mount with an output, and a cache mount with an output and an
input. The calls it makes into the cache manager, the session and the secret store are taken to
succeed.
-/

namespace Buildkit

namespace Ops

/-- `execCacheType`. -/
def execCacheType : String := "buildkit.exec.v0"

/-- The anonymous struct `CacheMap` marshals for the key. -/
structure CacheInput where
  type : String
  exec : Pb.ExecOp
  os : String
  arch : String
  deriving DecidableEq, Repr

/-- `dep` of `exec.go`: the selectors of the mounts on one input, and whether a mount on it rules
out a content hash. -/
structure Dep where
  selectors : List String
  noContentBasedHash : Bool
  deriving DecidableEq, Repr

/-- One entry of the `Deps` of the cache map: the selector, and the selectors of the content hash
function if one is installed (`NewContentHashFunc(selectors)`). -/
structure CacheMapDep where
  selector : Digest
  computeDigestFunc : Option (List String)
  deriving DecidableEq, Repr

/-- The `solver.CacheMap` of an exec op. -/
structure CacheMap where
  digest : Digest
  deps : List CacheMapDep
  deriving DecidableEq, Repr

/-- `cloneExecOp`. The meta and its extra hosts are copied. `n.Mounts` is set to nil before the
loop that is to copy the mounts ranges over `n.Mounts`, so that loop copies nothing. -/
def cloneExecOp (old : Pb.ExecOp) : Outcome Pb.ExecOp := do
  let md ← Outcome.deref old.meta
  -- `n.Meta` is still the old meta while its hosts are copied
  let md := md.extraHosts.foldl (fun (m : Pb.Meta) h => { m with extraHosts := m.extraHosts ++ [h] })
    { md with extraHosts := [] }
  let n : Pb.ExecOp := { old with «meta» := some md, mounts := [] }
  pure (n.mounts.foldl (fun (n : Pb.ExecOp) m => { n with mounts := n.mounts ++ [m] }) n)

/-- The first part of `CacheMap`: the op blanked for the key, and the digest of its JSON. -/
def cacheKeyDigest (fromBytes : String → Digest) (json : CacheInput → String)
    (goos goarch : String) (e : Pb.ExecOp) : Outcome Digest := do
  let op ← cloneExecOp e
  let md ← Outcome.deref op.meta
  let md := { md with extraHosts := md.extraHosts.map fun (h : Pb.HostIP) => { h with ip := "" } }
  let op := { op with mounts := op.mounts.map fun (m : Pb.Mount) => { m with selector := "" } }
  let op := { op with «meta» := some { md with proxyEnv := none } }
  pure (fromBytes (json ⟨execCacheType, op, goos, goarch⟩))

/-- `dedupePaths`: the distinct paths that have no other one as a prefix, sorted. -/
def dedupePaths (inp : List String) : List String :=
  let old := inp.dedup
  let paths := old.filter fun p1 => !old.any fun p2 => p1 ≠ p2 && p2.toList.isPrefixOf p1.toList
  paths.insertionSort (· ≤ ·)

/-- One mount of the loop of `getMountDeps`. Only the upper bound of the input is checked, and
`deps[m.Input]` is indexed only to add a selector and to rule out a content hash. -/
def mountDep (compactTextString : Pb.Mount → String) (deps : List Dep) (m : Pb.Mount) :
    Outcome (List Dep) :=
  if m.input = Pb.empty then .ok deps
  else if m.input ≥ deps.length then .error ("invalid mountinput " ++ compactTextString m)
  else
    (if m.selector ≠ "" then
        Outcome.modifyAt deps m.input fun d =>
          { d with selectors := d.selectors ++ [Path.join ["/", m.selector]] }
      else .ok deps) >>= fun deps =>
    if !m.readonly || m.dest = Pb.rootMount then
      Outcome.modifyAt deps m.input fun d => { d with noContentBasedHash := true }
    else .ok deps

/-- `getMountDeps`, over the mounts of the op itself. -/
def getMountDeps (compactTextString : Pb.Mount → String) (numInputs : Nat) (e : Pb.ExecOp) :
    Outcome (List Dep) :=
  e.mounts.foldlM (mountDep compactTextString) (List.replicate numInputs ⟨[], false⟩)

/-- The entry of the cache map for the mounts on one input. -/
def cacheMapDep (fromBytes : String → Digest) (dep : Dep) : CacheMapDep :=
  ⟨if dep.selectors ≠ [] then fromBytes ("\x00".intercalate dep.selectors) else "",
    if !dep.noContentBasedHash then some (dedupePaths dep.selectors) else none⟩

/-- `execOp.CacheMap`, for the op `e` of a vertex with `numInputs` inputs. -/
def cacheMap (fromBytes : String → Digest) (json : CacheInput → String)
    (compactTextString : Pb.Mount → String) (goos goarch : String) (numInputs : Nat)
    (e : Pb.ExecOp) : Outcome CacheMap := do
  let dgst ← cacheKeyDigest fromBytes json goos goarch e
  let deps ← getMountDeps compactTextString numInputs e
  pure ⟨dgst, deps.map (cacheMapDep fromBytes)⟩

/-- `NewContentHashFunc(selectors)` on a result `ref`: the checksum of each selector under the
root (of the root if there is none), joined by NUL bytes and digested. -/
def newContentHashFunc {ρ : Type} (fromBytes : String → Digest)
    (checksum : ρ → String → Except String Digest) (selectors : List String) (ref : ρ) :
    Except String Digest := do
  let selectors := if selectors = [] then [""] else selectors
  let dgsts ← selectors.mapM fun sel => checksum ref (Path.join ["/", sel])
  pure (fromBytes ("\x00".intercalate dgsts))

/-! ## The key has no mounts -/

/-- The copy has the meta and hosts of the op and no mounts. -/
theorem cloneExecOp_eq (e : Pb.ExecOp) (md : Pb.Meta) (h : e.meta = some md) :
    cloneExecOp e = .ok { e with «meta» := some md, mounts := [] } := by
  have hhosts : ∀ (hs : List Pb.HostIP) (m : Pb.Meta),
      hs.foldl (fun (m : Pb.Meta) h => { m with extraHosts := m.extraHosts ++ [h] }) m =
        { m with extraHosts := m.extraHosts ++ hs } := by
    intro hs
    induction hs with
    | nil => intro m; simp
    | cons h hs ih => intro m; simp [ih]
  simp [cloneExecOp, h, hhosts]

/-- The key is the digest of the JSON of the op with the hosts' IPs and the proxy environment
blanked, and without mounts. -/
theorem cacheKeyDigest_eq (fromBytes : String → Digest) (json : CacheInput → String)
    (goos goarch : String) (e : Pb.ExecOp) (md : Pb.Meta) (h : e.meta = some md) :
    cacheKeyDigest fromBytes json goos goarch e = .ok (fromBytes (json ⟨execCacheType,
      { e with
        «meta» := some { md with
          extraHosts := md.extraHosts.map fun (h : Pb.HostIP) => { h with ip := "" }
          proxyEnv := none }
        mounts := [] }, goos, goarch⟩)) := by
  simp [cacheKeyDigest, cloneExecOp_eq e md h]

theorem cacheMap_digest {fromBytes : String → Digest} {json : CacheInput → String}
    {compactTextString : Pb.Mount → String} {goos goarch : String} {numInputs : Nat}
    {e : Pb.ExecOp} {md : Pb.Meta} {cm : CacheMap} (hm : e.meta = some md)
    (h : cacheMap fromBytes json compactTextString goos goarch numInputs e = .ok cm) :
    cm.digest = fromBytes (json ⟨execCacheType,
      { e with
        «meta» := some { md with
          extraHosts := md.extraHosts.map fun (h : Pb.HostIP) => { h with ip := "" }
          proxyEnv := none }
        mounts := [] }, goos, goarch⟩) := by
  rw [cacheMap, cacheKeyDigest_eq _ _ _ _ e md hm, Outcome.ok_bind] at h
  obtain ⟨deps, -, hpure⟩ := Outcome.bind_eq_ok.mp h
  cases hpure
  rfl

/-- Two ops that differ only in their mounts get one definition key. -/
theorem cacheMap_digest_ignores_mounts (fromBytes : String → Digest) (json : CacheInput → String)
    (compactTextString : Pb.Mount → String) (goos goarch : String) (numInputs : Nat)
    (e : Pb.ExecOp) (ms₁ ms₂ : List Pb.Mount) {cm₁ cm₂ : CacheMap}
    (h₁ : cacheMap fromBytes json compactTextString goos goarch numInputs { e with mounts := ms₁ } =
      .ok cm₁)
    (h₂ : cacheMap fromBytes json compactTextString goos goarch numInputs { e with mounts := ms₂ } =
      .ok cm₂) :
    cm₁.digest = cm₂.digest := by
  -- both succeed, so the op has a meta, and the keys are computed from it without mounts
  cases hm : e.meta with
  | none =>
    have hpanic : cacheKeyDigest fromBytes json goos goarch { e with mounts := ms₁ } =
        .panic "runtime error: invalid memory address or nil pointer dereference" := by
      simp [cacheKeyDigest, cloneExecOp, hm]
    simp [cacheMap, hpanic] at h₁
  | some md =>
    rw [cacheMap_digest (e := { e with mounts := ms₁ }) hm h₁,
      cacheMap_digest (e := { e with mounts := ms₂ }) hm h₂]

/-- Two runs of the same command that differ in the destination of their one mount. -/
theorem cacheMap_digest_ignores_mounts_dest :
    ∃ cm₁ cm₂ : CacheMap,
      cacheMap id (fun i => String.join (i.exec.mounts.map (·.dest))) (fun _ => "") "linux" "amd64" 1
        { (⟨some ⟨["make"], [], "/", "", none, []⟩, [], .unset⟩ : Pb.ExecOp) with
          mounts := [⟨0, "", "/a", 0, false, .bind, none, none, none⟩] } = .ok cm₁ ∧
      cacheMap id (fun i => String.join (i.exec.mounts.map (·.dest))) (fun _ => "") "linux" "amd64" 1
        { (⟨some ⟨["make"], [], "/", "", none, []⟩, [], .unset⟩ : Pb.ExecOp) with
          mounts := [⟨0, "", "/b", 0, false, .bind, none, none, none⟩] } = .ok cm₂ ∧
      cm₁.digest = cm₂.digest :=
  ⟨_, _, rfl, rfl, cacheMap_digest_ignores_mounts id (fun i => String.join (i.exec.mounts.map (·.dest)))
    (fun _ => "") "linux" "amd64" 1 ⟨some ⟨["make"], [], "/", "", none, []⟩, [], .unset⟩
    [⟨0, "", "/a", 0, false, .bind, none, none, none⟩] [⟨0, "", "/b", 0, false, .bind, none, none, none⟩]
    rfl rfl⟩

/-! ## The content hash misses a sibling path -/

/-- `path.Join("/", sel)` of the selectors below. -/
theorem join_selectors : Path.join ["/", "foo"] = "/foo" ∧ Path.join ["/", "foobar"] = "/foobar" ∧
    Path.join ["/", "/foo"] = "/foo" := by
  decide

/-- Of `/foo` and `/foobar`, `dedupePaths` keeps only `/foo`, which is a string prefix of the
other. -/
theorem dedupePaths_foo_foobar : dedupePaths ["/foo", "/foobar"] = ["/foo"] := by
  decide

/-- An exec op that reads `foo` and `foobar` of its one input through two read-only mounts: the
content hash it installs reads `/foo` only, so two results that agree below `/foo` get one
content key whatever they hold at `/foobar`, for any checksum that, as a Merkle checksum does,
depends only on what a path selects. -/
theorem cacheMap_misses_sibling_selector {ρ σ : Type} (fromBytes : String → Digest)
    (json : CacheInput → String) (compactTextString : Pb.Mount → String) (goos goarch : String) (md : Pb.Meta) (net : Pb.NetMode)
    (d₁ d₂ : String) (hd₁ : d₁ ≠ Pb.rootMount) (hd₂ : d₂ ≠ Pb.rootMount)
    (checksum : ρ → String → Except String Digest) (sub : ρ → String → σ)
    (hdep : ∀ r r' p, sub r p = sub r' p → checksum r p = checksum r' p)
    (r₁ r₂ : ρ) (hfoo : sub r₁ "/foo" = sub r₂ "/foo") :
    ∃ cm, cacheMap fromBytes json compactTextString goos goarch 1
        ⟨some md, [⟨0, "foo", d₁, Pb.skipOutput, true, .bind, none, none, none⟩,
          ⟨0, "foobar", d₂, Pb.skipOutput, true, .bind, none, none, none⟩], net⟩ = .ok cm ∧
      ∃ sels, cm.deps = [⟨fromBytes "/foo\x00/foobar", some sels⟩] ∧
        newContentHashFunc fromBytes checksum sels r₁ = newContentHashFunc fromBytes checksum sels r₂ := by
  obtain ⟨hj₁, hj₂, hj₃⟩ := join_selectors
  have hd₁' : d₁ ≠ "/" := hd₁
  have hd₂' : d₂ ≠ "/" := hd₂
  -- both mounts are read-only and not the root: the input keeps its content hash
  have hdeps : getMountDeps compactTextString 1 ⟨some md, [⟨0, "foo", d₁, Pb.skipOutput, true, .bind, none, none, none⟩,
      ⟨0, "foobar", d₂, Pb.skipOutput, true, .bind, none, none, none⟩], net⟩ =
      .ok [⟨["/foo", "/foobar"], false⟩] := by
    simp [getMountDeps, mountDep, Pb.empty, Pb.rootMount, hj₁, hj₂, hd₁', hd₂', List.modify]
  refine ⟨_, by rw [cacheMap, cacheKeyDigest_eq _ _ _ _ _ md rfl, Outcome.ok_bind, hdeps]; rfl,
    ["/foo"], ?_, ?_⟩
  · simp [cacheMapDep, dedupePaths_foo_foobar]
  · simp [newContentHashFunc, hj₃, hdep r₁ r₂ "/foo" hfoo]

/-- What a path selects of a tree of files given by their paths and contents: the entries at the
path and below it. -/
def selectPath (r : List (String × String)) (p : String) : List (String × String) :=
  r.filter fun e => e.1 = p ∨ (p ++ "/").toList.isPrefixOf e.1.toList

/-- A checksum that depends only on what a path selects: the contents in order. -/
def contentsChecksum (r : List (String × String)) (p : String) : Except String Digest :=
  .ok (String.join ((selectPath r p).map (·.2)))

/-- Two input trees that agree below `/foo` and differ at `/foobar`. -/
theorem cacheMap_misses_sibling_selector_trees :
    (∃ cm, cacheMap id (·.type) (fun _ => "") "linux" "amd64" 1
        ⟨some ⟨["cat", "/a", "/b"], [], "/", "", none, []⟩,
          [⟨0, "foo", "/a", Pb.skipOutput, true, .bind, none, none, none⟩,
          ⟨0, "foobar", "/b", Pb.skipOutput, true, .bind, none, none, none⟩], .unset⟩ = .ok cm ∧
      ∃ sels, cm.deps = [⟨id "/foo\x00/foobar", some sels⟩] ∧
        newContentHashFunc id contentsChecksum sels [("/foo/x", "1"), ("/foobar", "a")] =
          newContentHashFunc id contentsChecksum sels [("/foo/x", "1"), ("/foobar", "b")]) ∧
      contentsChecksum [("/foo/x", "1"), ("/foobar", "a")] "/foobar" ≠
        contentsChecksum [("/foo/x", "1"), ("/foobar", "b")] "/foobar" :=
  ⟨cacheMap_misses_sibling_selector id (·.type) (fun _ => "") "linux" "amd64" _ .unset "/a" "/b"
    (by decide) (by decide) contentsChecksum selectPath (fun r r' p h => by simp only [contentsChecksum, h])
    _ _ (by decide +kernel), by decide +kernel⟩

/-! ## What `dedupePaths` keeps

`dedupePaths` drops a path when another path of its input is a string prefix of it, and a string
prefix need not be a parent directory: `/foo` drops `/foobar` (`dedupePaths_drops_sibling`). -/

/-- `p` is below `q` as a path: it starts with `q/`, or `q` is the root and `p` is not. -/
def isBelow (p q : String) : Bool :=
  (q ++ "/").toList.isPrefixOf p.toList || (q == "/" && p != "/")

/-- What the paths left of a list are when only a parent directory covers a path: in ascending
order, the distinct paths of the list below no other path of it. -/
def uncoveredPaths (inp : List String) : List String :=
  (inp.dedup.filter fun p => !inp.any fun q => q != p && isBelow p q).insertionSort (· ≤ ·)

/-- Of `/foo` and `/foobar`, which is not below `/foo`, `dedupePaths` keeps `/foo` only, and
`/foobar` is neither kept nor below a path that is. -/
theorem dedupePaths_drops_sibling :
    dedupePaths ["/foo", "/foobar"] = ["/foo"] ∧
      uncoveredPaths ["/foo", "/foobar"] = ["/foo", "/foobar"] ∧
      ∀ r ∈ dedupePaths ["/foo", "/foobar"], r ≠ "/foobar" ∧ isBelow "/foobar" r = false := by
  decide +kernel

/-! ## The results of `Exec` -/

/-- Whether the mount loop of `execOp.Exec` adds a result to `outputs` for a mount: a bind mount
with an output, and a cache mount with an output and an input. -/
def addsOutput (m : Pb.Mount) : Bool :=
  match m.mountType with
  | .bind => m.output ≠ Pb.skipOutput
  | .cache => m.output ≠ Pb.skipOutput ∧ m.input ≠ Pb.empty
  | .tmpfs | .secret | .ssh => false

/-- One mount of the loop of `execOp.Exec` over `numInputs` inputs: the checks it makes of the
mount, and whether the mount adds a result. -/
def mountOutput (numInputs : Nat) (m : Pb.Mount) : Outcome Bool :=
  if m.dest = Pb.rootMount ∧ m.mountType ≠ .bind then
    .error ("invalid mount type " ++ m.mountType.name ++ " for " ++ m.dest)
  -- `int(m.Input) > len(inputs)` lets `len(inputs)` through to the index
  else if m.input ≠ Pb.empty ∧ m.input > numInputs then .error ("missing input " ++ toString m.input)
  else if m.input ≠ Pb.empty ∧ (m.input < 0 ∨ m.input = numInputs) then
    .panic "runtime error: index out of range"
  else if m.mountType = .cache ∧ m.cacheOpt = none then .error "missing cache mount options"
  else .ok (addsOutput m)

theorem mountOutput_eq_ok {numInputs : Nat} {m : Pb.Mount} {b : Bool}
    (h : mountOutput numInputs m = .ok b) : b = addsOutput m := by
  unfold mountOutput at h
  split at h
  · cases h
  split at h
  · cases h
  split at h
  · cases h
  split at h
  · cases h
  · cases h; rfl

/-- The mount loop of `execOp.Exec` from position `p` on: the positions of the mounts whose
results `Exec` returns, in order. -/
def mountOutputs (numInputs : Nat) : Nat → List Pb.Mount → Outcome (List Nat)
  | _, [] => pure []
  | p, m :: ms => do
    let out ← mountOutput numInputs m
    let rest ← mountOutputs numInputs (p + 1) ms
    pure (if out then p :: rest else rest)

theorem mountOutputs_cons_eq_ok {numInputs p : Nat} {m : Pb.Mount} {ms : List Pb.Mount}
    {outs : List Nat} :
    mountOutputs numInputs p (m :: ms) = .ok outs ↔ ∃ b rest, mountOutput numInputs m = .ok b ∧
      mountOutputs numInputs (p + 1) ms = .ok rest ∧ outs = if b then p :: rest else rest := by
  simp only [mountOutputs, Outcome.bind_eq_ok, Outcome.pure_eq]
  constructor
  · rintro ⟨b, hb, rest, hrest, h⟩
    exact ⟨b, rest, hb, hrest, (Outcome.ok.inj h).symm⟩
  · rintro ⟨b, rest, hb, hrest, rfl⟩
    exact ⟨b, hb, rest, hrest, rfl⟩

theorem mountOutputs_append {numInputs p : Nat} {ms ms' : List Pb.Mount} {outs : List Nat}
    (h : mountOutputs numInputs p (ms ++ ms') = .ok outs) :
    ∃ outs₁ outs₂, mountOutputs numInputs p ms = .ok outs₁ ∧
      mountOutputs numInputs (p + ms.length) ms' = .ok outs₂ ∧ outs = outs₁ ++ outs₂ := by
  induction ms generalizing p outs with
  | nil => exact ⟨[], outs, rfl, by simpa using h, rfl⟩
  | cons m ms ih =>
    obtain ⟨out, rest, hout, hrest, rfl⟩ := mountOutputs_cons_eq_ok.mp h
    obtain ⟨outs₁, outs₂, h₁, h₂, rfl⟩ := ih hrest
    refine ⟨if out then p :: outs₁ else outs₁, outs₂,
      mountOutputs_cons_eq_ok.mpr ⟨out, outs₁, hout, h₁, rfl⟩, ?_, ?_⟩
    · simpa [Nat.add_assoc, Nat.add_comm 1] using h₂
    · cases out <;> simp

/-- The result of a mount that adds one sits after the results of the mounts before it. -/
theorem mountOutputs_getElem {numInputs p : Nat} {ms ms' : List Pb.Mount} {m : Pb.Mount}
    {outs outs₁ : List Nat} (h : mountOutputs numInputs p (ms ++ m :: ms') = .ok outs)
    (h₁ : mountOutputs numInputs p ms = .ok outs₁) (hm : mountOutput numInputs m = .ok true) :
    outs[outs₁.length]? = some (p + ms.length) := by
  obtain ⟨outs₁', outs₂, h₁', h₂, rfl⟩ := mountOutputs_append h
  obtain rfl : outs₁' = outs₁ := Outcome.ok.inj (h₁'.symm.trans h₁)
  obtain ⟨out, rest, hout, -, rfl⟩ := mountOutputs_cons_eq_ok.mp h₂
  obtain rfl : out = true := Outcome.ok.inj (hout.symm.trans hm)
  simp

/-! ## Mount inputs out of range

`getMountDeps` checks only that an input is below the number of inputs, and indexes `deps` with
it only for a selector and for a mount that rules out a content hash: an input below `pb.Empty`
of a read-only mount without a selector passes with no error, and one of any other mount makes
it index out of range. `Exec` checks `int(m.Input) > len(inputs)`, and lets both an input below
zero and the input just past the last through to its index. -/

/-- A read-only bind mount without a selector on the input `input`. -/
def mountOnInput (input : Int) : Pb.Mount :=
  ⟨input, "", "/in", Pb.skipOutput, true, .bind, none, none, none⟩

/-- On an op of one input: a read-only mount without a selector on the input `-2` passes
`getMountDeps`, which indexes nothing for it, and makes the mount loop of `Exec` index out of
range; the same mount writable makes `getMountDeps` index out of range; and a mount on the input
`1` is refused by `getMountDeps` but makes the mount loop of `Exec` index out of range. -/
theorem mount_input_out_of_range_panics (compactTextString : Pb.Mount → String) :
    getMountDeps compactTextString 1 ⟨none, [mountOnInput (-2)], .unset⟩ = .ok [⟨[], false⟩] ∧
      mountOutputs 1 0 [mountOnInput (-2)] = .panic "runtime error: index out of range" ∧
      getMountDeps compactTextString 1 ⟨none, [{ mountOnInput (-2) with readonly := false }], .unset⟩ =
        .panic "runtime error: index out of range" ∧
      getMountDeps compactTextString 1 ⟨none, [mountOnInput 1], .unset⟩ =
        .error ("invalid mountinput " ++ compactTextString (mountOnInput 1)) ∧
      mountOutputs 1 0 [mountOnInput 1] = .panic "runtime error: index out of range" :=
  ⟨rfl, by decide, rfl, rfl, by decide⟩

end Ops

end Buildkit
