import Mathlib.Data.List.AList
import Buildkit.Lib.Path

/-!
# The mounts of an OCI spec

`GenerateSpec` of `executor/oci/spec_unix.go`, from the spec's first mounts on. For each mount of
the exec it obtains a mountable from the mount's source and mounts it, then adds an entry for
each of its mounts under the exec mount's destination. Each entry goes through
`submounts.subMount`, which makes one local bind mount for each mount descriptor, found by its
hash, and resolves the selector inside it. A failure returns an error. All but the first two
run `releaseAll` first. That is the function `GenerateSpec` returns on success: it unmounts the
local mounts and releases the mountables.

On success the `releaseAll` returned cleans up everything (`generateSpec_releaseAll_cleans`).
Every error cleans up too, as long as no mount has a nil source and no mountable fails to mount
(`generateSpec_error_cleans`).
A nil source returns before any cleanup. A mountable that fails to mount is never released. A
hash that fails, or a selector that fails to resolve in a local mount made before, gives an empty
mount and no error, and the spec gets an entry with an empty source
(`generateSpec_leaks_or_empty_source`).

Representation. What the calls out of `GenerateSpec` return is a parameter, `Env`, so any
failure pattern can be given. A mountable is named by a number. What the world sees of a run,
the mountables and local mounts made and taken down, is recorded in `Effects`. The rest of the
spec (process, hostname, namespaces) is left out.
-/

namespace Buildkit

namespace Oci

/-- `mount.Mount` of containerd. -/
structure Mount where
  type : String
  source : String
  options : List String
  deriving DecidableEq, Repr

/-- `mount.Mount{}`. -/
def Mount.empty : Mount := ⟨"", "", []⟩

/-- `specs.Mount`, an entry of the spec's mounts. -/
structure SpecMount where
  destination : String
  type : String
  source : String
  options : List String
  deriving DecidableEq, Repr

/-- `executor.Mount`; its source `Src` is named by a number, and is `none` when nil. -/
structure ExecMount where
  src : Option Nat
  selector : String
  dest : String
  readonly : Bool
  deriving DecidableEq, Repr

/-- What the calls `GenerateSpec` makes return. -/
structure Env where
  /-- `Src.Mount(ctx, readonly)`: a mountable. -/
  srcMount : Nat → Bool → Except String Nat
  /-- `Mount()` of a mountable. -/
  mountableMount : Nat → Except String (List Mount)
  /-- `hashstructure.Hash` of a mount. -/
  hash : Mount → Option UInt64
  /-- `Mount()` of `snapshot.LocalMounterWithMounts` of one mount: its mount point. -/
  localMount : Mount → Except String String
  /-- `fs.RootPath(root, path)`. -/
  rootPath : String → String → Except String String

/-- What is seen of `GenerateSpec` outside it: the mountables obtained and released, the local
mounts made (descriptor and mount point) and unmounted. -/
structure Effects where
  obtained : List Nat
  released : List Nat
  mounted : List (Mount × String)
  unmounted : List String
  deriving DecidableEq, Repr

/-- Nothing done yet. -/
def Effects.empty : Effects := ⟨[], [], [], []⟩

/-- `mountRef`: a local mount's bind mount, and the mount point its `unmount` takes down. -/
structure MountRef where
  mount : Mount
  mountPoint : String
  deriving DecidableEq, Repr

/-- `submounts.m`: the local mounts by the hash of their descriptor. -/
abbrev Submounts := AList (fun _ : UInt64 => MountRef)

/-- `sub`: the mount with its source resolved under `subPath`. -/
def sub (env : Env) (m : Mount) (subPath : String) : Except String Mount :=
  (env.rootPath m.source subPath).map fun src => { m with source := src }

/-- The options of a local bind mount: `rbind`, then each `ro` of the mount's options. -/
def bindOptions (m : Mount) : List String := "rbind" :: m.options.filter (· == "ro")

/-- `submounts.subMount`: the mount itself for a selector at the root; otherwise the selector
resolved in the local mount of the mount's descriptor, made on first use. A failed hash, and a
failed resolution in a local mount made before, give `mount.Mount{}` and no error. -/
def subMount (env : Env) (sm : Submounts) (m : Mount) (subPath : String) (e : Effects) :
    Except String Mount × Submounts × Effects :=
  if Path.join ["/", subPath] = "/" then (.ok m, sm, e)
  else
    match env.hash m with
    | none => (.ok .empty, sm, e)
    | some h =>
      match sm.lookup h with
      | some mr =>
        match sub env mr.mount subPath with
        | .ok m' => (.ok m', sm, e)
        | .error _ => (.ok .empty, sm, e)
      | none =>
        match env.localMount m with
        | .error err => (.error err, sm, e)
        | .ok mp =>
          let mr : MountRef := ⟨⟨"bind", mp, bindOptions m⟩, mp⟩
          (sub env mr.mount subPath, sm.insert h mr, { e with mounted := e.mounted ++ [(m, mp)] })

/-- The mount points of the local mounts. -/
def mountPoints (sm : Submounts) : List String := sm.entries.map fun x => x.2.mountPoint

/-- `submounts.cleanup`: every local mount unmounted. The source unmounts them in parallel, so
the order does not matter. -/
def cleanup (sm : Submounts) (e : Effects) : Effects :=
  { e with unmounted := e.unmounted ++ mountPoints sm }

/-- `releaseAll`: the local mounts unmounted, then the mountables released in order. -/
def releaseAll (sm : Submounts) (releasers : List Nat) (e : Effects) : Effects :=
  let e := cleanup sm e
  { e with released := e.released ++ releasers }

/-- The state of `GenerateSpec`'s loop: `sm`, `releasers`, and the spec's mounts so far. -/
structure Gen where
  sm : Submounts
  releasers : List Nat
  mounts : List SpecMount

/-- The loop over the mounts of one mountable. Each becomes a submount of the exec mount's
selector and is added to the spec under the exec mount's destination. A failure runs
`releaseAll`. -/
def addMounts (env : Env) (m : ExecMount) : List Mount → Gen → Effects → Except String Gen × Effects
  | [], g, e => (.ok g, e)
  | mnt :: rest, g, e =>
    match subMount env g.sm mnt m.selector e with
    | (.error err, sm, e') => (.error err, releaseAll sm g.releasers e')
    | (.ok mnt', sm, e') =>
      addMounts env m rest
        { g with sm, mounts := g.mounts ++ [⟨m.dest, mnt'.type, mnt'.source, mnt'.options⟩] } e'

/-- One exec mount: its mountable is obtained and mounted, and its mounts are added. A nil
source returns at once. A failure of `Src.Mount` or of the mountable's `Mount` runs `releaseAll`
of the releasers there are; the mountable becomes a releaser only once it is mounted. -/
def addExecMount (env : Env) (m : ExecMount) (g : Gen) (e : Effects) : Except String Gen × Effects :=
  match m.src with
  | none => (.error ("mount " ++ m.dest ++ " has no source"), e)
  | some src =>
    match env.srcMount src m.readonly with
    | .error err =>
      (.error ("failed to mount " ++ m.dest ++ ": " ++ err), releaseAll g.sm g.releasers e)
    | .ok mountable =>
      let e := { e with obtained := e.obtained ++ [mountable] }
      match env.mountableMount mountable with
      | .error err => (.error err, releaseAll g.sm g.releasers e)
      | .ok mnts => addMounts env m mnts { g with releasers := g.releasers ++ [mountable] } e

/-- The loop over the exec mounts, up to the first error. -/
def addExecMounts (env : Env) : List ExecMount → Gen → Effects → Except String Gen × Effects
  | [], g, e => (.ok g, e)
  | m :: ms, g, e =>
    match addExecMount env m g e with
    | (.ok g', e') => addExecMounts env ms g' e'
    | (.error err, e') => (.error err, e')

/-- `GenerateSpec` from the spec's first mounts `base` on (`resolv.conf`, `hosts` and the cgroup
mount): the spec's mounts and the `releaseAll` it returns, or its error. -/
def generateSpec (env : Env) (base : List SpecMount) (mounts : List ExecMount) (e : Effects) :
    Except String (List SpecMount × (Effects → Effects)) × Effects :=
  match addExecMounts env mounts ⟨∅, [], base⟩ e with
  | (.ok g, e') => (.ok (g.mounts, releaseAll g.sm g.releasers), e')
  | (.error err, e') => (.error err, e')

/-! ## What `subMount` does to the local mounts -/

/-- `subMount` leaves the local mounts as they are, or makes one new local mount, of a
descriptor whose hash has none yet. -/
theorem subMount_cases {env : Env} {sm sm' : Submounts} {m : Mount} {sel : String}
    {e e' : Effects} {r : Except String Mount} (h : subMount env sm m sel e = (r, sm', e')) :
    (sm' = sm ∧ e' = e) ∨
      ∃ hm mp, env.hash m = some hm ∧ sm.lookup hm = none ∧
        sm' = sm.insert hm ⟨⟨"bind", mp, bindOptions m⟩, mp⟩ ∧
        e' = { e with mounted := e.mounted ++ [(m, mp)] } := by
  unfold subMount at h
  split at h
  · cases h
    exact .inl ⟨rfl, rfl⟩
  split at h
  · cases h
    exact .inl ⟨rfl, rfl⟩
  next hm hhash =>
    split at h
    · split at h <;> (cases h; exact .inl ⟨rfl, rfl⟩)
    next hlook =>
      split at h
      · cases h
        exact .inl ⟨rfl, rfl⟩
      next mp _ =>
        cases h
        exact .inr ⟨hm, mp, hhash, hlook, rfl, rfl⟩

theorem mountPoints_empty : mountPoints ∅ = [] := rfl

theorem mountPoints_insert {sm : Submounts} {hm : UInt64} (h : hm ∉ sm) (mr : MountRef) :
    mountPoints (sm.insert hm mr) = mr.mountPoint :: mountPoints sm := by
  simp only [mountPoints, AList.entries_insert_of_notMem h, List.map_cons]

/-! ## What the loop keeps -/

/-- Within the loop, from the effects `e₀` it started with: each mountable obtained is a
releaser and none was released; the local mounts made are those of `sm`, one for each
descriptor, and none was unmounted. -/
structure Tracked (env : Env) (e₀ : Effects) (g : Gen) (e : Effects) : Prop where
  obtained : e.obtained = e₀.obtained ++ g.releasers
  released : e.released = e₀.released
  unmounted : e.unmounted = e₀.unmounted
  mounted : ∃ made, e.mounted = e₀.mounted ++ made ∧
    (made.map Prod.snd).Perm (mountPoints g.sm) ∧ (made.map Prod.fst).Nodup ∧
    ∀ p ∈ made, ∃ h, env.hash p.1 = some h ∧ h ∈ g.sm

/-- After a cleanup, from the effects `e₀`: the mountables obtained were released in order, and
the local mounts made were unmounted. -/
structure Cleaned (e₀ e : Effects) : Prop where
  released : ∃ new, e.obtained = e₀.obtained ++ new ∧ e.released = e₀.released ++ new
  unmounted : ∃ made ums, e.mounted = e₀.mounted ++ made ∧ e.unmounted = e₀.unmounted ++ ums ∧
    ums.Perm (made.map Prod.snd)

/-- How a part of the loop ends: going on with everything tracked, or with an error after a
cleanup. -/
def Ends (env : Env) (e₀ : Effects) : Except String Gen × Effects → Prop
  | (.ok g, e) => Tracked env e₀ g e
  | (.error _, e) => Cleaned e₀ e

section Tracking

variable {env : Env} {e₀ : Effects}

theorem tracked_start (e : Effects) (base : List SpecMount) : Tracked env e ⟨∅, [], base⟩ e where
  obtained := (List.append_nil _).symm
  released := rfl
  unmounted := rfl
  mounted := ⟨[], (List.append_nil _).symm, by simp [mountPoints_empty], List.nodup_nil, nofun⟩

theorem Tracked.releaseAll {g : Gen} {e : Effects} (ht : Tracked env e₀ g e) :
    Cleaned e₀ (releaseAll g.sm g.releasers e) := by
  obtain ⟨made, hmade, hperm, -, -⟩ := ht.mounted
  refine ⟨⟨g.releasers, ht.obtained, ?_⟩, ⟨made, mountPoints g.sm, hmade, ?_, hperm.symm⟩⟩
  · simp [Oci.releaseAll, cleanup, ht.released]
  · simp [Oci.releaseAll, cleanup, ht.unmounted]

/-- Obtaining a mountable and making it a releaser keeps the loop tracked. -/
theorem Tracked.obtain {g : Gen} {e : Effects} (ht : Tracked env e₀ g e) (x : Nat) :
    Tracked env e₀ { g with releasers := g.releasers ++ [x] }
      { e with obtained := e.obtained ++ [x] } where
  obtained := by simp [ht.obtained]
  released := ht.released
  unmounted := ht.unmounted
  mounted := ht.mounted

/-- A new local mount, of a descriptor whose hash has none, keeps the loop tracked. -/
theorem Tracked.mount {g : Gen} {e : Effects} (ht : Tracked env e₀ g e) {m : Mount} {hm : UInt64}
    (hhash : env.hash m = some hm) (hlook : g.sm.lookup hm = none) (mp : String)
    (ms : List SpecMount) :
    Tracked env e₀ { g with sm := g.sm.insert hm ⟨⟨"bind", mp, bindOptions m⟩, mp⟩, mounts := ms }
      { e with mounted := e.mounted ++ [(m, mp)] } := by
  obtain ⟨made, hmade, hperm, hnodup, hkeys⟩ := ht.mounted
  have hnot : hm ∉ g.sm := AList.lookup_eq_none.mp hlook
  -- the descriptor is new: a descriptor mounted before has its hash in `sm`
  have hnew : m ∉ made.map Prod.fst := by
    rintro hmem
    obtain ⟨p, hp, rfl⟩ := List.mem_map.mp hmem
    obtain ⟨h, hph, hmem'⟩ := hkeys p hp
    rw [hhash, Option.some.injEq] at hph
    exact hnot (hph ▸ hmem')
  refine ⟨ht.obtained, ht.released, ht.unmounted, made ++ [(m, mp)], ?_, ?_, ?_, ?_⟩
  · simp [hmade]
  · rw [mountPoints_insert hnot, List.map_append, List.map_singleton]
    exact (hperm.append_right [mp]).trans (List.perm_append_singleton mp _)
  · rw [List.map_append, List.map_singleton]
    exact hnodup.append (List.nodup_singleton m) (by simpa using hnew)
  · intro p hp
    rcases List.mem_append.mp hp with hp | hp
    · obtain ⟨h, hph, hmem⟩ := hkeys p hp
      exact ⟨h, hph, (AList.mem_insert _).mpr (.inr hmem)⟩
    · rw [List.mem_singleton.mp hp]
      exact ⟨hm, hhash, (AList.mem_insert _).mpr (.inl rfl)⟩

/-- `subMount` keeps the loop tracked, whatever it returns. -/
theorem Tracked.subMount {g : Gen} {e e' : Effects} (ht : Tracked env e₀ g e) {m : Mount}
    {sel : String} {r : Except String Mount} {sm' : Submounts}
    (h : Oci.subMount env g.sm m sel e = (r, sm', e')) (ms : List SpecMount) :
    Tracked env e₀ { g with sm := sm', mounts := ms } e' := by
  rcases subMount_cases h with ⟨rfl, rfl⟩ | ⟨hm, mp, hhash, hlook, rfl, rfl⟩
  · exact ⟨ht.obtained, ht.released, ht.unmounted, ht.mounted⟩
  · exact ht.mount hhash hlook mp ms

/-- The loop over a mountable's mounts ends tracked, or with an error after a cleanup. -/
theorem addMounts_ends (m : ExecMount) (mnts : List Mount) {g : Gen} {e : Effects}
    (ht : Tracked env e₀ g e) : Ends env e₀ (addMounts env m mnts g e) := by
  induction mnts generalizing g e with
  | nil => exact ht
  | cons mnt rest ih =>
    rcases hsub : Oci.subMount env g.sm mnt m.selector e with ⟨r, sm', e'⟩
    cases r with
    | error err =>
      simp only [addMounts, hsub]
      exact (ht.subMount hsub g.mounts).releaseAll
    | ok mnt' =>
      simp only [addMounts, hsub]
      exact ih (ht.subMount hsub _)

/-- An exec mount that goes on leaves the loop tracked, whatever the failures before it. -/
theorem addExecMount_ok {m : ExecMount} {g g' : Gen} {e e' : Effects} (ht : Tracked env e₀ g e)
    (h : addExecMount env m g e = (.ok g', e')) : Tracked env e₀ g' e' := by
  unfold addExecMount at h
  split at h
  · cases h
  split at h
  · cases h
  next mountable _ =>
    split at h
    · cases h
    next mnts _ =>
      have hend := addMounts_ends m mnts (ht.obtain mountable)
      rw [h] at hend
      exact hend

/-- With a source, and a mountable that mounts, an exec mount ends tracked or with an error after
a cleanup. -/
theorem addExecMount_ends {m : ExecMount} {g : Gen} {e : Effects} (ht : Tracked env e₀ g e)
    (hsrc : m.src ≠ none) (hmm : ∀ x, ∃ l, env.mountableMount x = .ok l) :
    Ends env e₀ (addExecMount env m g e) := by
  obtain ⟨src, hs⟩ := Option.ne_none_iff_exists'.mp hsrc
  simp only [addExecMount, hs]
  split
  · exact ht.releaseAll
  next mountable _ =>
    obtain ⟨mnts, hmnts⟩ := hmm mountable
    simp only [hmnts]
    exact addMounts_ends m mnts (ht.obtain mountable)

theorem addExecMounts_ok {ms : List ExecMount} {g g' : Gen} {e e' : Effects}
    (ht : Tracked env e₀ g e) (h : addExecMounts env ms g e = (.ok g', e')) :
    Tracked env e₀ g' e' := by
  induction ms generalizing g e with
  | nil =>
    cases h
    exact ht
  | cons m ms ih =>
    rcases hm : addExecMount env m g e with ⟨_ | g₁, e₁⟩
    · simp [addExecMounts, hm] at h
    · simp only [addExecMounts, hm] at h
      exact ih (addExecMount_ok ht hm) h

theorem addExecMounts_ends {ms : List ExecMount} {g : Gen} {e : Effects} (ht : Tracked env e₀ g e)
    (hsrc : ∀ m ∈ ms, m.src ≠ none) (hmm : ∀ x, ∃ l, env.mountableMount x = .ok l) :
    Ends env e₀ (addExecMounts env ms g e) := by
  induction ms generalizing g e with
  | nil => exact ht
  | cons m ms ih =>
    have hend := addExecMount_ends ht (hsrc m (List.mem_cons_self ..)) hmm
    rcases hm : addExecMount env m g e with ⟨_ | g₁, e₁⟩
    · rw [hm] at hend
      simpa [addExecMounts, hm] using hend
    · rw [hm] at hend
      simp only [addExecMounts, hm]
      exact ih hend (fun m' hm' => hsrc m' (List.mem_cons_of_mem _ hm'))

end Tracking

/-- Every call succeeds except `fs.RootPath` of the selector `"b"`, and every mountable mounts the
same overlay. There is only one descriptor, so the hash is a constant. -/
def sampleEnv : Env where
  srcMount src _ := .ok src
  mountableMount _ := .ok [⟨"overlay", "overlay", ["lowerdir=/l"]⟩]
  hash _ := some 0
  localMount _ := .ok "/tmp/m"
  rootPath root p := if p = "b" then .error "path escapes from parent" else .ok (root ++ "/" ++ p)

/-! ## `GenerateSpec` -/

section GenerateSpec

variable {env : Env} {base : List SpecMount} {mounts : List ExecMount} {e₀ e : Effects}

theorem generateSpec_ok_tracked {spec : List SpecMount} {rel : Effects → Effects}
    (h : generateSpec env base mounts e₀ = (.ok (spec, rel), e)) :
    ∃ g, Tracked env e₀ g e ∧ spec = g.mounts ∧ rel = releaseAll g.sm g.releasers := by
  unfold generateSpec at h
  split at h
  next g e' hrun =>
    cases h
    exact ⟨g, addExecMounts_ok (tracked_start e₀ base) hrun, rfl, rfl⟩
  next => cases h

/-- On success, the `releaseAll` returned releases every mountable obtained and unmounts every
local mount made. -/
theorem generateSpec_releaseAll_cleans {spec : List SpecMount} {rel : Effects → Effects}
    (h : generateSpec env base mounts e₀ = (.ok (spec, rel), e)) : Cleaned e₀ (rel e) := by
  obtain ⟨g, ht, -, rfl⟩ := generateSpec_ok_tracked h
  exact ht.releaseAll

/-- One exec mount that succeeds: the `releaseAll` returned releases its mountable and unmounts
its local mount. -/
theorem generateSpec_releaseAll_cleans_sample :
    ∃ spec rel e, generateSpec sampleEnv [] [⟨some 0, "a", "/x", false⟩] .empty =
      (.ok (spec, rel), e) ∧ Cleaned .empty (rel e) := by
  obtain ⟨spec, rel, e, h⟩ : ∃ spec rel e,
      generateSpec sampleEnv [] [⟨some 0, "a", "/x", false⟩] .empty = (.ok (spec, rel), e) :=
    ⟨_, _, _, rfl⟩
  exact ⟨spec, rel, e, h, generateSpec_releaseAll_cleans h⟩

/-- With no nil source and no mountable that fails to mount, every error comes after a cleanup
of all that was obtained and mounted. -/
theorem generateSpec_error_cleans {err : String} (hsrc : ∀ m ∈ mounts, m.src ≠ none)
    (hmm : ∀ x, ∃ l, env.mountableMount x = .ok l)
    (h : generateSpec env base mounts e₀ = (.error err, e)) : Cleaned e₀ e := by
  have hend := addExecMounts_ends (tracked_start e₀ base) hsrc hmm
  unfold generateSpec at h
  split at h
  next => cases h
  next err' e' hrun =>
    cases h
    rw [hrun] at hend
    exact hend

/-- One exec mount whose selector fails to resolve in the local mount made for it: the error
comes after its mountable was released and its local mount taken down. -/
theorem generateSpec_error_cleans_escape :
    (∀ m ∈ ([⟨some 1, "b", "/y", false⟩] : List ExecMount), m.src ≠ none) ∧
      (∀ x, ∃ l, sampleEnv.mountableMount x = .ok l) ∧
      ∃ err e, generateSpec sampleEnv [] [⟨some 1, "b", "/y", false⟩] .empty = (.error err, e) ∧
        Cleaned .empty e := by
  have hsrc : ∀ m ∈ ([⟨some 1, "b", "/y", false⟩] : List ExecMount), m.src ≠ none := by decide
  have hmm : ∀ x, ∃ l, sampleEnv.mountableMount x = .ok l := fun _ => ⟨_, rfl⟩
  obtain ⟨err, e, h⟩ : ∃ err e,
      generateSpec sampleEnv [] [⟨some 1, "b", "/y", false⟩] .empty = (.error err, e) :=
    ⟨_, _, rfl⟩
  exact ⟨hsrc, hmm, err, e, h, generateSpec_error_cleans hsrc hmm h⟩

end GenerateSpec

theorem generateSpec_leaks_or_empty_source :
    -- a nil source after a mountable was obtained: the mountable is never released
    (let r := generateSpec sampleEnv [] [⟨some 0, "", "/x", false⟩, ⟨none, "", "/y", false⟩] .empty
     r.1.map Prod.fst = .error "mount /y has no source" ∧ r.2.obtained = [0] ∧
       r.2.released = []) ∧
    -- a mountable that fails to mount is never released
    (let r := generateSpec { sampleEnv with mountableMount := fun _ => .error "no such device" } []
        [⟨some 0, "", "/x", false⟩] .empty
     r.1.map Prod.fst = .error "no such device" ∧ r.2.obtained = [0] ∧ r.2.released = []) ∧
    -- a selector that fails to resolve in a local mount made before: an entry with no source
    (generateSpec sampleEnv [] [⟨some 0, "a", "/x", false⟩, ⟨some 1, "b", "/y", false⟩]
        .empty).1.map Prod.fst =
      .ok [⟨"/x", "bind", "/tmp/m/a", ["rbind"]⟩, ⟨"/y", "", "", []⟩] := by
  decide

end Oci

end Buildkit
