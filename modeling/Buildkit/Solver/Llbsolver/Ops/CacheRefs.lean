import Mathlib.Data.List.AList
import Buildkit.Lib.Loop

/-!
# Shared cache mounts

`sharedCacheRefs` of `solver/llbsolver/ops/exec.go`, the registry of the cache mounts that
`getRefCacheDir` shares between execs: `cacheRefs.get` returns a new handle on the share of a
key, creating the share with `fn` if there is none, and `cacheRef.Release` drops a handle and,
with the last one, takes the share out of the registry and releases its ref.

`get` holds the registry's lock `cacheRefs.mu` while `clone` takes the share's lock; `Release`
holds the share's lock while `release` takes the registry's. The two orders meet: a `get` of a
key that finds its share while the last handle on it is being released waits for the share's
lock, which the release holds while it waits for the registry's (`get_release_deadlock`). This
is the only way the threads can all be blocked: in every reachable world where none can move
and some have not returned, one `get` holds the registry's lock and waits for a share whose lock
a `Release` holds, waiting for the registry's (`stuck_lock_inversion`).

Representation. A world holds the registry, the share objects by pointer, the share each handle
(`cacheRef`) points to, and the threads, each at the point of `get` or `Release` it has reached;
the lock of a share is the thread holding it. A step of a thread runs it to the next lock it
takes; `fn` (`getRefCacheDirNoCache`) and the release of a ref are single steps, and `fn` may
fail instead, which makes `get` return with the registry unchanged. A thread
releases a handle only while it is on its share, and only one thread releases it. The per-exec
layer of shares in `e.cacheMounts` has no registry lock and is left out.
-/

namespace Buildkit

namespace CacheRefs

/-- Where a thread is: before the registry's lock in `get`, holding it before the lookup, holding
it before the share's lock in `clone`, before the share's lock in `Release`, holding it before the
registry's lock in `release`; or returned. -/
inductive Pc
  | getLock (key : String)
  | getLookup (key : String)
  | getClone (share : Nat)
  | releaseLock (handle : Nat)
  | releaseMain (share : Nat)
  | done
  deriving DecidableEq, Repr

/-- `cacheRefShare`: its key, its handles, and the thread holding its lock. Its ref is the one
`fn` made for it, named by the share's pointer. -/
structure Share where
  key : String
  refs : List Nat
  mu : Option Nat
  deriving DecidableEq, Repr

/-- The registry `cacheRefs` with the objects it reaches and the threads calling it. -/
structure World where
  mu : Option Nat
  shares : AList (fun _ : String => Nat)
  objs : List Share
  handles : List Nat
  threads : List Pc
  released : List Nat

/-- The registry before any call. -/
def empty : World := ⟨none, ∅, [], [], [], []⟩

namespace World

/-- The thread `t` moved to `pc`. -/
def setPc (w : World) (t : Nat) (pc : Pc) : World := { w with threads := w.threads.set t pc }

/-- The share `s` replaced by `sh`. -/
def setShare (w : World) (s : Nat) (sh : Share) : World := { w with objs := w.objs.set s sh }

/-- A step of thread `t` to the next lock it takes; `none` while it waits, or once it returned. -/
def step (w : World) (t : Nat) : Option World :=
  match w.threads[t]? with
  | some (.getLock key) =>
    if w.mu = none then some ({ w with mu := some t }.setPc t (.getLookup key)) else none
  | some (.getLookup key) =>
    match w.shares.lookup key with
    | some s => some (w.setPc t (.getClone s))
    | none =>
      -- `fn` makes the ref, and `clone` of the new share finds its lock free
      some ({ w with
        mu := none
        shares := w.shares.insert key w.objs.length
        objs := w.objs ++ [({ key, refs := [w.handles.length], mu := none } : Share)]
        handles := w.handles ++ [w.objs.length] }.setPc t .done)
  | some (.getClone s) =>
    match w.objs[s]? with
    | some sh =>
      if sh.mu = none then
        some ({ w with mu := none, handles := w.handles ++ [s] }.setShare s
          { sh with refs := sh.refs ++ [w.handles.length] } |>.setPc t .done)
      else none
    | none => none
  | some (.releaseLock h) =>
    match w.handles[h]? with
    | some s =>
      match w.objs[s]? with
      | some sh =>
        if sh.mu = none then
          if sh.refs.erase h = [] then
            some ((w.setShare s { sh with refs := [], mu := some t }).setPc t (.releaseMain s))
          else some ((w.setShare s { sh with refs := sh.refs.erase h }).setPc t .done)
        else none
      | none => none
    | none => none
  | some (.releaseMain s) =>
    if w.mu = none then
      match w.objs[s]? with
      | some sh =>
        some ({ w with shares := w.shares.erase sh.key, released := w.released ++ [s] }.setShare s
          { sh with mu := none } |>.setPc t .done)
      | none => none
    else none
  | _ => none

/-- `fn` of the `get` of thread `t` fails: `get` returns its error, and its deferred unlock frees
the registry's lock. -/
def failFn (w : World) (t : Nat) : Option World :=
  match w.threads[t]? with
  | some (.getLookup key) =>
    if w.shares.lookup key = none then some ({ w with mu := none }.setPc t .done) else none
  | _ => none

end World

/-- What happens to the registry: a thread calls `get` of a key, a thread calls `Release` of a
handle, a thread takes a step, or the `fn` a thread runs fails. -/
inductive Act
  | spawnGet (key : String)
  | spawnRelease (handle : Nat)
  | step (t : Nat)
  | failFn (t : Nat)

namespace World

/-- The handle `h` is on its share and no thread is releasing it. -/
def releasable (w : World) (h : Nat) : Bool :=
  match w.handles[h]? with
  | some s =>
    match w.objs[s]? with
    | some sh => decide (h ∈ sh.refs) && !w.threads.contains (.releaseLock h)
    | none => false
  | none => false

/-- One thing happening; a `Release` only of a handle that is on its share and that no other
thread releases. -/
def act (w : World) : Act → Option World
  | .spawnGet key => some { w with threads := w.threads ++ [.getLock key] }
  | .spawnRelease h =>
    if w.releasable h then some { w with threads := w.threads ++ [.releaseLock h] } else none
  | .step t => w.step t
  | .failFn t => w.failFn t

/-- A sequence of things happening. -/
def run (w : World) (acts : List Act) : Option World := acts.foldlM act w

end World

/-- The worlds some interleaving of calls reaches. -/
inductive Reachable : World → Prop
  | empty : Reachable empty
  | act {w w' : World} (a : Act) : Reachable w → w.act a = some w' → Reachable w'

/-! ## Who holds the locks -/

/-- A thread at `pc` holds the registry's lock. -/
def Pc.holdsMu : Pc → Bool
  | .getLookup _ | .getClone _ => true
  | _ => false

namespace World

@[simp] theorem setPc_mu (w : World) (t : Nat) (pc : Pc) : (w.setPc t pc).mu = w.mu := rfl
@[simp] theorem setPc_shares (w : World) (t : Nat) (pc : Pc) :
    (w.setPc t pc).shares = w.shares := rfl

@[simp] theorem setPc_objs (w : World) (t : Nat) (pc : Pc) : (w.setPc t pc).objs = w.objs := rfl
@[simp] theorem setShare_shares (w : World) (s : Nat) (sh : Share) :
    (w.setShare s sh).shares = w.shares := rfl

@[simp] theorem setShare_threads (w : World) (s : Nat) (sh : Share) :
    (w.setShare s sh).threads = w.threads := rfl

@[simp] theorem length_objs_setShare (w : World) (s : Nat) (sh : Share) :
    (w.setShare s sh).objs.length = w.objs.length := List.length_set

/-- The frame of a step: the threads it does not move stay where they are. -/
theorem threads_setPc_ne {w : World} {t t' : Nat} (h : t' ≠ t) (pc : Pc) :
    (w.setPc t pc).threads[t']? = w.threads[t']? :=
  List.getElem?_set_ne (Ne.symm h)

theorem threads_setPc_self {w : World} {t : Nat} {pc₀ : Pc} (ht : w.threads[t]? = some pc₀)
    (pc : Pc) : (w.setPc t pc).threads[t]? = some pc :=
  List.getElem?_set_self (List.getElem?_eq_some_iff.mp ht).1

theorem objs_setShare_ne {w : World} {s s' : Nat} (h : s' ≠ s) (sh : Share) :
    (w.setShare s sh).objs[s']? = w.objs[s']? :=
  List.getElem?_set_ne (Ne.symm h)

theorem objs_setShare_self {w : World} {s : Nat} {sh₀ : Share} (hs : w.objs[s]? = some sh₀)
    (sh : Share) : (w.setShare s sh).objs[s]? = some sh :=
  List.getElem?_set_self (List.getElem?_eq_some_iff.mp hs).1

/-- The objects a thread at `pc` points to exist. -/
def PcOk (w : World) : Pc → Prop
  | .getClone s | .releaseMain s => s < w.objs.length
  | .releaseLock h => ∃ s, w.handles[h]? = some s ∧ s < w.objs.length
  | _ => True

/-- Pointers stay valid while objects and handles are only added. -/
theorem PcOk.mono {w w' : World} (ho : w.objs.length ≤ w'.objs.length)
    (hh : ∀ h s : Nat, w.handles[h]? = some s → w'.handles[h]? = some s) :
    ∀ {pc : Pc}, w.PcOk pc → w'.PcOk pc
  | .getClone _, hs | .releaseMain _, hs => Nat.lt_of_lt_of_le hs ho
  | .releaseLock _, ⟨s, hs, hlt⟩ => ⟨s, hh _ _ hs, Nat.lt_of_lt_of_le hlt ho⟩
  | .getLock _, _ | .getLookup _, _ | .done, _ => trivial

/-- The registry's lock is held by the thread in `get` past its lock, and a share's by the thread
in its `release`; the pointers the threads and the registry hold are to objects that exist. -/
structure LockInv (w : World) : Prop where
  mu_iff : ∀ t : Nat, w.mu = some t ↔ ∃ pc, w.threads[t]? = some pc ∧ pc.holdsMu = true
  share_iff : ∀ (s : Nat) (sh : Share), w.objs[s]? = some sh →
    ∀ t : Nat, sh.mu = some t ↔ w.threads[t]? = some (.releaseMain s)
  pc_ok : ∀ (t : Nat) (pc : Pc), w.threads[t]? = some pc → w.PcOk pc
  shares_lt : ∀ (k : String) (s : Nat), w.shares.lookup k = some s → s < w.objs.length

theorem lockInv_empty : LockInv empty where
  mu_iff t := by simp [empty]
  share_iff s sh h := by simp [empty] at h
  pc_ok t pc h := by simp [empty] at h
  shares_lt k s h := by simp [empty] at h

/-! ## What a step can do -/

/-- The moves of thread `t`, one for each branch of `step` and `failFn` that returns a world. -/
inductive Moves (w : World) (t : Nat) : World → Prop
  | getLock {key : String} : w.threads[t]? = some (.getLock key) → w.mu = none →
      Moves w t ({ w with mu := some t }.setPc t (.getLookup key))
  | lookupFound {key : String} {s : Nat} : w.threads[t]? = some (.getLookup key) →
      w.shares.lookup key = some s → Moves w t (w.setPc t (.getClone s))
  | lookupNew {key : String} : w.threads[t]? = some (.getLookup key) →
      w.shares.lookup key = none →
      Moves w t ({ w with
        mu := none
        shares := w.shares.insert key w.objs.length
        objs := w.objs ++ [({ key, refs := [w.handles.length], mu := none } : Share)]
        handles := w.handles ++ [w.objs.length] }.setPc t .done)
  | failFn {key : String} : w.threads[t]? = some (.getLookup key) →
      w.shares.lookup key = none → Moves w t ({ w with mu := none }.setPc t .done)
  | getClone {s : Nat} {sh : Share} : w.threads[t]? = some (.getClone s) →
      w.objs[s]? = some sh → sh.mu = none →
      Moves w t ({ w with mu := none, handles := w.handles ++ [s] }.setShare s
        { sh with refs := sh.refs ++ [w.handles.length] } |>.setPc t .done)
  | releaseLast {h s : Nat} {sh : Share} : w.threads[t]? = some (.releaseLock h) →
      w.handles[h]? = some s → w.objs[s]? = some sh → sh.mu = none → sh.refs.erase h = [] →
      Moves w t ((w.setShare s { sh with refs := [], mu := some t }).setPc t (.releaseMain s))
  | releaseOther {h s : Nat} {sh : Share} : w.threads[t]? = some (.releaseLock h) →
      w.handles[h]? = some s → w.objs[s]? = some sh → sh.mu = none → sh.refs.erase h ≠ [] →
      Moves w t ((w.setShare s { sh with refs := sh.refs.erase h }).setPc t .done)
  | releaseMain {s : Nat} {sh : Share} : w.threads[t]? = some (.releaseMain s) → w.mu = none →
      w.objs[s]? = some sh →
      Moves w t ({ w with shares := w.shares.erase sh.key, released := w.released ++ [s] }.setShare s
        { sh with mu := none } |>.setPc t .done)

theorem moves_of_step {w w' : World} {t : Nat} (h : w.step t = some w') : Moves w t w' := by
  cases ht : w.threads[t]? with
  | none => simp [step, ht] at h
  | some pc =>
    cases pc with
    | getLock key =>
      simp only [step, ht] at h
      split at h
      next hfree => cases h; exact .getLock ht hfree
      next => cases h
    | getLookup key =>
      simp only [step, ht] at h
      split at h
      next s hs => cases h; exact .lookupFound ht hs
      next hs => cases h; exact .lookupNew ht hs
    | getClone s =>
      simp only [step, ht] at h
      split at h
      next sh hs =>
        split at h
        next hfree => cases h; exact .getClone ht hs hfree
        next => cases h
      next => cases h
    | releaseLock hd =>
      simp only [step, ht] at h
      split at h
      next s hh =>
        split at h
        next sh hs =>
          split at h
          next hfree =>
            split at h
            next hlast => cases h; exact .releaseLast ht hh hs hfree hlast
            next hlast => cases h; exact .releaseOther ht hh hs hfree hlast
          next => cases h
        next => cases h
      next => cases h
    | releaseMain s =>
      simp only [step, ht] at h
      split at h
      next hfree =>
        split at h
        next sh hs => cases h; exact .releaseMain ht hfree hs
        next => cases h
      next => cases h
    | done => simp [step, ht] at h

theorem moves_of_failFn {w w' : World} {t : Nat} (h : w.failFn t = some w') : Moves w t w' := by
  unfold failFn at h
  split at h
  next key ht =>
    split at h
    next hs => cases h; exact .failFn ht hs
    next => cases h
  next => cases h

/-- A move changes the point of its own thread only. -/
theorem Moves.threads_ne {w w' : World} {t t' : Nat} (hm : Moves w t w') (hne : t' ≠ t) :
    w'.threads[t']? = w.threads[t']? := by
  cases hm <;> exact threads_setPc_ne hne _

/-! ## What one step does to the locks

A step moves one thread `t` and changes the world around it; `w'` below is the world before the
move, with the threads of `w`. The lemmas say, for each kind of change, why the invariant survives
the move; `LockInv.step` then splits on the point the thread is at. -/

section Steps

variable {w w' : World} {t : Nat} {pc₀ pc : Pc}

@[simp] theorem pcOk_setPc (w : World) (t : Nat) (pc p : Pc) :
    (w.setPc t pc).PcOk p ↔ w.PcOk p := by
  cases p <;> rfl

theorem pcOk_move (hi : w.LockInv) (ht : w.threads[t]? = some pc₀) (hthr : w'.threads = w.threads)
    (ho : w.objs.length ≤ w'.objs.length)
    (hh : ∀ h s : Nat, w.handles[h]? = some s → w'.handles[h]? = some s) (hpc : w'.PcOk pc) :
    ∀ (t' : Nat) (pc' : Pc), (w'.setPc t pc).threads[t']? = some pc' →
      (w'.setPc t pc).PcOk pc' := by
  intro t' pc' h'
  rw [pcOk_setPc]
  rcases eq_or_ne t' t with rfl | hne
  · rw [threads_setPc_self (hthr.symm ▸ ht)] at h'
    cases h'
    exact hpc
  · rw [threads_setPc_ne hne, hthr] at h'
    exact (hi.pc_ok t' pc' h').mono ho hh

/-- The thread that holds the registry's lock is the one `mu` names. -/
theorem LockInv.mu_of_holds (hi : w.LockInv) (ht : w.threads[t]? = some pc₀)
    (h₀ : pc₀.holdsMu = true) : w.mu = some t :=
  (hi.mu_iff t).mpr ⟨pc₀, ht, h₀⟩

/-- A move that neither takes nor drops the registry's lock. -/
theorem muIff_keep (hi : w.LockInv) (ht : w.threads[t]? = some pc₀)
    (hthr : w'.threads = w.threads) (hmu : w'.mu = w.mu) (hpc : pc.holdsMu = pc₀.holdsMu) :
    ∀ t', (w'.setPc t pc).mu = some t' ↔
      ∃ pc', (w'.setPc t pc).threads[t']? = some pc' ∧ pc'.holdsMu = true := by
  intro t'
  rw [setPc_mu, hmu, hi.mu_iff t']
  rcases eq_or_ne t' t with rfl | hne
  · simp [threads_setPc_self (hthr.symm ▸ ht), ht, hpc]
  · rw [threads_setPc_ne hne, hthr]

/-- A move that takes the registry's lock, free before it. -/
theorem muIff_acquire (hi : w.LockInv) (hthr : w'.threads = w.threads) (ht : w.threads[t]? = some pc₀)
    (hfree : w.mu = none) (hmu : w'.mu = some t) (hpc : pc.holdsMu = true) :
    ∀ t', (w'.setPc t pc).mu = some t' ↔
      ∃ pc', (w'.setPc t pc).threads[t']? = some pc' ∧ pc'.holdsMu = true := by
  intro t'
  rw [setPc_mu, hmu]
  rcases eq_or_ne t' t with rfl | hne
  · simp [threads_setPc_self (hthr.symm ▸ ht), hpc]
  · rw [threads_setPc_ne hne, hthr, ← hi.mu_iff t', hfree]
    simp [Ne.symm hne]

/-- A move that drops the registry's lock. -/
theorem muIff_release (hi : w.LockInv) (hthr : w'.threads = w.threads)
    (ht : w.threads[t]? = some pc₀) (h₀ : pc₀.holdsMu = true) (hmu : w'.mu = none)
    (hpc : pc.holdsMu = false) :
    ∀ t', (w'.setPc t pc).mu = some t' ↔
      ∃ pc', (w'.setPc t pc).threads[t']? = some pc' ∧ pc'.holdsMu = true := by
  intro t'
  rw [setPc_mu, hmu]
  rcases eq_or_ne t' t with rfl | hne
  · simp [threads_setPc_self (hthr.symm ▸ ht), hpc]
  · rw [threads_setPc_ne hne, hthr, ← hi.mu_iff t', hi.mu_of_holds ht h₀]
    simp [Ne.symm hne]

/-- A move between two points outside `release`, over objects whose locks have the holders they
had. -/
theorem shareIff_move (ht : w.threads[t]? = some pc₀) (hthr : w'.threads = w.threads)
    (h₀ : ∀ s, pc₀ ≠ .releaseMain s) (hpc : ∀ s, pc ≠ .releaseMain s)
    (hsh : ∀ (s : Nat) (sh : Share), w'.objs[s]? = some sh →
      ∀ t' : Nat, sh.mu = some t' ↔ w.threads[t']? = some (.releaseMain s)) :
    ∀ (s : Nat) (sh : Share), (w'.setPc t pc).objs[s]? = some sh →
      ∀ t' : Nat, sh.mu = some t' ↔ (w'.setPc t pc).threads[t']? = some (.releaseMain s) := by
  intro s sh hs t'
  rw [hsh s sh hs t']
  rcases eq_or_ne t' t with rfl | hne
  · simp [threads_setPc_self (hthr.symm ▸ ht), ht, h₀, hpc]
  · rw [threads_setPc_ne hne, hthr]

/-- A new share, whose lock is free, has no thread in its `release`. -/
theorem shareIff_append (hi : w.LockInv) (key : String) (refs : List Nat) :
    ∀ (s : Nat) (sh : Share), (w.objs ++ [({ key, refs, mu := none } : Share)])[s]? = some sh →
      ∀ t' : Nat, sh.mu = some t' ↔ w.threads[t']? = some (.releaseMain s) := by
  intro s sh hs t'
  rcases Nat.lt_or_ge s w.objs.length with hlt | hge
  · rw [List.getElem?_append_left hlt] at hs
    exact hi.share_iff s sh hs t'
  · have hs' : s = w.objs.length := by
      have := (List.getElem?_eq_some_iff.mp hs).1
      simp at this
      omega
    subst hs'
    simp only [List.getElem?_concat_length, Option.some.injEq] at hs
    subst hs
    simp only [reduceCtorEq, false_iff]
    intro hmain
    exact Nat.lt_irrefl _ (hi.pc_ok t' _ hmain)

/-- Changing a share's handles leaves its lock with its holder. -/
theorem shareIff_setRefs (hi : w.LockInv) {s : Nat} {sh : Share} (hs : w.objs[s]? = some sh)
    (refs : List Nat) :
    ∀ (s' : Nat) (sh' : Share), (w.setShare s { sh with refs }).objs[s']? = some sh' →
      ∀ t' : Nat, sh'.mu = some t' ↔ w.threads[t']? = some (.releaseMain s') := by
  intro s' sh' hs' t'
  rcases eq_or_ne s' s with rfl | hne
  · rw [objs_setShare_self hs, Option.some.injEq] at hs'
    subst hs'
    exact hi.share_iff s' sh hs t'
  · rw [objs_setShare_ne hne] at hs'
    exact hi.share_iff s' sh' hs' t'

/-- Appending keeps the entries there are: of the handles, and of the threads. -/
theorem getElem?_append_of_some {α : Type} {l : List α} (x : α) :
    ∀ (i : Nat) (a : α), l[i]? = some a → (l ++ [x])[i]? = some a :=
  fun _ _ h => (List.getElem?_append_left (List.getElem?_eq_some_iff.mp h).1).trans h

theorem LockInv.getLock (hi : w.LockInv) {key : String} (ht : w.threads[t]? = some (.getLock key))
    (hfree : w.mu = none) : ({ w with mu := some t }.setPc t (.getLookup key)).LockInv where
  mu_iff := muIff_acquire hi rfl ht hfree rfl rfl
  share_iff := shareIff_move ht rfl (fun _ => nofun) (fun _ => nofun) hi.share_iff
  pc_ok := pcOk_move hi ht rfl le_rfl (fun _ _ h => h) trivial
  shares_lt := hi.shares_lt

theorem LockInv.lookupFound (hi : w.LockInv) {key : String} {s : Nat}
    (ht : w.threads[t]? = some (.getLookup key)) (hs : w.shares.lookup key = some s) :
    (w.setPc t (.getClone s)).LockInv where
  mu_iff := muIff_keep hi ht rfl rfl rfl
  share_iff := shareIff_move ht rfl (fun _ => nofun) (fun _ => nofun) hi.share_iff
  pc_ok := pcOk_move hi ht rfl le_rfl (fun _ _ h => h) (hi.shares_lt key s hs)
  shares_lt := hi.shares_lt

theorem LockInv.lookupNew (hi : w.LockInv) {key : String}
    (ht : w.threads[t]? = some (.getLookup key)) :
    ({ w with
      mu := none
      shares := w.shares.insert key w.objs.length
      objs := w.objs ++ [({ key, refs := [w.handles.length], mu := none } : Share)]
      handles := w.handles ++ [w.objs.length] }.setPc t .done).LockInv where
  mu_iff := muIff_release hi rfl ht rfl rfl rfl
  share_iff := shareIff_move ht rfl (fun _ => nofun) (fun _ => nofun) (shareIff_append hi key _)
  pc_ok := pcOk_move hi ht rfl (by simp) (getElem?_append_of_some _) trivial
  shares_lt k s hs := by
    simp only [setPc_shares, setPc_objs, List.length_append, List.length_singleton] at hs ⊢
    rcases eq_or_ne k key with rfl | hne
    · rw [AList.lookup_insert, Option.some.injEq] at hs
      omega
    · rw [AList.lookup_insert_ne hne] at hs
      exact Nat.lt_succ_of_lt (hi.shares_lt k s hs)

theorem LockInv.getClone (hi : w.LockInv) {s : Nat} {sh : Share}
    (ht : w.threads[t]? = some (.getClone s)) (hs : w.objs[s]? = some sh) :
    ({ w with mu := none, handles := w.handles ++ [s] }.setShare s
      { sh with refs := sh.refs ++ [w.handles.length] } |>.setPc t .done).LockInv where
  mu_iff := muIff_release hi rfl ht rfl rfl rfl
  share_iff := shareIff_move ht rfl (fun _ => nofun) (fun _ => nofun) (shareIff_setRefs hi hs _)
  pc_ok := pcOk_move hi ht rfl (by simp) (getElem?_append_of_some _) trivial
  shares_lt k s' hs' := by simpa using hi.shares_lt k s' hs'

theorem LockInv.releaseOther (hi : w.LockInv) {h s : Nat} {sh : Share}
    (ht : w.threads[t]? = some (.releaseLock h)) (hs : w.objs[s]? = some sh) :
    ((w.setShare s { sh with refs := sh.refs.erase h }).setPc t .done).LockInv where
  mu_iff := muIff_keep hi ht rfl rfl rfl
  share_iff := shareIff_move ht rfl (fun _ => nofun) (fun _ => nofun) (shareIff_setRefs hi hs _)
  pc_ok := pcOk_move hi ht rfl (by simp) (fun _ _ h => h) trivial
  shares_lt k s' hs' := by simpa using hi.shares_lt k s' hs'

/-- The last handle's `Release` takes the share's lock, free before it. -/
theorem LockInv.releaseLast (hi : w.LockInv) {h s : Nat} {sh : Share}
    (ht : w.threads[t]? = some (.releaseLock h)) (hs : w.objs[s]? = some sh)
    (hfree : sh.mu = none) :
    ((w.setShare s { sh with refs := [], mu := some t }).setPc t (.releaseMain s)).LockInv where
  mu_iff := muIff_keep hi ht rfl rfl rfl
  share_iff s' sh' hs' t' := by
    have ht' := threads_setPc_self (w := w.setShare s { sh with refs := [], mu := some t }) ht
    rw [setPc_objs] at hs'
    rcases eq_or_ne s' s with rfl | hne
    · rw [objs_setShare_self hs, Option.some.injEq] at hs'
      subst hs'
      rcases eq_or_ne t' t with rfl | htt
      · simp [ht']
      · rw [threads_setPc_ne htt, setShare_threads, ← hi.share_iff s' sh hs t', hfree]
        simp [Ne.symm htt]
    · rw [objs_setShare_ne hne] at hs'
      rw [hi.share_iff s' sh' hs' t']
      rcases eq_or_ne t' t with rfl | htt
      · simp [ht', ht, Ne.symm hne]
      · rw [threads_setPc_ne htt, setShare_threads]
  pc_ok := pcOk_move hi ht rfl (by simp) (fun _ _ h => h) (by
    show s < (w.setShare s _).objs.length
    simpa using (List.getElem?_eq_some_iff.mp hs).1)
  shares_lt k s' hs' := by simpa using hi.shares_lt k s' hs'

/-- `release` drops the share's lock, with the registry's free. -/
theorem LockInv.releaseMain (hi : w.LockInv) {s : Nat} {sh : Share}
    (ht : w.threads[t]? = some (.releaseMain s)) (hs : w.objs[s]? = some sh) :
    ({ w with shares := w.shares.erase sh.key, released := w.released ++ [s] }.setShare s
      { sh with mu := none } |>.setPc t .done).LockInv where
  mu_iff := muIff_keep hi ht rfl rfl rfl
  share_iff s' sh' hs' t' := by
    -- the registry's entries play no part in the locks of the shares
    change (w.setShare s { sh with mu := none }).objs[s']? = some sh' at hs'
    change sh'.mu = some t' ↔
      ((w.setShare s { sh with mu := none }).setPc t .done).threads[t']? = some (.releaseMain s')
    rcases eq_or_ne s' s with rfl | hne
    · rw [objs_setShare_self hs, Option.some.injEq] at hs'
      subst hs'
      -- the share's lock was the releasing thread's, and no other thread is in its `release`
      have hmine : sh.mu = some t := (hi.share_iff s' sh hs t).mpr ht
      simp only [reduceCtorEq, false_iff]
      rcases eq_or_ne t' t with rfl | htt
      · simp [threads_setPc_self (w := w.setShare s' _) ht]
      · rw [threads_setPc_ne htt, setShare_threads, ← hi.share_iff s' sh hs t', hmine]
        simp [Ne.symm htt]
    · rw [objs_setShare_ne hne] at hs'
      rw [hi.share_iff s' sh' hs' t']
      rcases eq_or_ne t' t with rfl | htt
      · simp [threads_setPc_self (w := w.setShare s _) ht, ht, Ne.symm hne]
      · rw [threads_setPc_ne htt, setShare_threads]
  pc_ok := pcOk_move hi ht rfl (by simp) (fun _ _ h => h) trivial
  shares_lt k s' hs' := by
    simp only [setPc_shares, setShare_shares] at hs'
    rcases eq_or_ne k sh.key with rfl | hne
    · simp [AList.lookup_erase] at hs'
    · rw [AList.lookup_erase_ne hne] at hs'
      simpa using hi.shares_lt k s' hs'

theorem LockInv.failFn (hi : w.LockInv) {key : String}
    (ht : w.threads[t]? = some (.getLookup key)) :
    ({ w with mu := none }.setPc t .done).LockInv where
  mu_iff := muIff_release hi rfl ht rfl rfl rfl
  share_iff := shareIff_move ht rfl (fun _ => nofun) (fun _ => nofun) hi.share_iff
  pc_ok := pcOk_move hi ht rfl le_rfl (fun _ _ h => h) trivial
  shares_lt := hi.shares_lt

/-- Every move keeps the invariant. -/
theorem LockInv.moves (hi : w.LockInv) (hm : Moves w t w') : w'.LockInv := by
  cases hm with
  | getLock ht hfree => exact hi.getLock ht hfree
  | lookupFound ht hs => exact hi.lookupFound ht hs
  | lookupNew ht _ => exact hi.lookupNew ht
  | failFn ht _ => exact hi.failFn ht
  | getClone ht hs _ => exact hi.getClone ht hs
  | releaseLast ht _ hs hfree _ => exact hi.releaseLast ht hs hfree
  | releaseOther ht _ hs _ _ => exact hi.releaseOther ht hs
  | releaseMain ht _ hs => exact hi.releaseMain ht hs

/-- Where a thread stands in the list of threads after one more is added. -/
theorem threads_spawn (w : World) (pc : Pc) (t' : Nat) :
    (w.threads ++ [pc])[t']? = w.threads[t']? ∨
      ((w.threads ++ [pc])[t']? = some pc ∧ w.threads[t']? = none) := by
  rcases Nat.lt_trichotomy t' w.threads.length with hlt | rfl | hgt
  · exact .inl (List.getElem?_append_left hlt)
  · exact .inr ⟨List.getElem?_concat_length, List.getElem?_eq_none (Nat.le_refl _)⟩
  · left
    rw [List.getElem?_eq_none (by simp; omega), List.getElem?_eq_none (Nat.le_of_lt hgt)]

/-- A new thread enters `get` or `Release` at a point where it holds no lock. -/
theorem LockInv.spawn (hi : w.LockInv) {pc : Pc} (hmu : pc.holdsMu = false)
    (hmain : ∀ s, pc ≠ .releaseMain s) (hok : w.PcOk pc) :
    { w with threads := w.threads ++ [pc] }.LockInv where
  mu_iff t' := by
    show w.mu = some t' ↔ ∃ pc', (w.threads ++ [pc])[t']? = some pc' ∧ pc'.holdsMu = true
    rcases threads_spawn w pc t' with h | ⟨h, hnone⟩
    · rw [h]
      exact hi.mu_iff t'
    · rw [h, hi.mu_iff t', hnone]
      simp [hmu]
  share_iff s sh hs t' := by
    show sh.mu = some t' ↔ (w.threads ++ [pc])[t']? = some (.releaseMain s)
    rcases threads_spawn w pc t' with h | ⟨h, hnone⟩
    · rw [h]
      exact hi.share_iff s sh hs t'
    · rw [h, hi.share_iff s sh hs t', hnone]
      simp [hmain s]
  pc_ok t' pc' h' := by
    change (w.threads ++ [pc])[t']? = some pc' at h'
    rcases threads_spawn w pc t' with h | ⟨h, -⟩
    · rw [h] at h'
      exact hi.pc_ok t' pc' h'
    · rw [h, Option.some.injEq] at h'
      subst h'
      exact hok
  shares_lt := hi.shares_lt

theorem pcOk_of_releasable {hd : Nat} (h : w.releasable hd = true) : w.PcOk (.releaseLock hd) := by
  unfold releasable at h
  split at h
  next s hh =>
    split at h
    next sh hs => exact ⟨s, hh, (List.getElem?_eq_some_iff.mp hs).1⟩
    next => cases h
  next => cases h

/-- Whatever happens keeps the invariant. -/
theorem LockInv.act (hi : w.LockInv) {a : Act} (h : w.act a = some w') : w'.LockInv := by
  cases a with
  | spawnGet key =>
    simp only [World.act, Option.some.injEq] at h
    subst h
    exact hi.spawn rfl (fun _ => nofun) trivial
  | spawnRelease hd =>
    simp only [World.act] at h
    split at h
    next hrel =>
      cases h
      exact hi.spawn rfl (fun _ => nofun) (pcOk_of_releasable hrel)
    next => cases h
  | step t => exact hi.moves (moves_of_step h)
  | failFn t => exact hi.moves (moves_of_failFn h)

end Steps

end World

/-- In every reachable world the locks are held as `LockInv` says. -/
theorem Reachable.lockInv {w : World} (h : Reachable w) : w.LockInv := by
  induction h with
  | empty => exact World.lockInv_empty
  | act a _ ha ih => exact ih.act ha

/-- Every world a run reaches from a reachable one is reachable. -/
theorem Reachable.run {w w' : World} (hr : Reachable w) {acts : List Act}
    (h : w.run acts = some w') : Reachable w' :=
  Loop.foldlM_keeps Reachable (fun a _ _ _ ha hr => .act a hr ha) h hr

/-! ## Deadlock -/

namespace World

/-- No thread can move, and some have not returned. -/
def Stuck (w : World) : Prop :=
  (∃ pc ∈ w.threads, pc ≠ .done) ∧ ∀ t < w.threads.length, w.step t = none

instance : DecidablePred Stuck := fun w =>
  inferInstanceAs
    (Decidable ((∃ pc ∈ w.threads, pc ≠ .done) ∧ ∀ t < w.threads.length, w.step t = none))

section Blocked

variable {w : World} {t : Nat}

theorem step_of_length_le (h : w.threads.length ≤ t) : w.step t = none := by
  simp [step, List.getElem?_eq_none h]

/-- A thread at the lookup always moves: the lookup takes no lock. -/
theorem step_ne_none_of_lookup {key : String} (ht : w.threads[t]? = some (.getLookup key)) :
    w.step t ≠ none := by
  simp only [step, ht]
  split <;> simp

/-- A `get` stuck before the registry's lock finds it held. -/
theorem mu_held_of_getLock {key : String} (ht : w.threads[t]? = some (.getLock key))
    (hst : w.step t = none) : ∃ t₁, w.mu = some t₁ := by
  simp only [step, ht] at hst
  split at hst
  · cases hst
  · exact Option.ne_none_iff_exists'.mp ‹_›

/-- A `release` stuck before the registry's lock finds it held. -/
theorem LockInv.mu_held_of_main (hi : w.LockInv) {s : Nat}
    (ht : w.threads[t]? = some (.releaseMain s)) (hst : w.step t = none) : ∃ t₁, w.mu = some t₁ := by
  have hs := List.getElem?_eq_getElem (hi.pc_ok t _ ht)
  simp only [step, ht, hs] at hst
  split at hst
  · cases hst
  · exact Option.ne_none_iff_exists'.mp ‹_›

/-- A `clone` stuck on its share finds the share's lock held by the thread in its `release`. -/
theorem LockInv.share_held_of_clone (hi : w.LockInv) {s : Nat}
    (ht : w.threads[t]? = some (.getClone s)) (hst : w.step t = none) :
    ∃ t₂ sh, w.objs[s]? = some sh ∧ sh.mu = some t₂ ∧ w.threads[t₂]? = some (.releaseMain s) := by
  have hs := List.getElem?_eq_getElem (hi.pc_ok t _ ht)
  simp only [step, ht, hs] at hst
  split at hst
  · cases hst
  · obtain ⟨t₂, h₂⟩ := Option.ne_none_iff_exists'.mp ‹_›
    exact ⟨t₂, _, hs, h₂, (hi.share_iff s _ hs t₂).mp h₂⟩

/-- A `Release` stuck on the share's lock finds it held by the thread in the share's `release`. -/
theorem LockInv.main_of_release (hi : w.LockInv) {h : Nat}
    (ht : w.threads[t]? = some (.releaseLock h)) (hst : w.step t = none) :
    ∃ t₂ s : Nat, w.threads[t₂]? = some (Pc.releaseMain s) := by
  obtain ⟨s, hh, hlt⟩ := hi.pc_ok t _ ht
  have hs := List.getElem?_eq_getElem hlt
  simp only [step, ht, hh, hs] at hst
  split at hst
  · split at hst <;> cases hst
  · obtain ⟨t₂, h₂⟩ := Option.ne_none_iff_exists'.mp ‹_›
    exact ⟨t₂, s, (hi.share_iff s _ hs t₂).mp h₂⟩

/-- With no thread able to move, the holder of the registry's lock waits in `clone` for a share
whose lock the thread in its `release` holds. -/
theorem LockInv.inversion_of_mu (hi : w.LockInv) (hst : ∀ t, w.step t = none) {t₁ : Nat}
    (hmu : w.mu = some t₁) :
    ∃ s, w.threads[t₁]? = some (.getClone s) ∧
      ∃ t₂ sh, w.objs[s]? = some sh ∧ sh.mu = some t₂ ∧ w.threads[t₂]? = some (.releaseMain s) := by
  obtain ⟨pc, ht, hholds⟩ := (hi.mu_iff t₁).mp hmu
  cases pc with
  | getLookup key => exact absurd (hst t₁) (step_ne_none_of_lookup ht)
  | getClone s => exact ⟨s, ht, hi.share_held_of_clone ht (hst t₁)⟩
  | getLock _ | releaseLock _ | releaseMain _ | done => cases hholds

end Blocked

end World

/-- The schedule of the inversion: a `get` of `"k"` makes its share, the `Release` of its handle
takes the share's lock, and a second `get` of `"k"` takes the registry's lock and finds the share
before the `Release` takes it. -/
def inversionSchedule : List Act :=
  [.spawnGet "k", .step 0, .step 0, .spawnRelease 0, .spawnGet "k", .step 1, .step 2, .step 2]

/-- The only deadlock is the lock inversion: in every reachable world where no thread can move
and some have not returned, a `get` holds the registry's lock and waits in `clone` for a share
whose lock a `Release` holds while it waits in `release` for the registry's. -/
theorem stuck_lock_inversion {w : World} (hr : Reachable w) (hs : w.Stuck) :
    ∃ t₁ t₂ s, w.mu = some t₁ ∧ w.threads[t₁]? = some (.getClone s) ∧
      (∃ sh, w.objs[s]? = some sh ∧ sh.mu = some t₂) ∧ w.threads[t₂]? = some (.releaseMain s) := by
  have hi := hr.lockInv
  obtain ⟨⟨pc, hmem, hpc⟩, hsteps⟩ := hs
  have hst : ∀ t, w.step t = none := fun t =>
    (Nat.lt_or_ge t w.threads.length).elim (hsteps t) World.step_of_length_le
  -- it is enough that some thread holds the registry's lock
  suffices ∃ t₁, w.mu = some t₁ by
    obtain ⟨t₁, hmu⟩ := this
    obtain ⟨s, hc, t₂, sh, hsh, hmu₂, hm⟩ := hi.inversion_of_mu hst hmu
    exact ⟨t₁, t₂, s, hmu, hc, ⟨sh, hsh, hmu₂⟩, hm⟩
  obtain ⟨t, ht⟩ := List.mem_iff_getElem?.mp hmem
  cases pc with
  | getLock key => exact World.mu_held_of_getLock ht (hst t)
  | getLookup key => exact absurd (hst t) (World.step_ne_none_of_lookup ht)
  | getClone s => exact ⟨t, hi.mu_of_holds ht rfl⟩
  | releaseLock h =>
    obtain ⟨t₂, s, hm⟩ := hi.main_of_release ht (hst t)
    exact hi.mu_held_of_main hm (hst t₂)
  | releaseMain s => exact hi.mu_held_of_main ht (hst t)
  | done => exact absurd rfl hpc

/-- The world the inversion schedule reaches is stuck, and it is stuck in the inversion. -/
theorem stuck_lock_inversion_schedule :
    ∃ w, empty.run inversionSchedule = some w ∧ Reachable w ∧ w.Stuck ∧
      ∃ t₁ t₂ s, w.mu = some t₁ ∧ w.threads[t₁]? = some (.getClone s) ∧
        (∃ sh, w.objs[s]? = some sh ∧ sh.mu = some t₂) ∧ w.threads[t₂]? = some (.releaseMain s) := by
  obtain ⟨w, hw⟩ : ∃ w, empty.run inversionSchedule = some w :=
    Option.isSome_iff_exists.mp (by decide)
  have hstuck : w.Stuck := by
    have hall : ∀ v ∈ empty.run inversionSchedule, v.Stuck := by decide
    exact hall w hw
  have hr : Reachable w := Reachable.empty.run hw
  exact ⟨w, hw, hr, hstuck, stuck_lock_inversion hr hstuck⟩

namespace World

section Inversion

variable {w : World} {t₁ t₂ s : Nat}

/-- Neither side of a lock inversion can move: the `clone` waits for the share's lock, which the
`release` holds, and the `release` for the registry's, which the `clone` holds. -/
theorem LockInv.inversion_blocked (hi : w.LockInv) (hc : w.threads[t₁]? = some (.getClone s))
    (hm : w.threads[t₂]? = some (.releaseMain s)) : w.step t₁ = none ∧ w.step t₂ = none := by
  have hlt : s < w.objs.length := hi.pc_ok t₁ _ hc
  have hs := List.getElem?_eq_getElem hlt
  have hheld : w.objs[s].mu = some t₂ := (hi.share_iff s _ hs t₂).mpr hm
  have hmu : w.mu = some t₁ := hi.mu_of_holds hc rfl
  constructor
  · simp [step, hc, hs, hheld]
  · simp [step, hm, hmu]

/-- Nothing that happens moves either side of a lock inversion. -/
theorem LockInv.inversion_act (hi : w.LockInv) (hc : w.threads[t₁]? = some (.getClone s))
    (hm : w.threads[t₂]? = some (.releaseMain s)) {a : Act} {w' : World}
    (ha : w.act a = some w') :
    w'.threads[t₁]? = some (.getClone s) ∧ w'.threads[t₂]? = some (.releaseMain s) := by
  cases a with
  | spawnGet key =>
    simp only [World.act, Option.some.injEq] at ha
    subst ha
    exact ⟨getElem?_append_of_some _ _ _ hc, getElem?_append_of_some _ _ _ hm⟩
  | spawnRelease hd =>
    simp only [World.act] at ha
    split at ha
    next =>
      cases ha
      exact ⟨getElem?_append_of_some _ _ _ hc, getElem?_append_of_some _ _ _ hm⟩
    next => cases ha
  | step t =>
    have hmv := moves_of_step ha
    obtain ⟨h₁, h₂⟩ := hi.inversion_blocked hc hm
    have hne₁ : t₁ ≠ t := by rintro rfl; simp [World.act, h₁] at ha
    have hne₂ : t₂ ≠ t := by rintro rfl; simp [World.act, h₂] at ha
    rw [hmv.threads_ne hne₁, hmv.threads_ne hne₂]
    exact ⟨hc, hm⟩
  | failFn t =>
    have hmv := moves_of_failFn ha
    -- only a thread at the lookup runs `fn`
    have hne₁ : t₁ ≠ t := by rintro rfl; simp [World.act, World.failFn, hc] at ha
    have hne₂ : t₂ ≠ t := by rintro rfl; simp [World.act, World.failFn, hm] at ha
    rw [hmv.threads_ne hne₁, hmv.threads_ne hne₂]
    exact ⟨hc, hm⟩

end Inversion

end World

/-- A lock inversion never resolves: whatever happens after it, both threads still wait. -/
theorem Reachable.inversion_run {w w' : World} (hr : Reachable w) {t₁ t₂ s : Nat}
    (hc : w.threads[t₁]? = some (.getClone s)) (hm : w.threads[t₂]? = some (.releaseMain s))
    {acts : List Act} (h : w.run acts = some w') :
    w'.threads[t₁]? = some (.getClone s) ∧ w'.threads[t₂]? = some (.releaseMain s) := by
  have hkeep := Loop.foldlM_keeps
    (fun v => Reachable v ∧ v.threads[t₁]? = some (.getClone s) ∧
      v.threads[t₂]? = some (.releaseMain s))
    (fun a _ _ _ ha ⟨hr, hc, hm⟩ => ⟨.act a hr ha, hr.lockInv.inversion_act hc hm ha⟩) h
    ⟨hr, hc, hm⟩
  exact hkeep.2

theorem get_release_deadlock :
    ∃ w, empty.run inversionSchedule = some w ∧ w.Stuck ∧
      ∀ (acts : List Act) (w' : World), w.run acts = some w' →
        w'.threads[2]? = some (.getClone 0) ∧ w'.threads[1]? = some (.releaseMain 0) := by
  obtain ⟨w, hw⟩ : ∃ w, empty.run inversionSchedule = some w :=
    Option.isSome_iff_exists.mp (by decide)
  have hfacts : w.Stuck ∧ w.threads[2]? = some (.getClone 0) ∧
      w.threads[1]? = some (.releaseMain 0) := by
    have hall : ∀ v ∈ empty.run inversionSchedule, v.Stuck ∧
        v.threads[2]? = some (.getClone 0) ∧ v.threads[1]? = some (.releaseMain 0) := by
      decide
    exact hall w hw
  have hr : Reachable w := Reachable.empty.run hw
  exact ⟨w, hw, hfacts.1, fun _ _ h => hr.inversion_run hfacts.2.1 hfacts.2.2 h⟩

end CacheRefs

end Buildkit
