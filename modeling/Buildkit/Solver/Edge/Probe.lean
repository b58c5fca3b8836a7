import Buildkit.Solver.Edge.Frame

/-!
# The keys a dependency state brings, and those that are probed

`processUpdate` probes only the keys of a dependency state beyond as many as the dependency has
(`state.keys[len(dep.keys):]`), and then the dependency takes all of them. That reaches every
key as long as the states on one pipe extend each other's keys, as the states of one edge do
(`Edge.Progress`). After `scheduler.mergeTo` the pipe carries the states of the target edge,
whose keys need not extend those of the edge merged away: a key in front of them is never
queried.

`echoCache` is a cache manager that finds every key it is asked about, so that the keys a
dependency found are exactly those it probed.
-/

namespace Buildkit

/-- A cache manager that finds every key it is asked about. -/
def echoCache : CacheManager := ⟨fun ks _ _ _ => .ok (ks.map (·.cacheKey)), fun _ => .ok []⟩

namespace Edge

variable (cm : CacheManager)

/-- The fold of `probeCache` that adds the keys found. -/
theorem mem_foldl_found (l : List CacheKey) (acc : AList (fun _ : String => CacheKey) × Bool)
    (id : String) :
    id ∈ (l.foldl (fun (acc : AList (fun _ : String => CacheKey) × Bool) k =>
      if k.id ∈ acc.1 then acc else (acc.1.insert k.id k, true)) acc).1 ↔
      id ∈ acc.1 ∨ ∃ k ∈ l, k.id = id := by
  induction l generalizing acc with
  | nil => simp
  | cons k l ih =>
    rw [List.foldl_cons, ih]
    by_cases hk : k.id ∈ acc.1
    · rw [if_pos hk]
      constructor
      · rintro (h | ⟨k', hk', rfl⟩)
        · exact .inl h
        · exact .inr ⟨k', List.mem_cons_of_mem _ hk', rfl⟩
      · rintro (h | ⟨k', hk', rfl⟩)
        · exact .inl h
        · rcases List.mem_cons.mp hk' with rfl | hk'
          · exact .inl hk
          · exact .inr ⟨k', hk', rfl⟩
    · rw [if_neg hk]
      simp only [AList.mem_insert, List.mem_cons, exists_eq_or_imp]
      constructor
      · rintro ((rfl | h) | h)
        · exact .inr (.inl rfl)
        · exact .inl h
        · exact .inr (.inr h)
      · rintro (h | rfl | h)
        · exact .inl (.inr h)
        · exact .inl (.inl rfl)
        · exact .inr h

/-- What a dependency found after a probe with `echoCache`: what it had, and every key probed,
unless the edge ignores the cache. -/
theorem mem_probeKeyMap_echoCache (e : Edge) (d : Dep) (ks : List CacheKeyWithSelector)
    (id : String) :
    id ∈ probeKeyMap echoCache e d ks ↔
      id ∈ d.keyMap ∨ e.op.ignoreCache = false ∧ ∃ k ∈ ks, k.cacheKey.id = id := by
  unfold probeKeyMap probeCache
  by_cases hks : ks.isEmpty
  · rw [if_pos hks, List.isEmpty_iff.mp hks]
    simp
  · rw [if_neg hks]
    by_cases hig : e.op.ignoreCache = true
    · rw [if_pos hig]
      simp [hig]
    · rw [if_neg hig]
      simp only [echoCache]
      rw [mem_foldl_found]
      simp [hig]

/-- Once the dependency has fewer keys than the state and the cache map is known, the keys
beyond its own are probed and it takes the state's keys. -/
theorem probeNewKeys_snd_of_lt {e : Edge} {i : Nat} {d : Dep} {state : EdgeState}
    (h : d.keys.length < state.keys.length) (hm : e.cacheMap.isSome) :
    (probeNewKeys cm e i d state).2 = { d with
      keyMap := probeKeyMap cm e d
        (withSelector (state.keys.drop d.keys.length) (e.cacheMapDep d.index).selector)
      keys := state.keys } := by
  simp [probeNewKeys, h, hm]

end Edge

end Buildkit
