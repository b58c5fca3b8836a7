import Mathlib.Data.List.Nodup

/-!
# The environment of an LLB state

`EnvList` of `client/llb/meta.go`: the variables of a state, in the order they were set. `Index`
finds the first pair of a key, and `AddOrReplace` deletes that pair and appends the key with its
new value, so that on a list with each key once a key set again has its latest value
(`get_addOrReplace`), and over a run of sets the latest of each key wins
(`get_foldl_addOrReplace`).
-/

namespace Buildkit

namespace Client

/-- `EnvList`, by its `KeyValue` pairs. -/
abbrev EnvList := List (String × String)

namespace EnvList

/-- `EnvList.Get`: the value of the pair at `Index`, the first pair of the key. -/
def get (e : EnvList) (k : String) : Option String := (e.find? (·.1 = k)).map (·.2)

/-- `EnvList.Delete`: the list without the pair at `Index`. -/
def delete (e : EnvList) (k : String) : EnvList := e.eraseP (·.1 = k)

/-- `EnvList.AddOrReplace`. -/
def addOrReplace (e : EnvList) (k v : String) : EnvList := e.delete k ++ [(k, v)]

/-- Each key is set at most once. -/
def KeysNodup (e : EnvList) : Prop := (e.map (·.1)).Nodup

@[simp] theorem get_nil (k : String) : get [] k = none := rfl

theorem get_cons (p : String × String) (e : EnvList) (k : String) :
    get (p :: e) k = if p.1 = k then some p.2 else get e k := by
  by_cases h : p.1 = k <;> simp [get, h]

theorem get_append_singleton (e : EnvList) (k' v k : String) :
    get (e ++ [(k', v)]) k = (get e k).orElse fun _ => if k' = k then some v else none := by
  cases hf : e.find? (·.1 = k) with
  | none => by_cases h : k' = k <;> simp [get, List.find?_append, hf, h]
  | some p => simp [get, List.find?_append, hf]

theorem get_eq_none_iff {e : EnvList} {k : String} : get e k = none ↔ k ∉ e.map (·.1) := by
  simp only [get, Option.map_eq_none_iff, List.find?_eq_none, List.mem_map, not_exists, not_and,
    decide_eq_true_eq]

theorem get_eq_none_of_not_mem {e : EnvList} {k : String} (h : k ∉ e.map (·.1)) : get e k = none :=
  get_eq_none_iff.mpr h

theorem get_delete {e : EnvList} (hnd : e.KeysNodup) (k k' : String) :
    get (e.delete k) k' = if k = k' then none else get e k' := by
  induction e with
  | nil => simp [delete]
  | cons p e ih =>
    obtain ⟨k₀, v₀⟩ := p
    have hnd' : KeysNodup e := (List.nodup_cons.mp hnd).2
    have hk₀ : k₀ ∉ e.map (·.1) := (List.nodup_cons.mp hnd).1
    by_cases h : k₀ = k
    · -- the first pair is the one deleted, and the key is nowhere else
      subst h
      have hdel : delete ((k₀, v₀) :: e) k₀ = e := by simp [delete]
      rw [hdel]
      by_cases h' : k₀ = k'
      · subst h'; simp [get_eq_none_of_not_mem hk₀]
      · simp [h', get_cons]
    · have hdel : delete ((k₀, v₀) :: e) k = (k₀, v₀) :: delete e k := by
        simp [delete, h]
      rw [hdel, get_cons, get_cons, ih hnd']
      by_cases h' : k₀ = k'
      · subst h'; simp [Ne.symm h]
      · simp [h']

theorem keysNodup_delete {e : EnvList} (hnd : e.KeysNodup) (k : String) : KeysNodup (e.delete k) :=
  (List.Sublist.map _ (List.eraseP_sublist)).nodup hnd

theorem not_mem_delete {e : EnvList} (hnd : e.KeysNodup) (k : String) :
    k ∉ (e.delete k).map (·.1) := by
  intro hk
  obtain ⟨p, hp, hpk⟩ := List.mem_map.mp hk
  have hget : get (e.delete k) k ≠ none := by
    simp only [get, ne_eq, Option.map_eq_none_iff, List.find?_eq_none, not_forall, not_not]
    exact ⟨p, hp, by simp [hpk]⟩
  exact hget (by simp [get_delete hnd])

theorem keysNodup_addOrReplace {e : EnvList} (hnd : e.KeysNodup) (k v : String) :
    KeysNodup (e.addOrReplace k v) := by
  simp only [KeysNodup, addOrReplace, List.map_append, List.map_cons, List.map_nil]
  rw [List.nodup_append]
  refine ⟨keysNodup_delete hnd k, List.nodup_singleton k, ?_⟩
  intro a ha b hb hab
  rw [List.mem_singleton] at hb
  subst hb hab
  exact not_mem_delete hnd _ ha

theorem get_addOrReplace {e : EnvList} (hnd : e.KeysNodup) (k v k' : String) :
    get (e.addOrReplace k v) k' = if k = k' then some v else get e k' := by
  rw [addOrReplace, get_append_singleton, get_delete hnd]
  by_cases h : k = k' <;> simp [h]

/-- Over a run of `AddOrReplace`, the latest pair of a key wins over what the list had. -/
theorem get_foldl_addOrReplace (ps : List (String × String)) {e : EnvList} (hnd : e.KeysNodup)
    (k : String) :
    get (ps.foldl (fun e p => e.addOrReplace p.1 p.2) e) k =
      ((ps.reverse.find? (·.1 = k)).map (·.2)).orElse fun _ => get e k := by
  induction ps generalizing e with
  | nil => simp
  | cons p ps ih =>
    rw [List.foldl_cons, ih (keysNodup_addOrReplace hnd p.1 p.2), get_addOrReplace hnd,
      List.reverse_cons, List.find?_append]
    cases hf : ps.reverse.find? (·.1 = k) with
    | some q => simp
    | none => by_cases h : p.1 = k <;> simp [h]

/-- On a list with each key once, the last pair of a key is its first. -/
theorem find?_reverse_of_keysNodup {ps : List (String × String)} (hps : KeysNodup ps) (k : String) :
    ps.reverse.find? (·.1 = k) = ps.find? (·.1 = k) := by
  induction ps with
  | nil => rfl
  | cons p ps ih =>
    have hp : p.1 ∉ ps.map (·.1) := (List.nodup_cons.mp hps).1
    rw [List.reverse_cons, List.find?_append, ih (List.nodup_cons.mp hps).2]
    cases hf : ps.find? (·.1 = k) with
    | some q =>
      -- `k` is a key of `ps`, so not that of `p`
      have hq : q.1 = k := by simpa using List.find?_some hf
      have hpk : p.1 ≠ k := fun h => hp (h ▸ hq ▸ List.mem_map_of_mem (List.mem_of_find?_eq_some hf))
      simp [hpk, hf]
    | none => by_cases h : p.1 = k <;> simp [h, hf]

/-- A run of `AddOrReplace` over a list with each key once gives each of its keys its value
there. -/
theorem get_foldl_addOrReplace_of_keysNodup {ps : List (String × String)} (hps : KeysNodup ps)
    {e : EnvList} (hnd : e.KeysNodup) (k : String) :
    get (ps.foldl (fun e p => e.addOrReplace p.1 p.2) e) k = (get ps k).orElse fun _ => get e k := by
  rw [get_foldl_addOrReplace ps hnd k, find?_reverse_of_keysNodup hps k]
  rfl

theorem keysNodup_foldl_addOrReplace (ps : List (String × String)) {e : EnvList}
    (hnd : e.KeysNodup) : KeysNodup (ps.foldl (fun e p => e.addOrReplace p.1 p.2) e) := by
  induction ps generalizing e with
  | nil => exact hnd
  | cons p ps ih => exact ih (keysNodup_addOrReplace hnd p.1 p.2)

end EnvList

end Client

end Buildkit
