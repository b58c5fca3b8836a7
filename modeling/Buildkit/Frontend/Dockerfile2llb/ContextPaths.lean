import Mathlib.Data.String.Basic
import Buildkit.Lib.Loop
import Buildkit.Lib.Path
import Buildkit.Lib.Sort
import Buildkit.Lib.Strings

/-!
# The paths a Dockerfile reads from its context

`Dockerfile2LLB` collects the paths that COPY and ADD read from the build context, each
`path.Join("/", src)`, and `normalizeContextPaths` of `dockerfile2llb/convert.go` turns them into
the `FollowPaths` of the context: nil, to send all of it, if one of them is `/`; and otherwise the
paths below no other one, relative and sorted.

The function deletes from the map while a double loop runs over a snapshot of its keys, so that
a path below one already deleted is deleted too, by the snapshot. Over a set of clean absolute
paths, the result is the strictly ascending list of the `Join(".", p)` of the paths `p` below no
other one (`normalizeContextPaths_minimal_cover`): every path is one of them or below one, and
none of them is below another.

Representation. The map is the list of its keys, without duplicates, and each loop over it visits
them in an `IterOrder` of its own. The set `toDelete` of the source, which nothing adds to, is
left out; Go's nil slice is `none`.
-/

namespace Buildkit

namespace Dockerfile2llb

/-- The inner loop of `normalizeContextPaths` for the path `pi` at the place `i` of the snapshot
`pathSlice`: each path at another place is deleted from the map `paths` if it is below `pi`. -/
def deleteBelowAt (pathSlice : List String) (pi : String) (i : Nat) (paths : List String) :
    List String :=
  pathSlice.zipIdx.foldl (fun paths (pj, j) =>
    if i = j then paths
    else if Strings.hasPrefix pj (pi ++ "/") then paths.erase pj else paths) paths

/-- The double loop of `normalizeContextPaths` over the snapshot `pathSlice`. -/
def deleteBelow (pathSlice paths : List String) : List String :=
  pathSlice.zipIdx.foldl (fun paths (pi, i) => deleteBelowAt pathSlice pi i paths) paths

/-- `normalizeContextPaths` of the keys `paths` of a map, whose two loops visit them in the
orders `ord₁` and `ord₂`. -/
def normalizeContextPaths (ord₁ ord₂ : IterOrder String) (paths : List String) :
    Outcome (Option (List String)) :=
  -- the first loop returns nil at "/", and else copies the keys
  if "/" ∈ paths then pure none
  else do
    let paths := deleteBelow (ord₁.order paths) paths
    let toSort := (ord₂.order paths).map fun p => Path.join [".", p]
    let toSort ← GoSort.sortSlice (fun a b => pure (decide (a < b))) toSort
    pure (some toSort)

example : normalizeContextPaths .stored .stored ["/b", "/a/c", "/a"] = .ok (some ["a", "b"]) := by
  decide +kernel

/-! ## The double loop -/

/-- A path is below `q`. -/
def Below (p q : String) : Prop := Strings.hasPrefix p (q ++ "/") = true

instance (p q : String) : Decidable (Below p q) := inferInstanceAs (Decidable (_ = true))

theorem not_below_self (p : String) : ¬ Below p p := by
  simp [Below, Strings.not_hasPrefix_slash_self]

theorem below_trans {p q r : String} (hpq : Below p q) (hqr : Below q r) : Below p r :=
  Strings.hasPrefix_trans hpq (Strings.hasPrefix_append_of_hasPrefix hqr "/")

/-- An iteration of the inner loop deletes the path at its place if it is below `pi` and the
place is another. -/
theorem deleteBelowAt_step (pi : String) (i : Nat) (ps : List String) (y : String × Nat) :
    (match y with
      | (pj, j) => if i = j then ps else if Strings.hasPrefix pj (pi ++ "/") then ps.erase pj else ps) =
      if i ≠ y.2 ∧ Below y.1 pi then ps.erase y.1 else ps := by
  obtain ⟨pj, j⟩ := y
  by_cases hij : i = j <;> simp [Below, hij]

theorem nodup_deleteBelowAt (pathSlice : List String) (pi : String) (i : Nat) {ps : List String}
    (hnd : ps.Nodup) : (deleteBelowAt pathSlice pi i ps).Nodup :=
  List.nodup_foldl_erase (deleteBelowAt_step pi i) _ hnd

theorem nodup_deleteBelow (pathSlice : List String) {paths : List String} (hnd : paths.Nodup) :
    (deleteBelow pathSlice paths).Nodup :=
  Loop.foldl_inv List.Nodup _ (fun x _ _ h => nodup_deleteBelowAt pathSlice x.1 x.2 h) hnd

theorem mem_deleteBelowAt {pathSlice ps : List String} (hnd : ps.Nodup) (pi : String) (i : Nat)
    (a : String) : a ∈ deleteBelowAt pathSlice pi i ps ↔
      a ∈ ps ∧ ∀ y ∈ pathSlice.zipIdx, i ≠ y.2 ∧ Below y.1 pi → y.1 ≠ a :=
  List.mem_foldl_erase_iff (deleteBelowAt_step pi i) hnd

/-- What the double loop leaves of a map whose keys are all in the snapshot: the paths below no
path of the snapshot. -/
theorem mem_deleteBelow {pathSlice paths : List String} (hnd : paths.Nodup)
    (hsub : paths ⊆ pathSlice) {a : String} :
    a ∈ deleteBelow pathSlice paths ↔ a ∈ paths ∧ ∀ q ∈ pathSlice, ¬ Below a q := by
  rw [deleteBelow, List.mem_foldl_iff List.Nodup
    (fun x a => ∀ y ∈ pathSlice.zipIdx, x.2 ≠ y.2 ∧ Below y.1 x.1 → y.1 ≠ a)
    (fun _ x h => nodup_deleteBelowAt pathSlice x.1 x.2 h)
    (fun _ x a h => mem_deleteBelowAt h x.1 x.2 a) hnd]
  refine and_congr_right fun ha => ⟨fun h q hq hbelow => ?_, fun h x hx y hy hxy hya => ?_⟩
  · -- `q` and `a` stand at two places of the snapshot, and the first deletes the second
    obtain ⟨i, hi⟩ := List.getElem?_of_mem hq
    obtain ⟨j, hj⟩ := List.getElem?_of_mem (hsub ha)
    have hij : i ≠ j := by
      rintro rfl
      rw [hi] at hj
      cases hj
      exact not_below_self _ hbelow
    exact h (q, i) (List.mem_zipIdx_iff_getElem?.mpr hi) (a, j)
      (List.mem_zipIdx_iff_getElem?.mpr hj) ⟨hij, hbelow⟩ rfl
  · subst hya
    exact h x.1 (List.mem_of_getElem? (List.mem_zipIdx_iff_getElem?.mp hx)) hxy.2

theorem below_slash_append_iff {p q : String} : Below ("/" ++ p) ("/" ++ q) ↔ Below p q := by
  rw [Below, Below, String.append_assoc, Strings.hasPrefix_append_left]

/-- Below every path of a finite set there is one of it that is below no other: the chain of
paths above it ends, since each is shorter than the one below. -/
theorem exists_minimal_below {P : List String} {p : String} (hp : p ∈ P) :
    ∃ q ∈ P, (∀ q' ∈ P, ¬ Below q q') ∧ (p = q ∨ Below p q) := by
  induction h : p.toList.length using Nat.strong_induction_on generalizing p with
  | _ n ih =>
    by_cases hmin : ∀ q ∈ P, ¬ Below p q
    · exact ⟨p, hp, hmin, .inl rfl⟩
    · obtain ⟨q, hq, hpq⟩ : ∃ q ∈ P, Below p q := by simpa using hmin
      obtain ⟨m, hm, hmmin, hqm⟩ :=
        ih _ (h ▸ Strings.length_lt_of_hasPrefix_slash hpq) hq rfl
      refine ⟨m, hm, hmmin, .inr ?_⟩
      rcases hqm with rfl | hqm
      · exact hpq
      · exact below_trans hpq hqm

/-! ## The result -/

/-- `path.Join(".", p)` gives back `p` after a slash, for a clean absolute path other than `/`. -/
theorem slash_append_join_dot {p : String} (habs : p.toList.head? = some '/')
    (hclean : Path.clean p = p) (hroot : p ≠ "/") : "/" ++ Path.join [".", p] = p := by
  obtain ⟨cs, hp⟩ := List.head?_eq_some_iff.mp habs
  rw [Path.join_dot_of_clean habs hclean hroot]
  apply String.toList_inj.mp
  simp [hp]

theorem normalizeContextPaths_of_mem (ord₁ ord₂ : IterOrder String) {P : List String}
    (h : "/" ∈ P) : normalizeContextPaths ord₁ ord₂ P = .ok none :=
  if_pos h

/-- Without `/`, the result is the sorted `Join(".", p)` of the paths the double loop leaves. -/
theorem normalizeContextPaths_spec (ord₁ ord₂ : IterOrder String) {P : List String}
    (h : "/" ∉ P) : ∃ r, normalizeContextPaths ord₁ ord₂ P = .ok (some r) ∧
      r.Perm ((deleteBelow (ord₁.order P) P).map fun p => Path.join [".", p]) ∧
      r.Pairwise (· ≤ ·) := by
  let toSort := (ord₂.order (deleteBelow (ord₁.order P) P)).map fun p => Path.join [".", p]
  obtain ⟨r, hr⟩ := GoSort.exists_sortSlice_eq_ok (fun _ _ => ⟨_, rfl⟩) toSort
  refine ⟨r, ?_, (GoSort.perm_sortSlice hr).trans ((ord₂.perm _).map _),
    GoSort.pairwise_sortSlice_key hr⟩
  simp only [normalizeContextPaths, if_neg h]
  rw [show (GoSort.sortSlice (fun a b => pure (decide (a < b))) toSort) = .ok r from hr]
  rfl

/-- The paths the double loop leaves are those below no other path. -/
theorem mem_deleteBelow_order (ord₁ : IterOrder String) {P : List String} (hnd : P.Nodup)
    {a : String} : a ∈ deleteBelow (ord₁.order P) P ↔ a ∈ P ∧ ∀ q ∈ P, ¬ Below a q := by
  rw [mem_deleteBelow hnd fun x hx => (ord₁.mem_order).mpr hx]
  simp only [IterOrder.mem_order]

/-- The sorted result holds the `Join(".", p)` of the paths below no other path. -/
theorem mem_of_perm_deleteBelow (ord₁ : IterOrder String) {P r : List String} (hnd : P.Nodup)
    (hperm : r.Perm ((deleteBelow (ord₁.order P) P).map fun p => Path.join [".", p])) (x : String) :
    x ∈ r ↔ ∃ p ∈ P, (∀ q ∈ P, ¬ Below p q) ∧ x = Path.join [".", p] := by
  rw [hperm.mem_iff, List.mem_map]
  constructor
  · rintro ⟨p, hp, rfl⟩
    exact ⟨p, ((mem_deleteBelow_order ord₁ hnd).mp hp).1, ((mem_deleteBelow_order ord₁ hnd).mp hp).2,
      rfl⟩
  · rintro ⟨p, hp, hmin, rfl⟩
    exact ⟨p, (mem_deleteBelow_order ord₁ hnd).mpr ⟨hp, hmin⟩, rfl⟩

section
variable {P : List String} (hP : ∀ p ∈ P, p.toList.head? = some '/' ∧ Path.clean p = p)
  (hroot : "/" ∉ P)
include hP hroot

theorem slash_append_join_dot_of_mem {p : String} (hp : p ∈ P) : "/" ++ Path.join [".", p] = p :=
  slash_append_join_dot (hP p hp).1 (hP p hp).2 (ne_of_mem_of_not_mem hp hroot)

theorem nodup_of_perm_deleteBelow (ord₁ : IterOrder String) {r : List String} (hnd : P.Nodup)
    (hperm : r.Perm ((deleteBelow (ord₁.order P) P).map fun p => Path.join [".", p])) : r.Nodup := by
  refine hperm.nodup_iff.mpr ((nodup_deleteBelow _ hnd).map_on fun p hp q hq h => ?_)
  -- both are paths of `P`, which `Join(".", ·)` tells apart
  have hp' := slash_append_join_dot_of_mem hP hroot ((mem_deleteBelow_order ord₁ hnd).mp hp).1
  have hq' := slash_append_join_dot_of_mem hP hroot ((mem_deleteBelow_order ord₁ hnd).mp hq).1
  rw [← hp', ← hq', h]

end

/-- `normalizeContextPaths` of a set of clean absolute paths: nil if one of them is `/`, and else
the strictly ascending list of the `Join(".", p)` of the paths `p` below no other one, such that
every path is one of them or below one, and none of them is below another. -/
theorem normalizeContextPaths_minimal_cover (ord₁ ord₂ : IterOrder String) {P : List String}
    (hnd : P.Nodup) (hP : ∀ p ∈ P, p.toList.head? = some '/' ∧ Path.clean p = p) :
    (normalizeContextPaths ord₁ ord₂ P = .ok none ↔ "/" ∈ P) ∧
    ("/" ∉ P → ∃ r, normalizeContextPaths ord₁ ord₂ P = .ok (some r) ∧ r.Pairwise (· < ·) ∧
      (∀ x, x ∈ r ↔ ∃ p ∈ P, (∀ q ∈ P, q ≠ p → ¬ Below p q) ∧ x = Path.join [".", p]) ∧
      (∀ p ∈ P, ∃ x ∈ r, p = "/" ++ x ∨ Below p ("/" ++ x)) ∧
      ∀ x ∈ r, ∀ y ∈ r, ¬ Below y x) := by
  refine ⟨⟨fun h => ?_, normalizeContextPaths_of_mem ord₁ ord₂⟩, fun hroot => ?_⟩
  · by_contra hroot
    obtain ⟨r, hr, -⟩ := normalizeContextPaths_spec ord₁ ord₂ hroot
    rw [hr] at h
    cases h
  obtain ⟨r, hr, hperm, hsorted⟩ := normalizeContextPaths_spec ord₁ ord₂ hroot
  have hmem := mem_of_perm_deleteBelow ord₁ hnd hperm
  have hslash : ∀ p ∈ P, "/" ++ Path.join [".", p] = p := fun _ hp =>
    slash_append_join_dot_of_mem hP hroot hp
  refine ⟨r, hr, ?_, fun x => ?_, fun p hp => ?_, fun x hx y hy hyx => ?_⟩
  · exact (hsorted.and (nodup_of_perm_deleteBelow hP hroot ord₁ hnd hperm)).imp
      fun h => lt_of_le_of_ne h.1 h.2
  · -- a path is never below itself, so "no other path" is "no path"
    rw [hmem]
    refine exists_congr fun p => and_congr_right fun _ => and_congr_left fun _ => ?_
    exact ⟨fun h q hq _ => h q hq, fun h q hq hpq => h q hq (fun hqp => not_below_self p (hqp ▸ hpq)) hpq⟩
  · obtain ⟨q, hq, hqmin, hpq⟩ := exists_minimal_below hp
    refine ⟨Path.join [".", q], (hmem _).mpr ⟨q, hq, hqmin, rfl⟩, ?_⟩
    rw [hslash q hq]
    exact hpq
  · -- the paths of `x` and `y` are the paths of `P` they come from, after a slash
    obtain ⟨px, hpx, -, rfl⟩ := (hmem x).mp hx
    obtain ⟨py, hpy, hpymin, rfl⟩ := (hmem y).mp hy
    have := below_slash_append_iff.mpr hyx
    rw [hslash px hpx, hslash py hpy] at this
    exact hpymin px hpx this

theorem normalizeContextPaths_minimal_cover_abc :
    ["/a", "/a/b", "/c"].Nodup ∧
      (∀ p ∈ ["/a", "/a/b", "/c"], p.toList.head? = some '/' ∧ Path.clean p = p) ∧
      (normalizeContextPaths .stored .stored ["/a", "/a/b", "/c"] = .ok none ↔ "/" ∈ ["/a", "/a/b", "/c"]) :=
  have hnd : ["/a", "/a/b", "/c"].Nodup := by decide
  have hP : ∀ p ∈ ["/a", "/a/b", "/c"], p.toList.head? = some '/' ∧ Path.clean p = p := by
    decide +kernel
  ⟨hnd, hP, (normalizeContextPaths_minimal_cover .stored .stored hnd hP).1⟩

end Dockerfile2llb

end Buildkit
