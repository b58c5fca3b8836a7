import Mathlib.Data.List.Sort
import Mathlib.Data.List.Lex

/-!
# A prefix scan over sorted keys

A key-value store that keeps its keys sorted answers a prefix query with a cursor. It seeks to
the first key not below the prefix, then reads keys for as long as they start with it. In the
lexicographic order the keys with a prefix come together, right after the keys below the prefix
(`not_lt_of_prefix`, `lt_of_prefix_of_not_prefix`). So the scan reads exactly the keys with the
prefix, in order (`scan_seek_eq_filter`).
-/

namespace Cursor

variable {α : Type} [LinearOrder α]

/-- The keys from the first one not below `p`: a cursor's `Seek(p)` and the keys after it. -/
def seek (p : List α) (l : List (List α)) : List (List α) := l.dropWhile (· < p)

/-- The keys read from a cursor for as long as they start with `p`. -/
def scan (p : List α) (l : List (List α)) : List (List α) := l.takeWhile (p.isPrefixOf ·)

/-- A key is not below a prefix of it. -/
theorem not_lt_of_prefix : ∀ {p k : List α}, p <+: k → ¬ k < p
  | [], k, _ => List.not_lt_nil k
  | a :: p, _, ⟨t, rfl⟩ => by
    rw [List.cons_append, List.cons_lt_cons_self]
    exact not_lt_of_prefix (List.prefix_append p t)

/-- A key that is not below `p` and does not start with it is above every key that does. -/
theorem lt_of_prefix_of_not_prefix :
    ∀ {p k k' : List α}, p <+: k → ¬ k' < p → ¬ p <+: k' → k < k'
  | [], _, k', _, _, hk' => absurd (List.nil_prefix (l := k')) hk'
  | a :: p, _, [], _, hle, _ => absurd (List.nil_lt_cons a p) hle
  | a :: p, _, b :: k', ⟨t, rfl⟩, hle, hk' => by
    rw [List.cons_append]
    rcases lt_trichotomy b a with hb | rfl | hb
    · exact absurd (List.cons_lt_cons_iff.mpr (.inl hb)) hle
    · -- equal heads: the comparison goes on with the tails
      rw [List.cons_lt_cons_self] at hle ⊢
      have hk'' : ¬ p <+: k' := fun h => hk' (List.cons_prefix_cons.mpr ⟨rfl, h⟩)
      exact lt_of_prefix_of_not_prefix (List.prefix_append p t) hle hk''
    · exact List.cons_lt_cons_iff.mpr (.inl hb)

/-- A seek stops at once at a first key not below `p`. -/
theorem seek_of_not_lt {k : List α} {l : List (List α)} {p : List α} (h : ¬ k < p) :
    seek p (k :: l) = k :: l := by
  simp [seek, h]

/-- Over sorted keys, the scan after a seek to `p` reads exactly the keys that start with `p`.
By induction on the keys: a key below `p` is skipped and has not the prefix; once a key is not
below `p`, the keys with the prefix all come before the first key without it. -/
theorem scan_seek_eq_filter (p : List α) :
    ∀ {l : List (List α)}, l.Pairwise (· ≤ ·) → scan p (seek p l) = l.filter (p.isPrefixOf ·)
  | [], _ => rfl
  | k :: l, hs => by
    obtain ⟨hk, hl⟩ := List.pairwise_cons.mp hs
    by_cases hkp : k < p
    · have hnot : p.isPrefixOf k = false := by
        rw [Bool.eq_false_iff, Ne, List.isPrefixOf_iff_prefix]
        exact fun h => not_lt_of_prefix h hkp
      have hdrop : seek p (k :: l) = seek p l := by simp [seek, hkp]
      rw [hdrop, scan_seek_eq_filter p hl, List.filter_cons_of_neg (by simp [hnot])]
    · rw [seek_of_not_lt hkp]
      -- every later key is not below `p` either, so the seek leaves them all
      have hrest : seek p l = l := by
        cases l with
        | nil => rfl
        | cons k' l' =>
          exact seek_of_not_lt fun h => hkp (lt_of_le_of_lt (hk k' List.mem_cons_self) h)
      have ih := scan_seek_eq_filter p hl
      rw [hrest] at ih
      by_cases hpk : p.isPrefixOf k = true
      · simp [scan, hpk, List.filter_cons_of_pos, ← ih]
      · -- the first key without the prefix is above every key with it, and keys after it are
        -- not below it
        have hnone : l.filter (p.isPrefixOf ·) = [] := by
          rw [List.filter_eq_nil_iff]
          intro k' hk' hpk'
          rw [List.isPrefixOf_iff_prefix] at hpk'
          have hlt := lt_of_prefix_of_not_prefix hpk' hkp (by rwa [← List.isPrefixOf_iff_prefix])
          exact absurd (hk k' hk') (not_le.mpr hlt)
        simp [scan, hpk, hnone]

end Cursor
