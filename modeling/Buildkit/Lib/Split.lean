import Mathlib.Data.List.Basic

/-!
# Words between separators

The words of a list, for a predicate `p` that marks its separators, are the pieces between
separators that are not empty: what a splitter at whitespace returns, run on a line in which
each character is marked as a separator or not. Everything about them follows from how they
split at a separator (`words_append_sep`) and what they are of a list with no separator
(`words_of_forall`): they are not empty, hold no separator, and are together the list without
its separators (`flatten_words`).
-/

namespace Split

variable {α : Type} (p : α → Bool)

/-- The pieces of `l` between elements that satisfy `p`, without the empty ones. -/
noncomputable def words (l : List α) : List (List α) := (l.splitOnP p).filter (!·.isEmpty)

variable {p}

theorem words_append_sep (x y : List α) {sep : α} (hsep : p sep = true) :
    words p (x ++ sep :: y) = words p x ++ words p y := by
  rw [words, List.splitOnP_append_cons x y hsep, List.filter_append]
  rfl

theorem words_of_forall {l : List α} (h : ∀ x ∈ l, p x = false) :
    words p l = if l = [] then [] else [l] := by
  rw [words, List.splitOnP_eq_singleton h]
  cases l <;> rfl

theorem words_cons_sep {sep : α} (hsep : p sep = true) (y : List α) :
    words p (sep :: y) = words p y := by
  simpa [words_of_forall] using words_append_sep [] y hsep

/-- A word is not empty and holds no separator. -/
theorem mem_words {l w : List α} (hw : w ∈ words p l) : w ≠ [] ∧ ∀ x ∈ w, p x = false := by
  -- induction on `l`, with a piece `pre` without separators already begun in front of it
  suffices H : ∀ (l pre : List α), (∀ x ∈ pre, p x = false) → w ∈ words p (pre ++ l) →
      w ≠ [] ∧ ∀ x ∈ w, p x = false from H l [] (by simp) (by simpa using hw)
  intro l
  induction l with
  | nil =>
    intro pre hpre hw
    rw [List.append_nil, words_of_forall hpre] at hw
    split at hw
    · cases hw
    · rw [List.mem_singleton] at hw
      subst hw
      exact ⟨by assumption, hpre⟩
  | cons x l ih =>
    intro pre hpre hw
    cases hx : p x with
    | true =>
      rw [words_append_sep pre l hx, List.mem_append] at hw
      rcases hw with hw | hw
      · rw [words_of_forall hpre] at hw
        split at hw
        · cases hw
        · rw [List.mem_singleton] at hw
          subst hw
          exact ⟨by assumption, hpre⟩
      · exact ih [] (by simp) (by simpa using hw)
    | false =>
      exact ih (pre ++ [x]) (List.forall_mem_append.mpr ⟨hpre, List.forall_mem_singleton.mpr hx⟩) (by simpa using hw)

/-- The words are the list without its separators. -/
theorem flatten_words (l : List α) : (words p l).flatten = l.filter (!p ·) := by
  suffices H : ∀ (l pre : List α), (∀ x ∈ pre, p x = false) →
      (words p (pre ++ l)).flatten = pre ++ l.filter (!p ·) by simpa using H l [] (by simp)
  intro l
  induction l with
  | nil =>
    intro pre hpre
    rw [List.append_nil, words_of_forall hpre]
    split <;> simp_all
  | cons x l ih =>
    intro pre hpre
    cases hx : p x with
    | true =>
      rw [words_append_sep pre l hx, List.flatten_append, words_of_forall hpre,
        List.filter_cons_of_neg (by simp [hx])]
      have := ih [] (by simp)
      rw [List.nil_append, List.nil_append] at this
      rw [this]
      split <;> simp_all
    | false =>
      have hpre' : ∀ y ∈ pre ++ [x], p y = false :=
        List.forall_mem_append.mpr ⟨hpre, List.forall_mem_singleton.mpr hx⟩
      rw [show pre ++ x :: l = (pre ++ [x]) ++ l by simp, ih (pre ++ [x]) hpre',
        List.filter_cons_of_pos (by simp [hx])]
      simp

end Split
