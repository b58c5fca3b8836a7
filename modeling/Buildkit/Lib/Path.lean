import Mathlib.Data.List.Basic

/-!
# Slash-separated paths

`path.Clean`, `path.Join`, `path.Dir` and `path.IsAbs` of the Go standard library, which work
on the bytes of a path and know only `/`, `.` and `..`. `clean` drops empty and `.` elements, lets `..` remove the element
before it (at the root it is dropped, in a relative path with nothing before it it stays), and
turns the empty result into `.`. The paths here are lists of characters, which is what Go's
byte-wise loop sees of them, so that the functions reduce on concrete paths.

A rooted path keeps only `Normal` elements when cleaned, and the elements of the cleaned path are
those it kept (`elements_intercalate`); from this, `Join(".", p)` of a clean absolute path `p`
other than `/` is `p` without its leading slash (`join_dot_of_clean`).
-/

namespace Path

/-- The elements of a path between its slashes. -/
def elements : List Char → List (List Char)
  | [] => [[]]
  | c :: cs =>
    if c = '/' then [] :: elements cs
    else
      match elements cs with
      | [] => [[c]]
      | e :: es => (c :: e) :: es

/-- One element of the lexical processing of `Clean`, on the elements kept so far, last first. -/
def cleanStep (rooted : Bool) (kept : List (List Char)) (e : List Char) : List (List Char) :=
  if e = [] ∨ e = ['.'] then kept
  else if e = ['.', '.'] then
    match kept with
    | x :: rest => if !rooted ∧ x = ['.', '.'] then ['.', '.'] :: kept else rest
    | [] => if rooted then [] else [['.', '.']]
  else e :: kept

/-- `path.Clean` on the characters of a path. -/
def cleanChars (p : List Char) : List Char :=
  let rooted := p.head? = some '/'
  let body := List.intercalate ['/'] ((elements p).foldl (cleanStep rooted) []).reverse
  if rooted then '/' :: body else if body = [] then ['.'] else body

/-- `path.Clean`. -/
def clean (p : String) : String := String.ofList (cleanChars p.toList)

/-- `path.Join`: the elements from the first non-empty one, joined by slashes and cleaned. -/
def join : List String → String
  | [] => ""
  | e :: es => if e = "" then join es else clean ("/".intercalate (e :: es))

/-- `path.IsAbs`. -/
def isAbs (p : String) : Bool := p.toList.head? == some '/'

/-- The directory `path.Split` returns: the path up to and including its last slash. -/
def splitDir (p : String) : String := String.ofList (p.toList.reverse.dropWhile (· ≠ '/')).reverse

/-- `path.Dir`. -/
def dir (p : String) : String := clean (splitDir p)

/-! ## Clean paths -/

/-- An element that `Clean` keeps as it is: not empty, not `.` or `..`, and without a slash. -/
def Normal (e : List Char) : Prop := e ≠ [] ∧ e ≠ ['.'] ∧ e ≠ ['.', '.'] ∧ '/' ∉ e

theorem elements_of_not_mem {e : List Char} (h : '/' ∉ e) : elements e = [e] := by
  induction e with
  | nil => rfl
  | cons c cs ih =>
    have hc : c ≠ '/' := fun hc => h (hc ▸ List.mem_cons_self)
    rw [elements, if_neg hc, ih fun h' => h (List.mem_cons_of_mem c h')]

theorem elements_append_slash {e : List Char} (h : '/' ∉ e) (t : List Char) :
    elements (e ++ '/' :: t) = e :: elements t := by
  induction e with
  | nil => simp [elements]
  | cons c cs ih =>
    have hc : c ≠ '/' := fun hc => h (hc ▸ List.mem_cons_self)
    rw [List.cons_append, elements, if_neg hc, ih fun h' => h (List.mem_cons_of_mem c h')]

/-- Splitting a path at its slashes undoes joining its elements. -/
theorem elements_intercalate {es : List (List Char)} (hne : es ≠ []) (h : ∀ e ∈ es, '/' ∉ e) :
    elements (List.intercalate ['/'] es) = es := by
  induction es with
  | nil => exact absurd rfl hne
  | cons e es ih =>
    cases es with
    | nil => simpa using elements_of_not_mem (h e List.mem_cons_self)
    | cons e' es =>
      rw [List.intercalate_cons_cons, List.append_assoc, List.singleton_append,
        elements_append_slash (h e List.mem_cons_self),
        ih (List.cons_ne_nil _ _) fun x hx => h x (List.mem_cons_of_mem e hx)]

theorem not_mem_of_mem_elements {p e : List Char} (he : e ∈ elements p) : '/' ∉ e := by
  induction p generalizing e with
  | nil => simp_all [elements]
  | cons c cs ih =>
    unfold elements at he
    split at he
    · rcases List.mem_cons.mp he with rfl | he
      · simp
      · exact ih he
    · rename_i hc
      split at he
      · rw [List.mem_singleton] at he
        subst he
        simpa using Ne.symm hc
      · rename_i e₁ es heq
        rcases List.mem_cons.mp he with rfl | he
        · have := ih (heq ▸ List.mem_cons_self : e₁ ∈ elements cs)
          simp only [List.mem_cons, not_or]
          exact ⟨Ne.symm hc, this⟩
        · exact ih (heq ▸ List.mem_cons_of_mem e₁ he)

/-- `Clean` keeps a normal element and goes on. -/
theorem foldl_cleanStep_of_normal (rooted : Bool) {es : List (List Char)} (h : ∀ e ∈ es, Normal e)
    (kept : List (List Char)) : es.foldl (cleanStep rooted) kept = es.reverse ++ kept := by
  induction es generalizing kept with
  | nil => rfl
  | cons e es ih =>
    obtain ⟨h₁, h₂, h₃, -⟩ := h e List.mem_cons_self
    rw [List.foldl_cons, ih fun x hx => h x (List.mem_cons_of_mem e hx)]
    simp [cleanStep, h₁, h₂, h₃]

/-- In a rooted path `Clean` keeps only normal elements: a `..` removes one, at the root it is
dropped. -/
theorem normal_foldl_cleanStep_rooted {es kept : List (List Char)} (hes : ∀ e ∈ es, '/' ∉ e)
    (hkept : ∀ e ∈ kept, Normal e) : ∀ e ∈ es.foldl (cleanStep true) kept, Normal e := by
  induction es generalizing kept with
  | nil => exact hkept
  | cons e es ih =>
    refine ih (fun x hx => hes x (List.mem_cons_of_mem e hx)) fun x hx => ?_
    unfold cleanStep at hx
    split at hx
    · exact hkept x hx
    · split at hx
      · split at hx
        · exact hkept x (List.mem_cons_of_mem _ hx)
        · simp at hx
      · rename_i hn hd
        rcases List.mem_cons.mp hx with rfl | hx
        · exact ⟨fun h => hn (.inl h), fun h => hn (.inr h), hd, hes x List.mem_cons_self⟩
        · exact hkept x hx

theorem cleanChars_dot_slash {cs : List Char} (hclean : cleanChars ('/' :: cs) = '/' :: cs)
    (hne : cs ≠ []) : cleanChars ('.' :: '/' :: '/' :: cs) = cs := by
  -- the elements the rooted path keeps are its own, all normal
  set ks := (elements cs).foldl (cleanStep true) [] with hks
  have hnormal : ∀ e ∈ ks, Normal e :=
    normal_foldl_cleanStep_rooted (fun _ => not_mem_of_mem_elements) (by simp)
  have hcs : List.intercalate ['/'] ks.reverse = cs := by
    simpa [cleanChars, elements, cleanStep, ← hks] using hclean
  have hks_ne : ks.reverse ≠ [] := by
    intro h
    rw [h] at hcs
    exact hne hcs.symm
  have helems : elements cs = ks.reverse := by
    rw [← hcs]
    exact elements_intercalate hks_ne fun e he => (hnormal e (List.mem_reverse.mp he)).2.2.2
  have hfold : (elements cs).foldl (cleanStep false) [] = ks := by
    rw [helems, foldl_cleanStep_of_normal false fun e he => hnormal e (List.mem_reverse.mp he)]
    simp
  simp [cleanChars, elements, cleanStep, hfold, hcs, hne]

/-- `path.Join(".", p)` of a clean absolute path `p` other than `/` is `p` without its leading
slash. -/
theorem join_dot_of_clean {p : String} (habs : p.toList.head? = some '/') (hclean : clean p = p)
    (hroot : p ≠ "/") : join [".", p] = String.ofList p.toList.tail := by
  obtain ⟨cs, hp⟩ : ∃ cs, p.toList = '/' :: cs := by
    cases h : p.toList with
    | nil => simp [h] at habs
    | cons c cs => simp_all
  have hne : cs ≠ [] := by
    rintro rfl
    exact hroot (String.toList_inj.mp (by simp [hp]))
  have hclean' : cleanChars ('/' :: cs) = '/' :: cs := by
    have := congrArg String.toList hclean
    simpa [clean, hp] using this
  have hdot : (("." : String) ++ "/" ++ p).toList = '.' :: '/' :: '/' :: cs := by simp [hp]
  simp only [join, if_neg (by decide : ("." : String) ≠ ""), String.intercalate_cons_cons,
    String.intercalate_singleton, clean, hdot, cleanChars_dot_slash hclean' hne, hp, List.tail_cons]

end Path
