import Buildkit.Lib.Split
import Buildkit.Frontend.Dockerfile.Parser.SplitCommand

/-!
# The words of an instruction

`parseWords` of `frontend/dockerfile/parser/line_parsers.go` splits the arguments of ENV, LABEL
and ARG into words at whitespace, keeping the quotes and escape tokens in the words for a later
pass to remove. Its loop goes through the runes of the line in three phases, with the word being
read and whether it was quoted.

What it computes is stated over the line with each character marked (`annotate`): a separator is
whitespace outside quotes that no escape token precedes; an escape token outside single quotes
takes the next character with it, and one that ends the line is dropped. The words are the pieces
between separators that are not empty (`Split.words`), so that they hold no separator, are
together the line without its separators, and two of them are apart by at least one separator
(`parseWords_splits_at_separators`). The loop is related to the marked line by the invariant
`wordsLoop_eq`, one case for each branch of the loop.

Representation. The line is a valid UTF-8 string, whose runes `utf8.DecodeRuneInString` gives
one by one; the directive is its escape token.
-/

namespace Buildkit

namespace Parser

open Strings

/-- The words so far with the word being read, if it has characters or was quoted. -/
def ScanState.wordsWithWord (st : ScanState) : List String :=
  if st.blankOK ∨ st.word ≠ "" then st.words ++ [st.word] else st.words

/-- `word += string(ch)`. -/
def ScanState.push (st : ScanState) (c : Char) : ScanState := { st with word := st.word.push c }

/-- A space in the phase `inWord`: the word is added if it has characters or was quoted, and
the next one is looked for. -/
def ScanState.endWord (st : ScanState) : ScanState :=
  { st with phase := .inSpaces, word := "", blankOK := false, words := st.wordsWithWord }

/-- A rune that is not a space in the phase `inWord`: a quote opens quotes. -/
def ScanState.openQuote (st : ScanState) (c : Char) : ScanState :=
  if c = '\'' ∨ c = '"' then { st with quote := c, blankOK := true, phase := .inQuote } else st

/-- A rune in the phase `inQuote`: the quote that opened it closes it. -/
def ScanState.closeQuote (st : ScanState) (c : Char) : ScanState :=
  if c = st.quote then { st with phase := .inWord } else st

-- `h` is used by the proof of termination only
set_option linter.unusedVariables false in

/-- The loop of `parseWords` over the runes from `pos` on. The rune that starts a word falls
through to the phase `inWord` and is looked at again there; in both other phases a quote and
an escape token are added to the word. -/
def wordsLoop (esc : Char) (st : ScanState) : List Char → List String
  | [] => if st.phase = .inSpaces then st.words else st.wordsWithWord
  | c :: cs =>
    match h : st.phase with
    | .inSpaces =>
      if isSpace c then wordsLoop esc st cs
      else wordsLoop esc { st with phase := .inWord } (c :: cs)
    | .inWord =>
      if isSpace c then wordsLoop esc st.endWord cs
      else if c = esc then
        match cs with
        -- an escape token at the end of the line is skipped
        | [] => wordsLoop esc (st.openQuote c) []
        -- the escape token and the rune after it go into the word, even a quote
        | d :: cs => wordsLoop esc (((st.openQuote c).push c).push d) cs
      else wordsLoop esc ((st.openQuote c).push c) cs
    | .inQuote =>
      -- the escape token escapes nothing in single quotes
      if c = esc ∧ st.quote ≠ '\'' then
        match cs with
        | [] => wordsLoop esc { st.closeQuote c with phase := .inWord } []
        | d :: cs => wordsLoop esc (((st.closeQuote c).push c).push d) cs
      else wordsLoop esc ((st.closeQuote c).push c) cs
termination_by l => (l.length, if st.phase = .inSpaces then 1 else 0)
decreasing_by
  -- the list gets shorter, but where a word starts and its rune is looked at again
  all_goals simp_wf
  all_goals
    rw [Prod.lex_def]
    simp [h]

/-- `parseWords` of the line `rest` with the escape token `esc` of the directive. -/
def parseWords (rest : String) (esc : Char) : List String :=
  wordsLoop esc ⟨.inSpaces, "", '\x00', false, []⟩ rest.toList

/-! ## The marked line -/

/-- Where the scan of a line stands: outside quotes, or inside the quotes that `q` opened. -/
inductive QuoteCtx
  | outside
  | quoted (q : Char)
  deriving DecidableEq, Repr

/-- The characters of a line, each marked `true` if it separates words: whitespace outside quotes
that no escape token precedes. An escape token outside single quotes takes the next character
with it and is dropped at the end of the line. -/
def annotate (esc : Char) : QuoteCtx → List Char → List (Char × Bool)
  | _, [] => []
  | .outside, c :: cs =>
    if isSpace c then (c, true) :: annotate esc .outside cs
    else if c = esc then
      match cs with
      | [] => []
      | d :: cs => (c, false) :: (d, false) :: annotate esc .outside cs
    else if c = '\'' ∨ c = '"' then (c, false) :: annotate esc (.quoted c) cs
    else (c, false) :: annotate esc .outside cs
  | .quoted q, c :: cs =>
    if c = q then (c, false) :: annotate esc .outside cs
    else if c = esc ∧ q ≠ '\'' then
      match cs with
      | [] => []
      | d :: cs => (c, false) :: (d, false) :: annotate esc (.quoted q) cs
    else (c, false) :: annotate esc (.quoted q) cs

section
variable (esc : Char) {c : Char} (cs : List Char)

attribute [local simp] annotate

theorem annotate_outside_sep (h : isSpace c = true) :
    annotate esc .outside (c :: cs) = (c, true) :: annotate esc .outside cs := by
  cases cs <;> simp [h]

theorem annotate_outside_esc_nil (h : isSpace esc = false) : annotate esc .outside [esc] = [] := by
  simp [h]

theorem annotate_outside_esc (h : isSpace esc = false) (d : Char) :
    annotate esc .outside (esc :: d :: cs) =
      (esc, false) :: (d, false) :: annotate esc .outside cs := by
  simp [h]

theorem annotate_outside_char (h : isSpace c = false) (hc : c ≠ esc) :
    annotate esc .outside (c :: cs) =
      (c, false) :: annotate esc (if c = '\'' ∨ c = '"' then .quoted c else .outside) cs := by
  by_cases hq : c = '\'' ∨ c = '"' <;> cases cs <;> simp [h, hc, hq]

theorem annotate_quoted_esc_nil {q : Char} (hq : esc ≠ q) (h : q ≠ '\'') :
    annotate esc (.quoted q) [esc] = [] := by
  simp [hq, h]

theorem annotate_quoted_esc {q : Char} (hq : esc ≠ q) (h : q ≠ '\'') (d : Char) :
    annotate esc (.quoted q) (esc :: d :: cs) =
      (esc, false) :: (d, false) :: annotate esc (.quoted q) cs := by
  simp [hq, h]

theorem annotate_quoted_char {q : Char} (h : ¬ (c = esc ∧ q ≠ '\'')) :
    annotate esc (.quoted q) (c :: cs) =
      (c, false) :: annotate esc (if c = q then .outside else .quoted q) cs := by
  by_cases hcq : c = q <;> cases cs <;> simp_all

end

/-- A word of the marked line as a string. -/
def render (w : List (Char × Bool)) : String := String.ofList (w.map (·.1))

/-- The marked line keeps its characters, but an escape token that ends it. -/
theorem map_fst_annotate (esc : Char) (ctx : QuoteCtx) (cs : List Char) :
    (annotate esc ctx cs).map (·.1) = cs ∨ (annotate esc ctx cs).map (·.1) ++ [esc] = cs := by
  fun_induction annotate esc ctx cs <;> simp_all

/-! ## The loop against the marked line -/

namespace ScanState

/-- Where a state of the loop stands in the line. -/
def ctx (st : ScanState) : QuoteCtx := if st.phase = .inQuote then .quoted st.quote else .outside

/-- The word being read, as the start of a piece of the marked line. -/
def begun (st : ScanState) : List (Char × Bool) := st.word.toList.map (·, false)

/-- What the loop keeps of its variables: no word is begun between words, a quoted word has
characters, and the quotes of a quoted word were opened by a quote. -/
structure Inv (st : ScanState) : Prop where
  spaces : st.phase = .inSpaces → st.word = ""
  blank : st.blankOK = true → st.word ≠ ""
  quote : st.phase = .inQuote → st.quote = '\'' ∨ st.quote = '"'

@[simp] theorem begun_push (st : ScanState) (c : Char) :
    (st.push c).begun = st.begun ++ [(c, false)] := by
  simp [begun, push, String.toList_push]

@[simp] theorem words_push (st : ScanState) (c : Char) : (st.push c).words = st.words := rfl

@[simp] theorem phase_push (st : ScanState) (c : Char) : (st.push c).phase = st.phase := rfl

@[simp] theorem ctx_push (st : ScanState) (c : Char) : (st.push c).ctx = st.ctx := rfl

theorem openQuote_of_not_quote (st : ScanState) {c : Char} (hc : ¬ (c = '\'' ∨ c = '"')) :
    st.openQuote c = st := if_neg hc

@[simp] theorem begun_openQuote (st : ScanState) (c : Char) : (st.openQuote c).begun = st.begun := by
  unfold openQuote
  split <;> rfl

@[simp] theorem words_openQuote (st : ScanState) (c : Char) : (st.openQuote c).words = st.words := by
  unfold openQuote
  split <;> rfl

theorem ctx_openQuote {st : ScanState} (h : st.phase = .inWord) (c : Char) :
    (st.openQuote c).ctx = if c = '\'' ∨ c = '"' then .quoted c else .outside := by
  unfold openQuote
  split <;> simp [ctx, h]

theorem closeQuote_of_ne (st : ScanState) {c : Char} (hc : c ≠ st.quote) : st.closeQuote c = st :=
  if_neg hc

@[simp] theorem begun_closeQuote (st : ScanState) (c : Char) : (st.closeQuote c).begun = st.begun := by
  unfold closeQuote
  split <;> rfl

@[simp] theorem words_closeQuote (st : ScanState) (c : Char) :
    (st.closeQuote c).words = st.words := by
  unfold closeQuote
  split <;> rfl

theorem ctx_closeQuote {st : ScanState} (h : st.phase = .inQuote) (c : Char) :
    (st.closeQuote c).ctx = if c = st.quote then .outside else .quoted st.quote := by
  unfold closeQuote
  split <;> simp_all [ctx]

theorem ctx_of_ne {st : ScanState} (h : st.phase ≠ .inQuote) : st.ctx = .outside := if_neg h

theorem ctx_of_inQuote {st : ScanState} (h : st.phase = .inQuote) : st.ctx = .quoted st.quote :=
  if_pos h

theorem begun_of_inSpaces {st : ScanState} (hst : st.Inv) (h : st.phase = .inSpaces) :
    st.begun = [] := by
  simp [begun, hst.spaces h]

@[simp] theorem words_endWord (st : ScanState) : st.endWord.words = st.wordsWithWord := rfl

@[simp] theorem begun_endWord (st : ScanState) : st.endWord.begun = [] := rfl

@[simp] theorem ctx_endWord (st : ScanState) : st.endWord.ctx = .outside := rfl

theorem inv_endWord (st : ScanState) : st.endWord.Inv :=
  ⟨fun _ => rfl, fun h => absurd h (by simp [endWord]), fun h => absurd h (by simp [endWord])⟩

/-- A state with a rune added to its word, in a word. -/
theorem inv_push {st : ScanState} (hst : st.Inv) (h : st.phase ≠ .inSpaces) (c : Char) :
    (st.push c).Inv :=
  ⟨fun h' => absurd h' h, fun _ hw => by simpa [push, String.toList_push] using congrArg String.toList hw,
    hst.quote⟩

/-- A rune added in the phase `inWord`, after a quote opened quotes or not. -/
theorem inv_openQuote_push {st : ScanState} (hst : st.Inv) (h : st.phase = .inWord) (c : Char) :
    ((st.openQuote c).push c).Inv := by
  unfold openQuote
  split
  · rename_i hq
    exact ⟨fun h' => absurd h' (by simp [push]),
      fun _ hw => by simpa [push, String.toList_push] using congrArg String.toList hw,
      fun _ => hq⟩
  · exact inv_push hst (by simp [h]) c

/-- A rune added in the phase `inQuote`, after it closed the quotes or not. -/
theorem inv_closeQuote_push {st : ScanState} (hst : st.Inv) (h : st.phase = .inQuote) (c : Char) :
    ((st.closeQuote c).push c).Inv := by
  unfold closeQuote
  split
  · exact ⟨fun h' => absurd h' (by simp [push]),
      fun _ hw => by simpa [push, String.toList_push] using congrArg String.toList hw,
      fun h' => absurd h' (by simp [push])⟩
  · exact inv_push hst (by simp [h]) c

/-- The escape token is not the quote of a quoted word. -/
theorem esc_ne_quote {esc : Char} (hesc : esc ≠ '\'' ∧ esc ≠ '"') {st : ScanState} (hst : st.Inv)
    (h : st.phase = .inQuote) : esc ≠ st.quote := by
  rcases hst.quote h with hq | hq <;> rw [hq]
  · exact hesc.1
  · exact hesc.2

/-- The words of a piece begun, at the end of the line or at a separator, are the word being
read if the loop adds it. -/
theorem wordsWithWord_eq {st : ScanState} (hst : st.Inv) :
    st.wordsWithWord = st.words ++ (Split.words (·.2) st.begun).map render := by
  have hrender : render st.begun = st.word := by simp [render, begun, Function.comp_def]
  rw [wordsWithWord, Split.words_of_forall (by simp [begun])]
  by_cases hw : st.word = ""
  · have hb : st.blankOK = false := by
      cases h : st.blankOK
      · rfl
      · exact absurd hw (hst.blank h)
    simp [hw, hb, begun]
  · have hb : st.begun ≠ [] := by simpa [begun] using hw
    simp [hw, hb, hrender]

end ScanState

open ScanState

theorem wordsLoop_eq {esc : Char} (hesc : esc ≠ '\'' ∧ esc ≠ '"') {st : ScanState} (hst : st.Inv)
    (cs : List Char) :
    wordsLoop esc st cs =
      st.words ++ (Split.words (·.2) (st.begun ++ annotate esc st.ctx cs)).map render := by
  fun_induction wordsLoop esc st cs
  case case1 st hphase =>
    -- the end of the line between words
    simp [annotate, begun_of_inSpaces hst hphase, Split.words_of_forall]
  case case2 st hphase =>
    -- the end of the line in a word
    simp [annotate, wordsWithWord_eq hst]
  case case3 st c cs hphase hsp ih =>
    -- a separator between words
    rw [ih hst, begun_of_inSpaces hst hphase, ctx_of_ne (by simp [hphase]),
      annotate_outside_sep esc cs hsp, List.nil_append, List.nil_append, Split.words_cons_sep rfl]
  case case4 st c cs hphase hsp ih =>
    -- the rune that starts a word is looked at again, in the phase `inWord`
    have hinv : ({ st with phase := .inWord } : ScanState).Inv :=
      ⟨fun h => absurd h (by simp), hst.blank, fun h => absurd h (by simp)⟩
    have hctx : st.ctx = .outside := ctx_of_ne (by simp [hphase])
    rw [ih hinv, hctx]
    rfl
  case case5 st c cs hphase hsp ih =>
    -- a separator ends the word
    rw [ih (inv_endWord st), words_endWord, begun_endWord, ctx_endWord, wordsWithWord_eq hst,
      ctx_of_ne (by simp [hphase]), annotate_outside_sep esc cs hsp, Split.words_append_sep _ _ rfl]
    simp
  case case6 st hphase hsp ih =>
    -- an escape token that ends the line
    have hnq : ¬ (esc = '\'' ∨ esc = '"') := not_or.mpr hesc
    rw [openQuote_of_not_quote st hnq] at ih ⊢
    rw [ih hst, ctx_of_ne (by simp [hphase]), annotate_outside_esc_nil esc (by simpa using hsp)]
    simp [annotate]
  case case7 st hphase d cs hsp ih =>
    -- an escape token and the rune it escapes
    have hnq : ¬ (esc = '\'' ∨ esc = '"') := not_or.mpr hesc
    rw [openQuote_of_not_quote st hnq] at ih ⊢
    have hne : st.phase ≠ .inSpaces := by simp [hphase]
    rw [ih (inv_push (inv_push hst hne esc) (by simpa using hne) d), ctx_push, ctx_push,
      ctx_of_ne (by simp [hphase]), annotate_outside_esc esc cs (by simpa using hsp)]
    simp
  case case8 st c cs hphase hsp hc ih =>
    -- any other rune, of which a quote opens quotes
    rw [ih (inv_openQuote_push hst hphase c), ctx_push, ctx_openQuote hphase,
      ctx_of_ne (by simp [hphase]), annotate_outside_char esc cs (by simpa using hsp) hc]
    simp
  case case9 st c hphase hc ih =>
    -- an escape token that ends the line in double quotes
    obtain ⟨rfl, hq⟩ := hc
    have hne := esc_ne_quote hesc hst hphase
    rw [closeQuote_of_ne st hne] at ih ⊢
    have hinv : ({ st with phase := .inWord } : ScanState).Inv :=
      ⟨fun h => absurd h (by simp), hst.blank, fun h => absurd h (by simp)⟩
    rw [ih hinv, ctx_of_inQuote hphase, annotate_quoted_esc_nil c hne hq]
    simp [annotate]
    rfl
  case case10 st c hphase hc d cs ih =>
    -- an escape token and the rune it escapes, in double quotes
    obtain ⟨rfl, hq⟩ := hc
    have hne := esc_ne_quote hesc hst hphase
    rw [closeQuote_of_ne st hne] at ih ⊢
    have hsp : st.phase ≠ .inSpaces := by simp [hphase]
    rw [ih (inv_push (inv_push hst hsp c) (by simpa using hsp) d), ctx_push, ctx_push,
      ctx_of_inQuote hphase, annotate_quoted_esc c cs hne hq]
    simp
  case case11 st c cs hphase hc ih =>
    -- any other rune in quotes, of which the quote closes them
    rw [ih (inv_closeQuote_push hst hphase c), ctx_push, ctx_closeQuote hphase,
      ctx_of_inQuote hphase, annotate_quoted_char esc cs hc]
    simp

/-! ## The words of a line -/

/-- A separator is whitespace. -/
theorem isSpace_of_sep (esc : Char) (ctx : QuoteCtx) (cs : List Char) :
    ∀ x ∈ annotate esc ctx cs, x.2 = true → isSpace x.1 = true := by
  fun_induction annotate esc ctx cs <;> simp_all

theorem render_ne_empty {w : List (Char × Bool)} (h : w ≠ []) : render w ≠ "" := by
  intro hw
  have := congrArg String.toList hw
  simp [render] at this
  exact h this

theorem join_map_render (ws : List (List (Char × Bool))) :
    String.join (ws.map render) = render ws.flatten := by
  induction ws with
  | nil => rfl
  | cons w ws ih =>
    rw [List.map_cons, String.join_cons, ih, List.flatten_cons]
    simp [render, String.ofList_append]

theorem parseWords_eq_words (rest : String) {esc : Char} (hesc : esc ≠ '\'' ∧ esc ≠ '"') :
    parseWords rest esc = (Split.words (·.2) (annotate esc .outside rest.toList)).map render := by
  have hinv : ScanState.Inv ⟨.inSpaces, "", '\x00', false, []⟩ :=
    ⟨fun _ => rfl, fun h => absurd h (by simp), fun h => absurd h (by simp)⟩
  rw [parseWords, wordsLoop_eq hesc hinv]
  rfl

/-- `parseWords` splits a line at its separators, whitespace outside quotes that no escape token
precedes: the words are the pieces between separators that are not empty, and together they
are the line without its separators and an escape token that ends it. -/
theorem parseWords_splits_at_separators (rest : String) (esc : Char)
    (hesc : esc = '\\' ∨ esc = '`') :
    parseWords rest esc = (Split.words (·.2) (annotate esc .outside rest.toList)).map render ∧
    (∀ w ∈ parseWords rest esc, w ≠ "") ∧
    String.join (parseWords rest esc) =
      String.ofList (((annotate esc .outside rest.toList).filter (!·.2)).map (·.1)) ∧
    (∀ x ∈ annotate esc .outside rest.toList, x.2 = true → isSpace x.1 = true) ∧
    ((annotate esc .outside rest.toList).map (·.1) = rest.toList ∨
      (annotate esc .outside rest.toList).map (·.1) ++ [esc] = rest.toList) := by
  have hesc' : esc ≠ '\'' ∧ esc ≠ '"' := by rcases hesc with rfl | rfl <;> decide
  have hwords := parseWords_eq_words rest hesc'
  refine ⟨hwords, fun w hw => ?_, ?_, isSpace_of_sep esc .outside rest.toList,
    map_fst_annotate esc .outside rest.toList⟩
  · rw [hwords, List.mem_map] at hw
    obtain ⟨p, hp, rfl⟩ := hw
    exact render_ne_empty (Split.mem_words hp).1
  · rw [hwords, join_map_render, Split.flatten_words]
    rfl

theorem parseWords_splits_at_separators_quoted :
    ('\\' = '\\' ∨ '\\' = '`') ∧ (∀ w ∈ parseWords "a \"b c\"" '\\', w ≠ "") :=
  ⟨.inl rfl, (parseWords_splits_at_separators "a \"b c\"" '\\' (.inl rfl)).2.1⟩

end Parser

end Buildkit
