import Mathlib.Data.List.Chain
import Buildkit.Lib.Loop
import Buildkit.Lib.Outcome
import Buildkit.Lib.Strings

/-!
# Reading a Dockerfile into instructions

`Parse` of `frontend/dockerfile/parser/parser.go` reads a Dockerfile line by line. An instruction
starts at a line that is neither blank nor a comment; the escape token at the end of a line (`\`,
or the one an `# escape=` directive at the top sets), or a `[` that no `]` follows, continues it on
the next line, and the comments and blank lines among the lines that continue it are skipped.
Each instruction becomes a child of the root, with the first and last line it spans and its text
`Original`.

What is proved (`parse_partitions`): the children span ranges of lines that come in order and lie
within the input, every line outside them is blank or a comment, and the text of each child is
made of its first line, left-trimmed, and the lines after it that are neither comments nor blank,
each without the escape token that continues it, where every line but the last continues the
instruction and the last does only at the end of the input (`Partitions`). These are stated of
the lines alone (`Spans`, `Continued`, `Spelled`); the proof carries them over the lines read so
far (`Inv`), with one lemma for each way a line can be read.

Representation. The two loops of `Parse` share the scanner, each reading one line an iteration;
here they are one fold over the lines, with the loop the scanner is in as the state `Scan`. The
line parsers of `line_parsers.go` and `splitCommand` are given (`LineParsers`), and what they
build of the arguments of an instruction is left abstract. A directive holds its escape token, of
which `lineEscapeRegex` is made. The regular expressions are translated by hand, with Go's
leftmost-first matching. The scanner reads lines shorter than its limit, so `handleScannerError`
returns nil.
-/

namespace Buildkit

namespace Parser

open Strings

/-! ## Trimming and the regular expressions -/

/-- `[ \t]`. -/
def isBlank (c : Char) : Bool := c == ' ' || c == '\t'

/-- `bytes.TrimPrefix(bytesRead, utf8bom)`: the byte-order mark `EF BB BF` encodes `U+FEFF`. -/
def trimBOM : List Char → List Char
  | [] => []
  | c :: rest => if c = '\uFEFF' then rest else c :: rest

/-- `trimWhitespace`. -/
def trimWhitespace (src : List Char) : List Char := src.dropWhile isSpace

/-- `tokenComment`, `^#.*$`, matches a text that starts with `#`, in which `.` reads every
character up to the end but `\n`. -/
def matchesComment (src : List Char) : Bool := src.head? == some '#' && !src.contains '\n'

/-- `trimComments`: `tokenComment.ReplaceAll` removes all of a text it matches. -/
def trimComments (src : List Char) : List Char := if matchesComment src then [] else src

/-- `isComment`. -/
def isComment (line : List Char) : Bool := matchesComment (trimWhitespace line)

/-- `isEmptyContinuationLine`. -/
def isEmptyContinuationLine (line : List Char) : Bool := (trimWhitespace line).isEmpty

/-- `lineEscapeRegex.ReplaceAllString(line, "")` for the expression `\esc[ \t]*$`: the text before
the leftmost escape token that only blanks follow, or `none` when the expression does not
match. -/
def trimLineEscape (esc : Char) : List Char → Option (List Char)
  | [] => none
  | c :: cs => if c = esc ∧ cs.all isBlank then some [] else (trimLineEscape esc cs).map (c :: ·)

/-- `lineJSONArrayContinuator.MatchString`, `[^"]*\[[^\]]*$` found anywhere in the line: a `[`
that no `]` follows. The leading `[^"]*` may match the empty text, so it asks nothing. -/
def jsonArrayContinues : List Char → Bool
  | [] => false
  | c :: cs => (c == '[' && !cs.contains ']') || jsonArrayContinues cs

/-- The character that `tokenEscapeCommand`,
`^#[ \t]*escape[ \t]*=[ \t]*(?P<escapechar>.).*$`, captures. The blanks after `=` are taken
greedily, so it is the character after them, or the last of them when nothing follows; `.` does
not read `\n`. -/
def escapeCommand (line : List Char) : Option Char :=
  match line with
  | '#' :: rest =>
    match rest.dropWhile isBlank with
    | 'e' :: 's' :: 'c' :: 'a' :: 'p' :: 'e' :: rest =>
      match rest.dropWhile isBlank with
      | '=' :: rest =>
        match rest.dropWhile isBlank with
        | c :: more => if c = '\n' ∨ '\n' ∈ more then none else some c
        | [] => rest.getLast?
      | _ => none
    | _ => none
  | _ => none

/-! ## The directive -/

/-- The back quote, the other escape token. -/
def backquote : Char := Char.ofNat 96

/-- `Directive`. Its escape token is one of the two that `setEscapeToken` accepts, and
`lineEscapeRegex` is made of it. -/
structure Directive where
  escapeToken : Char
  processingComplete : Bool
  escapeSeen : Bool
  escapeToken_valid : escapeToken = '\\' ∨ escapeToken = backquote

theorem front_of_escape {s : String} (h : s = "`" ∨ s = "\\") :
    s.front = '\\' ∨ s.front = backquote := by
  rcases h with rfl | rfl
  · exact .inr rfl
  · exact .inl rfl

/-- `setEscapeToken`. -/
def Directive.setEscapeToken (d : Directive) (s : String) : Except String Directive :=
  if h : s = "`" ∨ s = "\\" then
    .ok { d with escapeToken := s.front, escapeToken_valid := front_of_escape h }
  else
    .error s!"invalid ESCAPE '{s}'. Must be ` or \\"

/-- `possibleParserDirective`: an `escape` directive sets the escape token, once, and the first
line that is not one ends the directives. -/
def Directive.possibleParserDirective (d : Directive) (line : String) : Except String Directive :=
  if d.processingComplete then .ok d
  else
    match escapeCommand (line.toList.map Char.toLower) with
    | some c =>
      if d.escapeSeen then .error "only one escape parser directive can be used"
      else { d with escapeSeen := true }.setEscapeToken (String.singleton c)
    | none => .ok { d with processingComplete := true }

/-- `NewDefaultDirective`. -/
def newDefaultDirective : Directive := ⟨'\\', false, false, .inl rfl⟩

/-- `processLine`, with the directive it changes. -/
def processLine (d : Directive) (token : List Char) (stripLeftWhitespace : Bool) :
    Except String (List Char × Directive) := do
  let token := if stripLeftWhitespace then trimWhitespace token else token
  let d ← d.possibleParserDirective (String.ofList token)
  return (trimComments token, d)

/-- `continuateLine`: the line without the escape token that continues it, and whether it ends
the instruction. -/
def continuateLine (line : String) (d : Directive) : String × Bool :=
  match trimLineEscape d.escapeToken line.toList with
  | some rest => (String.ofList rest, false)
  | none => if jsonArrayContinues line.toList then (line, false) else (line, true)

/-! ## Nodes -/

/-- `Node`, with what the line parser of an instruction returns, its `Next` and `Attributes`, as
`next`. -/
structure Node (α : Type) where
  value : String := ""
  next : Option α := none
  children : List (Node α) := []
  original : String := ""
  flags : List String := []
  startLine : Int := 0
  endLine : Int := 0

variable {α : Type}

/-- `lines`. -/
def Node.lines (node : Node α) (start «end» : Int) : Node α :=
  { node with startLine := start, endLine := «end» }

/-- `AddChild`. -/
def Node.addChild (node child : Node α) (startLine endLine : Int) : Node α :=
  let child := child.lines startLine endLine
  { node with
    startLine := if node.startLine < 0 then startLine else node.startLine
    endLine := endLine
    children := node.children ++ [child] }

/-- What `newNodeFromLine` is given: `splitCommand`, which cuts an instruction into its name, its
flags and its arguments, the table `dispatch` of the line parsers, and the empty node that
`parseIgnore` returns for an instruction the table does not hold. -/
structure LineParsers (α : Type) where
  splitCommand : String → String × List String × String
  dispatch : String → Option (String → Directive → Except String α)
  empty : α

/-- `parseIgnore`. -/
def LineParsers.parseIgnore (p : LineParsers α) (_rest : String) (_d : Directive) :
    Except String α :=
  .ok p.empty

/-- `newNodeFromLine`. -/
def newNodeFromLine (p : LineParsers α) (line : String) (directive : Directive) :
    Except String (Node α) := do
  let (cmd, flags, args) := p.splitCommand line
  let fn := (p.dispatch cmd).getD p.parseIgnore
  let next ← fn args directive
  return { value := cmd, original := line, flags := flags, next := some next }

/-- `Result`. -/
structure Result (α : Type) where
  ast : Node α
  escapeToken : Char
  warnings : List String

/-! ## `Parse` -/

/-- The loop of `Parse` that the scanner is in: the outer one, between instructions, or the one
that reads the lines continuing the instruction `line` that starts at line `startLine`. -/
inductive Scan
  | between
  | continuing (line : String) (startLine : Nat) (hasEmptyContinuationLine : Bool)

/-- The variables of `Parse` that its loops change. -/
structure ParseState (α : Type) where
  d : Directive
  currentLine : Nat
  root : Node α
  warnings : List String
  scan : Scan

/-- The variables before the first line. -/
def ParseState.init : ParseState α := ⟨newDefaultDirective, 0, { startLine := -1 }, [], .between⟩

/-- The end of an instruction, after its continuation loop: the warning for its empty
continuation lines, and its node added to the root. -/
def ParseState.addInstruction (p : LineParsers α) (st : ParseState α) (line : String)
    (startLine : Nat) (hasEmptyContinuationLine : Bool) : Except String (ParseState α) := do
  let warnings := if hasEmptyContinuationLine then
      st.warnings ++ ["[WARNING]: Empty continuation line found in:\n    " ++ line]
    else st.warnings
  let child ← newNodeFromLine p line st.d
  return { st with warnings, root := st.root.addChild child startLine st.currentLine,
                   scan := .between }

/-- An iteration of the outer loop, up to the continuation loop. -/
def ParseState.scanFirst (p : LineParsers α) (st : ParseState α) (scanned : List Char) :
    Except String (ParseState α) := do
  -- the byte-order mark is stripped from the first line
  let bytesRead := if st.currentLine = 0 then trimBOM scanned else scanned
  let (bytesRead, d) ← processLine st.d bytesRead true
  let currentLine := st.currentLine + 1
  let startLine := currentLine
  let (line, isEndOfLine) := continuateLine (String.ofList bytesRead) d
  let st := { st with d, currentLine }
  if isEndOfLine && line == "" then
    return st
  else if isEndOfLine then
    -- the continuation loop does not run
    st.addInstruction p line startLine false
  else
    return { st with scan := .continuing line startLine false }

/-- An iteration of the continuation loop. -/
def ParseState.scanContinuation (p : LineParsers α) (st : ParseState α) (line : String)
    (startLine : Nat) (hasEmptyContinuationLine : Bool) (scanned : List Char) :
    Except String (ParseState α) := do
  let (bytesRead, d) ← processLine st.d scanned false
  let st := { st with d, currentLine := st.currentLine + 1 }
  if isComment scanned then
    return st
  else if isEmptyContinuationLine bytesRead then
    return { st with scan := .continuing line startLine true }
  else
    let (line, isEndOfLine) := continuateLine (line ++ String.ofList bytesRead) d
    if isEndOfLine then
      st.addInstruction p line startLine hasEmptyContinuationLine
    else
      return { st with scan := .continuing line startLine hasEmptyContinuationLine }

/-- One line read by the scanner, in the loop it is in. -/
def ParseState.scanLine (p : LineParsers α) (st : ParseState α) (scanned : List Char) :
    Except String (ParseState α) :=
  match st.scan with
  | .between => st.scanFirst p scanned
  | .continuing line startLine hasEmptyContinuationLine =>
    st.scanContinuation p line startLine hasEmptyContinuationLine scanned

/-- The end of the input, which also ends the continuation loop. -/
def ParseState.endOfInput (p : LineParsers α) (st : ParseState α) : Except String (ParseState α) :=
  match st.scan with
  | .between => pure st
  | .continuing line startLine hasEmptyContinuationLine =>
    st.addInstruction p line startLine hasEmptyContinuationLine

/-- `Parse`. -/
def parse (p : LineParsers α) (input : String) : Except String (Result α) := do
  let st ← (scanLines input.toList).foldlM (ParseState.scanLine p) ParseState.init
  let st ← st.endOfInput p
  let warnings := if st.warnings.length > 0 then
      st.warnings ++ ["[WARNING]: Empty continuation lines will become errors in a future release."]
    else st.warnings
  if st.root.startLine < 0 then
    throw "file with no instructions."
  return { ast := st.root, warnings, escapeToken := st.d.escapeToken }

/-! ## What the lines of a Dockerfile are made of -/

/-- The line `n`, counted from 1, as `Parse` reads it first: line 1 without the byte-order mark. -/
def physical (n : Nat) (line : List Char) : List Char := if n = 1 then trimBOM line else line

/-- A line outside every instruction, the line `n`: blank or a comment. -/
def Skipped (n : Nat) (line : List Char) : Prop :=
  isEmptyContinuationLine (physical n line) ∨ isComment (physical n line)

/-- The ranges `rs` of lines, first and last counted from 1, come in order and lie within `lines`,
and every line outside them is blank or a comment. -/
structure Spans (lines : List (List Char)) (rs : List (Int × Int)) : Prop where
  ordered : rs.IsChain fun a b => a.2 < b.1
  bounds : ∀ r ∈ rs, 1 ≤ r.1 ∧ r.1 ≤ r.2 ∧ r.2 ≤ lines.length
  gaps : ∀ (k : Nat) (hk : k < lines.length), (∀ r ∈ rs, ¬ (r.1 ≤ k + 1 ∧ k + 1 ≤ r.2)) →
    Skipped (k + 1) lines[k]

/-- Spaces and tabs. -/
def Blanks (s : List Char) : Prop := ∀ c ∈ s, isBlank c = true

/-- The line `l` is `p`, then the escape token and blanks: the escape token continues it, and `p`
is kept. -/
def EscapedAs (esc : Char) (l p : List Char) : Prop := ∃ b, l = p ++ esc :: b ∧ Blanks b

/-- A `[` that no `]` follows. -/
def OpenBracket (s : List Char) : Prop := ∃ p r, s = p ++ '[' :: r ∧ ']' ∉ r

/-- What an instruction keeps of its line `l`: `l` without the escape token that continues it, or
all of `l`. -/
def Piece (esc : Char) (l p : List Char) : Prop :=
  EscapedAs esc l p ∨ (p = l ∧ ∀ q, ¬ EscapedAs esc l q)

/-- The line `l`, with which the text of an instruction so far is `text`, continues it. -/
def Continues (esc : Char) (l text : List Char) : Prop := (∃ p, EscapedAs esc l p) ∨ OpenBracket text

/-- The lines `ls`, each of which continues the instruction, make its text `text`. -/
inductive Continued (esc : Char) : List (List Char) → List Char → Prop
  | nil : Continued esc [] []
  | snoc {ls text l p} : Continued esc ls text → Piece esc l p → Continues esc l (text ++ p) →
      Continued esc (ls ++ [l]) (text ++ p)

/-- The text of an instruction of the lines `ls`: each line but the last continues it, and the
last one does only if `atEnd`. -/
def Spelled (esc : Char) (ls : List (List Char)) (text : List Char) (atEnd : Prop) : Prop :=
  ∃ init l t p, ls = init ++ [l] ∧ Continued esc init t ∧ Piece esc l p ∧ text = t ++ p ∧
    (Continues esc l text → atEnd)

/-- The lines `s` to `e` of `lines`, counted from 1. -/
def linesOf (lines : List (List Char)) (s e : Nat) : List (List Char) := (lines.take e).drop (s - 1)

/-- The lines of an instruction that starts at line `s` that make its text: the first,
left-trimmed, and those after it that are neither comments nor blank. -/
def contentLines (s : Nat) : List (List Char) → List (List Char)
  | [] => []
  | first :: rest =>
    trimWhitespace (physical s first) :: rest.filter fun l => !isComment l && !isEmptyContinuationLine l

/-- The first and last line of a node. -/
def Node.range (c : Node α) : Int × Int := (c.startLine, c.endLine)

/-- The lines of the instruction `c` that make its text. -/
def textLines (lines : List (List Char)) (c : Node α) : List (List Char) :=
  contentLines c.startLine.toNat (linesOf lines c.startLine.toNat c.endLine.toNat)

/-- What `Parse` makes of the `lines` of a Dockerfile: its instructions `cs` span ranges of lines
in order, with blank lines and comments between them, and the text of each is spelled from its
lines with the escape token `esc`, the last line continuing it only at the end of the input. -/
structure Partitions (esc : Char) (lines : List (List Char)) (cs : List (Node α)) : Prop where
  spans : Spans lines (cs.map Node.range)
  spelled : ∀ c ∈ cs, Spelled esc (textLines lines c) c.original.toList (c.endLine = lines.length)

/-! ## The regular expressions -/

theorem isSpace_of_isBlank {c : Char} (h : isBlank c = true) : isSpace c = true := by
  simp only [isBlank, Bool.or_eq_true, beq_iff_eq] at h
  rcases h with rfl | rfl <;> simp

theorem Directive.isBlank_escapeToken (d : Directive) : isBlank d.escapeToken = false := by
  rcases d.escapeToken_valid with h | h <;> rw [h] <;> decide

/-- `lineEscapeRegex` matches a line that the escape token continues, and keeps what comes
before it. -/
theorem trimLineEscape_eq_some_iff {esc : Char} (hesc : isBlank esc = false) {l p : List Char} :
    trimLineEscape esc l = some p ↔ EscapedAs esc l p := by
  induction l generalizing p with
  | nil => simp [trimLineEscape, EscapedAs]
  | cons c cs ih =>
    simp only [trimLineEscape]
    split
    · next hc =>
      obtain ⟨rfl, hb⟩ := hc
      constructor
      · rintro ⟨⟩
        exact ⟨cs, rfl, by simpa [Blanks] using hb⟩
      · rintro ⟨b, hl, -⟩
        -- the escape token is not a blank, so it is the last one of the line
        cases p with
        | nil => rfl
        | cons c' p =>
          simp only [List.cons_append, List.cons.injEq] at hl
          obtain ⟨-, rfl⟩ := hl
          simp [hesc] at hb
    · next hc =>
      constructor
      · intro h
        obtain ⟨p', hp', rfl⟩ := Option.map_eq_some_iff.mp h
        obtain ⟨b, rfl, hb⟩ := ih.mp hp'
        exact ⟨b, rfl, hb⟩
      · rintro ⟨b, hl, hb⟩
        cases p with
        | nil =>
          simp only [List.nil_append, List.cons.injEq] at hl
          obtain ⟨rfl, rfl⟩ := hl
          exact absurd ⟨rfl, by simpa [Blanks] using hb⟩ hc
        | cons c' p =>
          simp only [List.cons_append, List.cons.injEq] at hl
          obtain ⟨rfl, rfl⟩ := hl
          rw [ih.mpr ⟨b, rfl, hb⟩]
          rfl

/-- The match of `lineEscapeRegex` on a text that ends in a line with a character that is not a
blank lies within that line. -/
theorem trimLineEscape_append (esc : Char) {l : List Char} (hl : ∃ c ∈ l, isBlank c = false)
    (acc : List Char) : trimLineEscape esc (acc ++ l) = (trimLineEscape esc l).map (acc ++ ·) := by
  induction acc with
  | nil => simp
  | cons c acc ih =>
    obtain ⟨x, hx, hxb⟩ := hl
    have hall : (acc ++ l).all isBlank = false := by
      rw [List.all_eq_false]
      exact ⟨x, List.mem_append_right _ hx, by simp [hxb]⟩
    simp only [List.cons_append, trimLineEscape, hall, Bool.false_eq_true, and_false, ↓reduceIte,
      ih, Option.map_map]
    rfl

/-- `lineJSONArrayContinuator` matches a text with a `[` that no `]` follows. -/
theorem jsonArrayContinues_iff {s : List Char} : jsonArrayContinues s = true ↔ OpenBracket s := by
  induction s with
  | nil => simp [jsonArrayContinues, OpenBracket]
  | cons c cs ih =>
    simp only [jsonArrayContinues, Bool.or_eq_true, Bool.and_eq_true, beq_iff_eq,
      Bool.not_eq_true', List.contains_eq_mem, decide_eq_false_iff_not, ih]
    constructor
    · rintro (⟨rfl, hr⟩ | ⟨p, r, rfl, hr⟩)
      · exact ⟨[], cs, rfl, hr⟩
      · exact ⟨c :: p, r, rfl, hr⟩
    · rintro ⟨p, r, hs, hr⟩
      cases p with
      | nil =>
        simp only [List.nil_append, List.cons.injEq] at hs
        obtain ⟨rfl, rfl⟩ := hs
        exact .inl ⟨rfl, hr⟩
      | cons c' p =>
        simp only [List.cons_append, List.cons.injEq] at hs
        exact .inr ⟨p, r, hs.2, hr⟩

/-! ## The directive, a line and a node -/

theorem escapeCommand_of_head {l : List Char} (h : l.head? ≠ some '#') : escapeCommand l = none := by
  cases l with
  | nil => rfl
  | cons c l =>
    simp only [List.head?_cons, ne_eq, Option.some.injEq] at h
    unfold escapeCommand
    split
    · next heq => exact absurd (List.cons.inj heq).1 h
    · rfl

theorem Directive.possibleParserDirective_of_complete {d : Directive} (h : d.processingComplete = true)
    (line : String) : d.possibleParserDirective line = .ok d := by
  simp [possibleParserDirective, h]

/-- A line that does not start with `#` ends the directives. -/
theorem Directive.possibleParserDirective_of_head (d : Directive) {line : String}
    (h : line.toList.head? ≠ some '#') :
    d.possibleParserDirective line = .ok { d with processingComplete := true } := by
  unfold possibleParserDirective
  split
  · next hc => cases d; simp_all
  · rw [escapeCommand_of_head]
    intro hm
    rw [List.head?_map, Option.map_eq_some_iff] at hm
    obtain ⟨c, hc, hlow⟩ := hm
    exact h (hc ▸ congrArg some (eq_of_toLower_eq (by decide) hlow))

theorem processLine_eq_ok {d d' : Directive} {token b : List Char} {strip : Bool}
    (h : processLine d token strip = .ok (b, d')) :
    b = trimComments (if strip then trimWhitespace token else token) ∧
      d.possibleParserDirective (String.ofList (if strip then trimWhitespace token else token)) =
        .ok d' := by
  unfold processLine at h
  obtain ⟨d₁, hd, h⟩ := Outcome.except_bind_eq_ok.mp h
  cases h
  exact ⟨rfl, hd⟩

theorem continuateLine_empty (d : Directive) : continuateLine "" d = ("", true) := by
  simp [continuateLine, trimLineEscape, jsonArrayContinues]

/-- `continuateLine` after a line with a character that is not a blank: it keeps the piece of
the line, and ends the instruction unless the line continues it. -/
theorem continuateLine_spec (d : Directive) (acc : List Char) {l : List Char}
    (hl : ∃ c ∈ l, isBlank c = false) :
    ∃ p, Piece d.escapeToken l p ∧
      (continuateLine (String.ofList (acc ++ l)) d).1.toList = acc ++ p ∧
      ((continuateLine (String.ofList (acc ++ l)) d).2 = true ↔
        ¬ Continues d.escapeToken l (acc ++ p)) := by
  have hesc := d.isBlank_escapeToken
  unfold continuateLine
  simp only [String.toList_ofList, trimLineEscape_append _ hl]
  cases h : trimLineEscape d.escapeToken l with
  | some p =>
    have hp := (trimLineEscape_eq_some_iff hesc).mp h
    refine ⟨p, .inl hp, by simp, ?_⟩
    simp only [Option.map_some, Bool.false_eq_true, false_iff, not_not]
    exact .inl ⟨p, hp⟩
  | none =>
    have hno : ∀ q, ¬ EscapedAs d.escapeToken l q := fun q hq => by
      rw [(trimLineEscape_eq_some_iff hesc).mpr hq] at h
      cases h
    have hcont : Continues d.escapeToken l (acc ++ l) ↔ OpenBracket (acc ++ l) := by
      simp [Continues, hno]
    refine ⟨l, .inr ⟨rfl, hno⟩, ?_, ?_⟩
    · simp only [Option.map_none]
      split <;> simp
    · simp only [Option.map_none]
      rw [hcont, ← jsonArrayContinues_iff]
      split <;> simp_all

@[simp] theorem Node.startLine_lines (c : Node α) (s e : Int) : (c.lines s e).startLine = s := rfl

@[simp] theorem Node.endLine_lines (c : Node α) (s e : Int) : (c.lines s e).endLine = e := rfl

@[simp] theorem Node.original_lines (c : Node α) (s e : Int) : (c.lines s e).original = c.original :=
  rfl

@[simp] theorem Node.children_addChild (node child : Node α) (s e : Int) :
    (node.addChild child s e).children = node.children ++ [child.lines s e] := rfl

theorem newNodeFromLine_original {p : LineParsers α} {line : String} {d : Directive} {c : Node α}
    (h : newNodeFromLine p line d = .ok c) : c.original = line := by
  unfold newNodeFromLine at h
  obtain ⟨next, -, h⟩ := Outcome.except_bind_eq_ok.mp h
  cases h
  rfl

/-- `addInstruction` adds a node of the text it is given, over the lines from `startLine` to the
current one. -/
theorem ParseState.addInstruction_eq_ok {p : LineParsers α} {st st' : ParseState α} {line : String}
    {startLine : Nat} {hasEmpty : Bool} (h : st.addInstruction p line startLine hasEmpty = .ok st') :
    ∃ child : Node α, child.original = line ∧
      st'.root.children = st.root.children ++ [child.lines startLine st.currentLine] ∧
      st'.d = st.d ∧ st'.currentLine = st.currentLine ∧ st'.scan = .between := by
  unfold addInstruction at h
  obtain ⟨child, hchild, h⟩ := Outcome.except_bind_eq_ok.mp h
  cases h
  exact ⟨child, newNodeFromLine_original hchild, rfl, rfl, rfl, rfl⟩

/-! ## Ranges of lines

A line read is outside every range (`Spans.gap`), starts a range (`Spans.push`), or is added to
the last one (`Spans.extend`). -/

section Spans

variable {lines : List (List Char)} {rs : List (Int × Int)}

theorem Spans.nil : Spans [] [] where
  ordered := .nil
  bounds _ h := absurd h List.not_mem_nil
  gaps _ hk := absurd hk (Nat.not_lt_zero _)

theorem Spans.gap (h : Spans lines rs) {L : List Char} (hL : Skipped (lines.length + 1) L) :
    Spans (lines ++ [L]) rs where
  ordered := h.ordered
  bounds r hr := by
    obtain ⟨h₁, h₂, h₃⟩ := h.bounds r hr
    simp only [List.length_append, List.length_singleton]
    exact ⟨h₁, h₂, by omega⟩
  gaps k hk hout := by
    rcases Nat.lt_or_ge k lines.length with hlt | hge
    · rw [List.getElem_append_left hlt]
      exact h.gaps k hlt hout
    · have hk' : k = lines.length := by simp at hk; omega
      subst hk'
      simpa using hL

theorem Spans.push (h : Spans lines rs) (L : List Char) :
    Spans (lines ++ [L]) (rs ++ [((lines.length : Int) + 1, (lines.length : Int) + 1)]) where
  ordered := by
    refine h.ordered.append (.singleton _) ?_
    intro x hx y hy
    simp only [List.head?_cons, Option.mem_def, Option.some.injEq] at hy
    subst hy
    have := (h.bounds x (List.mem_of_getLast? hx)).2.2
    omega
  bounds r hr := by
    simp only [List.length_append, List.length_singleton]
    rcases List.mem_append.mp hr with hr | hr
    · obtain ⟨h₁, h₂, h₃⟩ := h.bounds r hr
      exact ⟨h₁, h₂, by omega⟩
    · rw [List.mem_singleton.mp hr]
      omega
  gaps k hk hout := by
    -- the new line is in the new range
    have hlt : k < lines.length := by
      by_contra hge
      have hk' : k = lines.length := by simp at hk; omega
      exact hout _ (List.mem_append_right _ (List.mem_singleton_self _)) (by subst hk'; simp)
    rw [List.getElem_append_left hlt]
    exact h.gaps k hlt fun r hr => hout r (List.mem_append_left _ hr)

theorem Spans.extend {s : Int} (h : Spans lines (rs ++ [(s, (lines.length : Int))])) (L : List Char) :
    Spans (lines ++ [L]) (rs ++ [(s, (lines.length : Int) + 1)]) where
  ordered := by
    obtain ⟨hrs, -, hlast⟩ := List.isChain_append.mp h.ordered
    refine hrs.append (.singleton _) fun x hx y hy => ?_
    simp only [List.head?_cons, Option.mem_def, Option.some.injEq] at hy
    subst hy
    exact hlast x hx (s, lines.length) rfl
  bounds r hr := by
    simp only [List.length_append, List.length_singleton]
    rcases List.mem_append.mp hr with hr | hr
    · obtain ⟨h₁, h₂, h₃⟩ := h.bounds r (List.mem_append_left _ hr)
      exact ⟨h₁, h₂, by omega⟩
    · rw [List.mem_singleton.mp hr]
      have := h.bounds _ (List.mem_append_right _ (List.mem_singleton_self _))
      simp only at this
      omega
  gaps k hk hout := by
    have hs := (h.bounds _ (List.mem_append_right _ (List.mem_singleton_self _))).2.1
    simp only at hs
    -- the new line is in the last range, which now ends with it
    have hlt : k < lines.length := by
      by_contra hge
      have hk' : k = lines.length := by simp at hk; omega
      exact hout _ (List.mem_append_right _ (List.mem_singleton_self _)) (by subst hk'; simp; omega)
    rw [List.getElem_append_left hlt]
    refine h.gaps k hlt fun r hr => ?_
    rcases List.mem_append.mp hr with hr | hr
    · exact hout r (List.mem_append_left _ hr)
    · rw [List.mem_singleton.mp hr]
      have := hout _ (List.mem_append_right _ (List.mem_singleton_self _))
      simp only [not_and] at this ⊢
      omega

/-- A range replaced by one of the same lines. -/
theorem Spans.of_eq {rs' : List (Int × Int)} (h : Spans lines rs) (he : rs = rs') : Spans lines rs' :=
  he ▸ h

end Spans

/-! ## The lines of an instruction -/

theorem linesOf_append_of_le (lines more : List (List Char)) {s e : Nat} (h : e ≤ lines.length) :
    linesOf (lines ++ more) s e = linesOf lines s e := by
  simp [linesOf, List.take_append_of_le_length h]

theorem linesOf_append_singleton (lines : List (List Char)) (L : List Char) {s : Nat}
    (h : s ≤ lines.length + 1) :
    linesOf (lines ++ [L]) s (lines.length + 1) = linesOf lines s lines.length ++ [L] := by
  have hs : s - 1 ≤ lines.length := by omega
  have ht : (lines ++ [L]).take (lines.length + 1) = lines ++ [L] := List.take_of_length_le (by simp)
  rw [linesOf, linesOf, ht, List.take_length, List.drop_append_of_le_length hs]

theorem contentLines_append_singleton {body : List (List Char)} (h : body ≠ []) (s : Nat)
    (L : List Char) :
    contentLines s (body ++ [L]) =
      contentLines s body ++ [L].filter fun l => !isComment l && !isEmptyContinuationLine l := by
  cases body with
  | nil => exact absurd rfl h
  | cons first rest => simp [contentLines, List.filter_append]

theorem Continued.spelled {esc : Char} {ls : List (List Char)} {text : List Char}
    (h : Continued esc ls text) (hne : ls ≠ []) {atEnd : Prop} (hend : atEnd) :
    Spelled esc ls text atEnd := by
  cases h with
  | nil => exact absurd rfl hne
  | snoc hc hp _ => exact ⟨_, _, _, _, rfl, hc, hp, rfl, fun _ => hend⟩

theorem Spelled.mono {esc : Char} {ls : List (List Char)} {text : List Char} {A B : Prop}
    (h : Spelled esc ls text A) (hAB : A → B) : Spelled esc ls text B := by
  obtain ⟨init, l, t, p, hls, hc, hp, htext, hend⟩ := h
  exact ⟨init, l, t, p, hls, hc, hp, htext, fun h => hAB (hend h)⟩

/-! ## A line as `Parse` reads it -/

theorem isSpace_hash : isSpace '#' = false := by
  unfold isSpace
  decide

theorem physical_sublist (n : Nat) (line : List Char) : (physical n line).Sublist line := by
  unfold physical
  split
  · cases line with
    | nil => exact .slnil
    | cons c rest =>
      simp only [trimBOM]
      split
      · exact .cons c (.refl rest)
      · exact .refl _
  · exact .refl _

/-- A line that is not blank has a character that is not a blank. -/
theorem exists_not_isBlank {l : List Char} (h : trimWhitespace l ≠ []) :
    ∃ c ∈ trimWhitespace l, isBlank c = false := by
  obtain ⟨c, rest, hcr⟩ := List.exists_cons_of_ne_nil h
  have hc := List.head?_dropWhile_not isSpace l
  rw [← trimWhitespace, hcr] at hc
  simp only [List.head?_cons] at hc
  refine ⟨c, hcr ▸ List.mem_cons_self, ?_⟩
  cases hb : isBlank c
  · rfl
  · rw [isSpace_of_isBlank hb] at hc
    cases hc

/-- A line that is not a comment loses nothing to `trimComments`. -/
theorem trimComments_of_not_isComment {l : List Char} (h : isComment l = false) :
    trimComments l = l := by
  unfold trimComments
  split
  · next hm =>
    -- a line that starts with `#` is a comment
    obtain ⟨rest, rfl⟩ : ∃ rest, l = '#' :: rest := by
      cases l with
      | nil => simp [matchesComment] at hm
      | cons c rest =>
        simp only [matchesComment, List.head?_cons, beq_iff_eq, Option.some.injEq,
          Bool.and_eq_true] at hm
        exact ⟨rest, by rw [hm.1]⟩
    simp [isComment, trimWhitespace, isSpace_hash, hm] at h
  · rfl

/-- A first line that `trimComments` keeps and that holds no `\n` is not a comment: it does not
start with `#`. -/
theorem head_ne_hash_of_trimComments {t : List Char} (hn : '\n' ∉ t) (h : trimComments t ≠ []) :
    t.head? ≠ some '#' := by
  intro hhead
  apply h
  simp [trimComments, matchesComment, hhead, hn]

theorem append_ofList (line : String) (l : List Char) :
    line ++ String.ofList l = String.ofList (line.toList ++ l) := by
  rw [String.ofList_append, String.ofList_toList]

/-! ## The invariant of the loops -/

/-- The range of the instruction being read when `n` lines are read. -/
def Scan.ranges : Scan → Nat → List (Int × Int)
  | .between, _ => []
  | .continuing _ s _, n => [((s : Int), (n : Int))]

/-- What holds when `Parse` has read the lines `lines` into the state `st`: the instructions read
and the one being read span ranges of them, each instruction read is spelled from its lines and
the lines of the one being read so far continue it, and the directive changes only before the
first instruction. -/
structure Inv (lines : List (List Char)) (st : ParseState α) : Prop where
  currentLine : st.currentLine = lines.length
  spans : Spans lines (st.root.children.map Node.range ++ st.scan.ranges lines.length)
  closed : ∀ c ∈ st.root.children,
    Spelled st.d.escapeToken (textLines lines c) c.original.toList False
  pending : ∀ line s hasEmpty, st.scan = .continuing line s hasEmpty →
    contentLines s (linesOf lines s lines.length) ≠ [] ∧
      Continued st.d.escapeToken (contentLines s (linesOf lines s lines.length)) line.toList
  directive : st.d.processingComplete = false → st.root.children = [] ∧ st.scan = .between

section Inv

variable {lines : List (List Char)} {st st' : ParseState α}

theorem Inv.init : Inv [] (ParseState.init : ParseState α) where
  currentLine := rfl
  spans := Spans.nil
  closed _ h := absurd h List.not_mem_nil
  pending _ _ _ h := by cases h
  directive _ := ⟨rfl, rfl⟩

/-- The instructions read keep their lines when a line is read after them. -/
theorem Inv.closed_append (h : Inv lines st) (L : List Char) :
    ∀ c ∈ st.root.children,
      Spelled st.d.escapeToken (textLines (lines ++ [L]) c) c.original.toList False := by
  intro c hc
  have hb := (h.spans.bounds _ (List.mem_append_left _ (List.mem_map_of_mem hc))).2.2
  simp only [Node.range] at hb
  rw [textLines, linesOf_append_of_le _ _ (by omega)]
  exact h.closed c hc

/-- An instruction read to its end with the line `L`, added to the root. -/
theorem Inv.add (h : Inv lines st) {L : List Char} {c : Node α}
    (hcur : st'.currentLine = lines.length + 1)
    (hchildren : st'.root.children = st.root.children ++ [c]) (hscan : st'.scan = .between)
    (hesc : st'.d.escapeToken = st.d.escapeToken) (hcomplete : st'.d.processingComplete = true)
    (hspans : Spans (lines ++ [L]) (st.root.children.map Node.range ++ [c.range]))
    (hc : Spelled st.d.escapeToken (textLines (lines ++ [L]) c) c.original.toList False) :
    Inv (lines ++ [L]) st' where
  currentLine := by simp [hcur]
  spans := by simpa [hchildren, hscan, Scan.ranges] using hspans
  closed c' hc' := by
    rw [hchildren, List.mem_append, List.mem_singleton] at hc'
    rw [hesc]
    rcases hc' with hc' | rfl
    · exact h.closed_append L c' hc'
    · exact hc
  pending _ _ _ h' := by simp [hscan] at h'
  directive h' := by simp [hcomplete] at h'

/-- The line `L` read into the instruction being read, which it continues. -/
theorem Inv.continuing (h : Inv lines st) {L : List Char} {line : String} {s : Nat}
    {hasEmpty : Bool} (hcur : st'.currentLine = lines.length + 1)
    (hchildren : st'.root.children = st.root.children)
    (hscan : st'.scan = .continuing line s hasEmpty)
    (hesc : st'.d.escapeToken = st.d.escapeToken) (hcomplete : st'.d.processingComplete = true)
    (hspans : Spans (lines ++ [L])
      (st.root.children.map Node.range ++ [((s : Int), (lines.length : Int) + 1)]))
    (hne : contentLines s (linesOf (lines ++ [L]) s (lines.length + 1)) ≠ [])
    (hcont : Continued st.d.escapeToken (contentLines s (linesOf (lines ++ [L]) s (lines.length + 1)))
      line.toList) :
    Inv (lines ++ [L]) st' where
  currentLine := by simp [hcur]
  spans := by simpa [hchildren, hscan, Scan.ranges] using hspans
  closed c hc := by
    rw [hchildren] at hc
    rw [hesc]
    exact h.closed_append L c hc
  pending line' s' hasEmpty' h' := by
    rw [hscan] at h'
    cases h'
    simpa [hesc] using And.intro hne hcont
  directive h' := by simp [hcomplete] at h'

/-- A blank line or a comment read between instructions; the directive may change before the
first one. -/
theorem Inv.skip (h : Inv lines st) (hscan : st.scan = .between) {L : List Char}
    (hL : Skipped (lines.length + 1) L) {d : Directive}
    (hd : st.d.processingComplete = true → d = st.d) :
    Inv (lines ++ [L]) { st with d, currentLine := st.currentLine + 1 } where
  currentLine := by simp [h.currentLine]
  spans := by simpa [hscan, Scan.ranges] using h.spans.gap hL
  closed c hc := by
    cases hdone : st.d.processingComplete
    · simp [(h.directive hdone).1] at hc
    · rw [hd hdone]
      exact h.closed_append L c hc
  pending _ _ _ h' := by simp [hscan] at h'
  directive h' := by
    cases hdone : st.d.processingComplete
    · exact h.directive hdone
    · rw [hd hdone] at h'
      simp [hdone] at h'

/-- The lines of an instruction that starts with the line read last. -/
theorem contentLines_start (lines : List (List Char)) (L : List Char) :
    contentLines (lines.length + 1) (linesOf (lines ++ [L]) (lines.length + 1) (lines.length + 1)) =
      [trimWhitespace (physical (lines.length + 1) L)] := by
  rw [linesOf_append_singleton _ _ le_rfl]
  have hnil : linesOf lines (lines.length + 1) lines.length = [] := by simp [linesOf]
  simp [hnil, contentLines]

@[simp] theorem Node.range_lines (c : Node α) (s e : Int) : (c.lines s e).range = (s, e) := rfl

/-- A line read by the outer loop: a blank line or a comment, or the first line of an
instruction, which ends there or goes on. -/
theorem Inv.scanFirst (h : Inv lines st) (hscan : st.scan = .between) {p : LineParsers α}
    {L : List Char} (hL : '\n' ∉ L) (hst : st.scanFirst p L = .ok st') :
    Inv (lines ++ [L]) st' := by
  unfold ParseState.scanFirst at hst
  obtain ⟨⟨b, d'⟩, hpl, hst⟩ := Outcome.except_bind_eq_ok.mp hst
  have hphys : (if st.currentLine = 0 then trimBOM L else L) = physical (lines.length + 1) L := by
    simp [physical, h.currentLine]
  rw [hphys] at hpl
  obtain ⟨rfl, hd'⟩ := processLine_eq_ok hpl
  simp only [↓reduceIte] at hd' hst
  have hkeep : st.d.processingComplete = true → d' = st.d := fun hc => by
    rw [Directive.possibleParserDirective_of_complete hc] at hd'
    exact (Except.ok.inj hd').symm
  set t := trimWhitespace (physical (lines.length + 1) L) with ht
  by_cases hb : trimComments t = []
  · -- a blank line or a comment
    rw [hb, String.ofList_nil, continuateLine_empty] at hst
    cases hst
    refine h.skip hscan ?_ hkeep
    unfold trimComments at hb
    split at hb
    · exact .inr ‹_›
    · exact .inl (by simp [isEmptyContinuationLine, ← ht, hb])
  · -- the first line of an instruction, which ends the directives
    have hnt : '\n' ∉ t := fun hm =>
      hL (((List.dropWhile_sublist _).trans (physical_sublist _ _)).subset hm)
    have hhead := head_ne_hash_of_trimComments hnt hb
    have htc : trimComments t = t := by
      unfold trimComments at hb ⊢
      split
      · simp_all
      · rfl
    rw [Directive.possibleParserDirective_of_head _ (by simpa using hhead)] at hd'
    cases hd'
    have hne : t ≠ [] := fun h0 => hb (by rw [h0]; rfl)
    obtain ⟨p', hpiece, hline, hiff⟩ :=
      continuateLine_spec { st.d with processingComplete := true } [] (exists_not_isBlank hne)
    rw [htc] at hst
    simp only [List.nil_append] at hline hiff
    rcases hcl : continuateLine (String.ofList t) { st.d with processingComplete := true } with
      ⟨line, eol⟩
    rw [hcl] at hst hline hiff
    simp only at hline hiff
    have hcontent := contentLines_start lines L
    cases eol with
    | true =>
      -- the instruction is one line
      have hend : ¬ Continues st.d.escapeToken t p' := hiff.mp rfl
      have hline_ne : line ≠ "" := by
        rintro rfl
        rcases hpiece with hesc | ⟨rfl, -⟩
        · exact hend (.inl ⟨_, hesc⟩)
        · exact hne (by simpa using hline.symm)
      simp only [Bool.true_and, beq_iff_eq, hline_ne, ↓reduceIte] at hst
      obtain ⟨child, horig, hch, hd, hcur, hsc⟩ := ParseState.addInstruction_eq_ok hst
      refine h.add
        (c := child.lines ((st.currentLine + 1 : Nat) : Int) ((st.currentLine + 1 : Nat) : Int))
        (by simp [hcur, h.currentLine]) hch hsc (by simp [hd]) (by simp [hd]) ?_ ?_
      · refine (h.spans.push L).of_eq ?_
        simp [hscan, Scan.ranges, h.currentLine]
      · rw [textLines, Node.startLine_lines, Node.endLine_lines, h.currentLine]
        simp only [Int.toNat_natCast]
        rw [hcontent]
        refine ⟨[], t, [], p', rfl, .nil, hpiece, by simp [horig, hline], fun hc => hend ?_⟩
        simpa [horig, hline] using hc
    | false =>
      -- the instruction goes on
      simp only [Bool.false_and, Bool.false_eq_true, ↓reduceIte] at hst
      cases hst
      refine h.continuing (by simp [h.currentLine]) rfl rfl rfl rfl ?_
        (by rw [h.currentLine, hcontent]; simp) ?_
      · refine (h.spans.push L).of_eq ?_
        simp [hscan, Scan.ranges, h.currentLine]
      · simp only [h.currentLine]
        rw [hcontent]
        have := Continued.snoc .nil hpiece (by simpa using hiff)
        simpa [hline] using this

/-- A line read by the continuation loop: a comment or a blank line, which is skipped, or a line
of the instruction, which ends there or goes on. -/
theorem Inv.scanContinuation (h : Inv lines st) {line : String} {s : Nat} {hasEmpty : Bool}
    (hscan : st.scan = .continuing line s hasEmpty) {p : LineParsers α} {L : List Char}
    (hst : st.scanContinuation p line s hasEmpty L = .ok st') : Inv (lines ++ [L]) st' := by
  unfold ParseState.scanContinuation at hst
  obtain ⟨⟨b, d'⟩, hpl, hst⟩ := Outcome.except_bind_eq_ok.mp hst
  obtain ⟨rfl, hd'⟩ := processLine_eq_ok hpl
  simp only [Bool.false_eq_true, ↓reduceIte] at hd' hst
  -- within an instruction the directives are over
  have hcomplete : st.d.processingComplete = true := by
    cases hc : st.d.processingComplete
    · have := (h.directive hc).2
      rw [hscan] at this
      cases this
    · rfl
  rw [Directive.possibleParserDirective_of_complete hcomplete] at hd'
  cases hd'
  obtain ⟨hne, hcont⟩ := h.pending line s hasEmpty hscan
  have hspans₀ := h.spans
  simp only [hscan, Scan.ranges] at hspans₀
  have hrange := (hspans₀.bounds _ (List.mem_append_right _ (List.mem_singleton_self _))).2.1
  simp only at hrange
  have hbody : linesOf lines s lines.length ≠ [] := fun h0 => hne (by rw [h0]; rfl)
  have hlines : contentLines s (linesOf (lines ++ [L]) s (lines.length + 1)) =
      contentLines s (linesOf lines s lines.length) ++
        [L].filter fun l => !isComment l && !isEmptyContinuationLine l := by
    rw [linesOf_append_singleton _ _ (by omega), contentLines_append_singleton hbody]
  have hspans := hspans₀.extend L
  by_cases hcom : isComment L
  · -- a comment
    simp only [hcom, ↓reduceIte] at hst
    cases hst
    refine h.continuing (by simp [h.currentLine]) rfl hscan rfl hcomplete hspans ?_ ?_
    · rw [hlines]
      simpa [hcom] using hne
    · rw [hlines]
      simpa [hcom] using hcont
  · have htc := trimComments_of_not_isComment (by simpa using hcom)
    rw [htc] at hst
    simp only [hcom, Bool.false_eq_true, ↓reduceIte] at hst
    by_cases hempty : isEmptyContinuationLine L
    · -- a blank line
      simp only [hempty, ↓reduceIte] at hst
      cases hst
      refine h.continuing (by simp [h.currentLine]) rfl rfl rfl hcomplete hspans ?_ ?_
      · rw [hlines]
        simpa [hempty] using hne
      · rw [hlines]
        simpa [hempty] using hcont
    · -- a line of the instruction
      simp only [hempty, Bool.false_eq_true, ↓reduceIte] at hst
      have hnb : trimWhitespace L ≠ [] := by simpa [isEmptyContinuationLine] using hempty
      obtain ⟨c, hc, hcb⟩ := exists_not_isBlank hnb
      obtain ⟨p', hpiece, hline', hiff⟩ := continuateLine_spec st.d line.toList
        ⟨c, (List.dropWhile_sublist _).subset hc, hcb⟩
      rw [append_ofList] at hst
      rcases hcl : continuateLine (String.ofList (line.toList ++ L)) st.d with ⟨line', eol⟩
      rw [hcl] at hst hline' hiff
      simp only at hline' hiff
      have hkeepL : [L].filter (fun l => !isComment l && !isEmptyContinuationLine l) = [L] := by
        simp [hcom, hempty]
      rw [hkeepL] at hlines
      cases eol with
      | true =>
        -- the line ends the instruction
        simp only [↓reduceIte] at hst
        obtain ⟨child, horig, hch, hd, hcur, hsc⟩ := ParseState.addInstruction_eq_ok hst
        refine h.add (c := child.lines (s : Int) ((st.currentLine + 1 : Nat) : Int))
          (by simp [hcur, h.currentLine]) hch hsc (by simp [hd]) (by simp [hd, hcomplete]) ?_ ?_
        · refine hspans.of_eq ?_
          simp [h.currentLine]
        · rw [textLines, Node.startLine_lines, Node.endLine_lines, h.currentLine]
          simp only [Int.toNat_natCast]
          rw [hlines]
          refine ⟨_, L, line.toList, p', rfl, hcont, hpiece, by simp [horig, hline'],
            fun hc' => hiff.mp rfl ?_⟩
          simpa [horig, hline'] using hc'
      | false =>
        -- the instruction goes on
        simp only [Bool.false_eq_true, ↓reduceIte] at hst
        cases hst
        refine h.continuing (by simp [h.currentLine]) rfl rfl rfl hcomplete hspans
          (by rw [hlines]; simp) ?_
        rw [hlines]
        have := Continued.snoc hcont hpiece (by simpa using hiff)
        simpa [hline'] using this

theorem Inv.scanLine (h : Inv lines st) {p : LineParsers α} {L : List Char} (hL : '\n' ∉ L)
    (hst : st.scanLine p L = .ok st') : Inv (lines ++ [L]) st' := by
  unfold ParseState.scanLine at hst
  split at hst
  · next hscan => exact h.scanFirst hscan hL hst
  · next hscan => exact h.scanContinuation hscan hst

/-- At the end of the input the instruction being read ends too, and the lines read are
partitioned. -/
theorem Inv.partitions (h : Inv lines st) {p : LineParsers α} (hend : st.endOfInput p = .ok st') :
    Partitions st'.d.escapeToken lines st'.root.children := by
  unfold ParseState.endOfInput at hend
  split at hend
  · next hscan =>
    cases hend
    exact ⟨by simpa [hscan, Scan.ranges] using h.spans, fun c hc => (h.closed c hc).mono False.elim⟩
  · next line s hasEmpty hscan =>
    obtain ⟨child, horig, hch, hd, hcur, -⟩ := ParseState.addInstruction_eq_ok hend
    obtain ⟨hne, hcont⟩ := h.pending line s hasEmpty hscan
    rw [hch, hd]
    constructor
    · refine h.spans.of_eq ?_
      simp [hscan, Scan.ranges, h.currentLine]
    · intro c hc
      rcases List.mem_append.mp hc with hc | hc
      · exact (h.closed c hc).mono False.elim
      · -- the instruction the input ends in
        rw [List.mem_singleton.mp hc, textLines, Node.startLine_lines, Node.endLine_lines,
          h.currentLine]
        simp only [Int.toNat_natCast, Node.original_lines, horig]
        exact hcont.spelled hne trivial

end Inv

/-- `Parse` partitions a Dockerfile into its instructions. -/
theorem parse_partitions (p : LineParsers α) (input : String) {r : Result α}
    (h : parse p input = .ok r) :
    Partitions r.escapeToken (scanLines input.toList) r.ast.children := by
  unfold parse at h
  obtain ⟨st, hfold, h⟩ := Outcome.except_bind_eq_ok.mp h
  -- the loops, one line at a time
  have hinv : Inv (scanLines input.toList) st := by
    refine Loop.foldlM_ok_rule Inv (fun done x rest s s' hl hs hI => hI.scanLine ?_ hs) hfold Inv.init
    exact newline_not_mem_of_mem_scanLines (hl ▸ List.mem_append_right _ List.mem_cons_self)
  obtain ⟨st', hend, h⟩ := Outcome.except_bind_eq_ok.mp h
  have hpart := hinv.partitions hend
  simp only at h
  split at h
  · cases h
  · cases h
    exact hpart

/-- The line parsers of a test, which ignore every instruction. -/
def ignoreAll : LineParsers Unit := ⟨fun line => (line, [], ""), fun _ => none, ()⟩

/-- A Dockerfile with a directive, a comment, an instruction continued by the escape token over a
comment and a blank line, and one continued by an open bracket. -/
def sampleDockerfile : String :=
  "# escape=`\nFROM alpine\n\nRUN echo a `\n  # a comment\n\n  b\nCMD [\"x\",\n  \"y\"]\n"

theorem parse_partitions_sample :
    ∃ r, parse ignoreAll sampleDockerfile = .ok r ∧
      Partitions r.escapeToken (scanLines sampleDockerfile.toList) r.ast.children := by
  obtain ⟨r, hr⟩ := Outcome.except_exists_eq_ok_of_toBool
    (x := parse ignoreAll sampleDockerfile) (by decide +kernel)
  exact ⟨r, hr, parse_partitions ignoreAll sampleDockerfile hr⟩

example : (parse ignoreAll sampleDockerfile).toOption.map
      (fun r => r.ast.children.map fun c => (c.original, c.startLine, c.endLine)) =
    some [("FROM alpine", 2, 2), ("RUN echo a   b", 4, 7), ("CMD [\"x\",  \"y\"]", 8, 9)] := by
  decide +kernel

end Parser

end Buildkit
