import Mathlib.Data.List.Induction
import Buildkit.Client.Llb.Meta
import Buildkit.Lib.Outcome
import Buildkit.Lib.Split
import Buildkit.Lib.Strings

/-!
# The variable expander of Dockerfile words

`shell.Lex` of the Dockerfile frontend: a word is read once, left to right, and expanded into a
string and, at the same time, into its words, split at white space except where quotes or an
escape token hold characters together. The scanner is the input that is left: `Peek` is its
head and `Next` takes it, and every function returns the input it leaves with what it returns,
also when it fails, since `processDollar` looks at where a failed default word stopped.

`processStopOn`, `processDoubleQuote` and `processDollar` call one another (a default word is
read by `processStopOn`, a double-quoted `$` by `processDollar`), so they run on one fuel: each
call and each round of a loop takes one unit, and each takes at least one character of the
input or calls one that does, so that `process` runs on fuel of twice the length of the word
and one. Out of fuel is a panic, as Go's stack overflow is.

`unicode.IsLetter` and `unicode.IsDigit` are the parameters `isLetter` and `isDigit`: the
results here hold for any classes of letters and digits. A Go map of the environment is the
list of its entries, each key once, and `EqualEnvKeys` is equality on Unix, so that the loop of
`getEnv` finds the one entry of the key whichever order it runs in.
-/

namespace Buildkit.Shell

open Strings

/-- `Lex`. -/
structure Lex where
  escapeToken : Char
  rawQuotes : Bool
  skipUnsetEnv : Bool

/-- `NewLex`. -/
def newLex (escapeToken : Char) : Lex := ⟨escapeToken, false, false⟩

/-- `shellWord`, without its scanner: the functions below take the input and return what they
leave of it. -/
structure ShellWord where
  envs : Client.EnvList
  escapeToken : Char
  rawQuotes : Bool
  skipUnsetEnv : Bool

/-- `wordsStruct`; its zero value is `{}`. -/
structure WordsStruct where
  word : String := ""
  words : List String := []
  inWord : Bool := false
  deriving DecidableEq, Repr

namespace WordsStruct

/-- `addRawChar`. -/
def addRawChar (w : WordsStruct) (ch : Char) : WordsStruct :=
  { w with word := w.word.push ch, inWord := true }

/-- `addChar`: a space ends the word, if there is one, and is dropped. -/
def addChar (w : WordsStruct) (ch : Char) : WordsStruct :=
  if isSpace ch && w.inWord then
    if w.word ≠ "" then ⟨"", w.words ++ [w.word], false⟩ else w
  else if !isSpace ch then w.addRawChar ch
  else w

/-- `addString`. -/
def addString (w : WordsStruct) (str : String) : WordsStruct := str.toList.foldl addChar w

/-- `addRawString`. -/
def addRawString (w : WordsStruct) (str : String) : WordsStruct :=
  { w with word := w.word ++ str, inWord := true }

/-- `getWords`. -/
def getWords (w : WordsStruct) : List String :=
  if w.word ≠ "" then w.words ++ [w.word] else w.words

end WordsStruct

/-- `isSpecialParam`. -/
def isSpecialParam (char : Char) : Bool :=
  match char with
  | '@' | '*' | '#' | '?' | '-' | '$' | '!' | '0' => true
  | _ => false

/-- `getEnv`. -/
def ShellWord.getEnv (sw : ShellWord) (name : String) : Option String := sw.envs.get name

section Expander

variable (isLetter isDigit : Char → Bool)

/-- The inner loop of `processName` for a name that starts with a digit: the digits up to the
first character that is not one. -/
def readDigits : List Char → String → String × List Char
  | ch :: cs, name => if isDigit ch then readDigits cs (name.push ch) else (name, ch :: cs)
  | [], name => (name, [])

/-- The loop of `processName`, with the name read so far. -/
def processNameLoop : List Char → String → String × List Char
  | [], name => (name, [])
  | ch :: cs, name =>
    if name = "" ∧ isDigit ch then readDigits isDigit (ch :: cs) name
    else if name = "" ∧ isSpecialParam ch then (ch.toString, cs)
    else if !isLetter ch ∧ !isDigit ch ∧ ch ≠ '_' then (name, ch :: cs)
    else processNameLoop cs (name.push ch)

/-- `processName`: the name at the start of the input, and the input after it. -/
def processName (input : List Char) : String × List Char := processNameLoop isLetter isDigit input ""

/-- The loop of `processSingleQuote`, after the opening quote. -/
def singleQuoteLoop (rawQuotes : Bool) : List Char → String → Outcome String × List Char
  | [], _ => (.error "unexpected end of statement while looking for matching single-quote", [])
  | ch :: cs, result =>
    if ch = '\'' then (.ok (if rawQuotes then result.push ch else result), cs)
    else singleQuoteLoop rawQuotes cs (result.push ch)

/-- `processSingleQuote`, at the opening quote. -/
def processSingleQuote (sw : ShellWord) : List Char → Outcome String × List Char
  | [] => (.error "unexpected end of statement while looking for matching single-quote", [])
  | ch :: cs => singleQuoteLoop sw.rawQuotes cs (if sw.rawQuotes then "".push ch else "")

/-- What `processStopOn` returns where its input ends, or ends after an escape token: the
result and its words, or an error if it was looking for `stopChar`. -/
def stopAtEnd (stopChar : Option Char) (result : String) (words : WordsStruct) :
    Outcome (String × List String) :=
  match stopChar with
  | some c => .error ("unexpected end of statement while looking for matching " ++ c.toString)
  | none => .ok (result, words.getWords)

/-- The value of `${name:<modifier>word}`. An end of input prints as U+FFFD, but it never gets
here: the default word fails at the end first. -/
def modifierValue (sw : ShellWord) (name : String) (modifier : Option Char) (word : String) :
    Outcome String :=
  let found := sw.getEnv name
  let newValue := found.getD ""
  match modifier with
  | some '+' =>
    .ok (if found.isNone && sw.skipUnsetEnv then "$\x7b" ++ name ++ ":+" ++ word ++ "\x7d"
      else if newValue ≠ "" then word else newValue)
  | some '-' =>
    .ok (if found.isNone && sw.skipUnsetEnv then "$\x7b" ++ name ++ ":-" ++ word ++ "\x7d"
      else if newValue = "" then word else newValue)
  | m => .error ("unsupported modifier (" ++ (m.getD '\uFFFD').toString ++ ") in substitution")

mutual

/-- The loop of `processStopOn`, with the result and the words so far. -/
def processStopOnLoop (sw : ShellWord) (stopChar : Option Char) :
    Nat → List Char → String → WordsStruct → Outcome (String × List String) × List Char
  | 0, input, _, _ => (.panic "runtime: goroutine stack exceeds limit", input)
  | _ + 1, [], result, words => (stopAtEnd stopChar result words, [])
  | fuel + 1, ch :: cs, result, words =>
    if stopChar = some ch then (.ok (result, words.getWords), cs)
    -- the functions of `charFuncMapping`: what they return is added to the words whole, but
    -- for a `$`, whose value is split at its spaces
    else if ch = '\'' then
      Outcome.bindWith (processSingleQuote sw (ch :: cs)) fun tmp rest =>
        processStopOnLoop sw stopChar fuel rest (result ++ tmp) (words.addRawString tmp)
    else if ch = '"' then
      Outcome.bindWith (processDoubleQuote sw fuel (ch :: cs)) fun tmp rest =>
        processStopOnLoop sw stopChar fuel rest (result ++ tmp) (words.addRawString tmp)
    else if ch = '$' then
      Outcome.bindWith (processDollar sw fuel (ch :: cs)) fun tmp rest =>
        processStopOnLoop sw stopChar fuel rest (result ++ tmp) (words.addString tmp)
    else if ch = sw.escapeToken then
      match cs with
      | [] => (stopAtEnd stopChar result words, [])
      | c :: cs => processStopOnLoop sw stopChar fuel cs (result.push c) (words.addRawChar c)
    else processStopOnLoop sw stopChar fuel cs (result.push ch) (words.addChar ch)

/-- The loop of `processDoubleQuote`, after the opening quote. -/
def doubleQuoteLoop (sw : ShellWord) : Nat → List Char → String → Outcome String × List Char
  | 0, input, _ => (.panic "runtime: goroutine stack exceeds limit", input)
  | _ + 1, [], _ =>
    (.error "unexpected end of statement while looking for matching double-quote", [])
  | fuel + 1, ch :: cs, result =>
    if ch = '"' then (.ok (if sw.rawQuotes then result.push ch else result), cs)
    else if ch = '$' then
      Outcome.bindWith (processDollar sw fuel (ch :: cs)) fun value rest =>
        doubleQuoteLoop sw fuel rest (result ++ value)
    else if ch = sw.escapeToken then
      match cs with
      -- an escape token at the end is dropped, and the next round finds the end
      | [] => doubleQuoteLoop sw fuel [] result
      | c :: cs =>
        if c = '"' ∨ c = '$' ∨ c = sw.escapeToken then doubleQuoteLoop sw fuel cs (result.push c)
        else doubleQuoteLoop sw fuel (c :: cs) (result.push ch)
    else doubleQuoteLoop sw fuel cs (result.push ch)

/-- `processDoubleQuote`, at the opening quote. -/
def processDoubleQuote (sw : ShellWord) : Nat → List Char → Outcome String × List Char
  | 0, input => (.panic "runtime: goroutine stack exceeds limit", input)
  | fuel + 1, [] => doubleQuoteLoop sw fuel [] ""
  | fuel + 1, ch :: cs => doubleQuoteLoop sw fuel cs (if sw.rawQuotes then "".push ch else "")

/-- `processDollar`, at the `$`. -/
def processDollar (sw : ShellWord) : Nat → List Char → Outcome String × List Char
  | 0, input => (.panic "runtime: goroutine stack exceeds limit", input)
  | fuel + 1, input =>
    let input := input.tail
    if input.head? ≠ some '\x7b' then
      -- `$name`
      let (name, rest) := processName isLetter isDigit input
      if name = "" then (.ok "$", rest)
      else
        match sw.getEnv name with
        | some value => (.ok value, rest)
        | none => (.ok (if sw.skipUnsetEnv then "$" ++ name else ""), rest)
    else
      let input := input.tail
      match input with
      | [] => (.error "syntax error: missing '\x7d'", [])
      | c :: cs =>
        if c = '\x7b' ∨ c = '\x7d' ∨ c = ':' then (.error "syntax error: bad substitution", c :: cs)
        else
          let (name, rest) := processName isLetter isDigit (c :: cs)
          match rest with
          | '\x7d' :: rest =>
            match sw.getEnv name with
            | some value => (.ok value, rest)
            | none =>
              (.ok (if sw.skipUnsetEnv then "$\x7b" ++ name ++ "\x7d" else ""), rest)
          | ':' :: rest =>
            -- `${name:<modifier>word}`: the default word is read up to the closing brace
            match processStopOnLoop sw (some '\x7d') fuel rest.tail "" {} with
            | (.ok (word, _), rest') => (modifierValue sw name rest.head? word, rest')
            | (.error e, rest') =>
              (.error (if rest' = [] then "syntax error: missing '\x7d'" else e), rest')
            | (.panic e, rest') => (.panic e, rest')
          | rest => (.error "missing ':' in substitution", rest.tail)

end

/-- `%q` of a string of printable characters: in double quotes, with quotes and backslashes
escaped. -/
def quote (s : String) : String :=
  "\"" ++ String.ofList (s.toList.flatMap fun c => if c = '"' ∨ c = '\\' then ['\\', c] else [c]) ++
    "\""

/-- `shellWord.process`: the word and its words, or the error, wrapped with the source. -/
def ShellWord.process (sw : ShellWord) (source : String) : Outcome (String × List String) :=
  match (processStopOnLoop isLetter isDigit sw none (2 * source.length + 1) source.toList "" {}).1
  with
  | .error e => .error ("failed to process " ++ quote source ++ ": " ++ e)
  | r => r

/-- `Lex.process`. -/
def Lex.process (s : Lex) (word : String) (env : Client.EnvList) : Outcome (String × List String) :=
  ShellWord.process isLetter isDigit ⟨env, s.escapeToken, s.rawQuotes, s.skipUnsetEnv⟩ word

/-- `BuildEnvs`: a key without `=` is set to the empty value each time, and one with it keeps
its first value. -/
def buildEnvs (env : List String) : Client.EnvList :=
  env.foldl (fun envs e =>
    match cut e "=" with
    | none => envs.addOrReplace e ""
    | some (k, v) => if (envs.get k).isSome then envs else envs.addOrReplace k v) []

/-- `Lex.ProcessWord`. -/
def Lex.processWord (s : Lex) (word : String) (env : List String) : Outcome String :=
  (·.1) <$> s.process isLetter isDigit word (buildEnvs env)

/-- `Lex.ProcessWords`. -/
def Lex.processWords (s : Lex) (word : String) (env : List String) : Outcome (List String) :=
  (·.2) <$> s.process isLetter isDigit word (buildEnvs env)

/-- `Lex.ProcessWordWithMap`. -/
def Lex.processWordWithMap (s : Lex) (word : String) (env : Client.EnvList) : Outcome String :=
  (·.1) <$> s.process isLetter isDigit word env

/-- `Lex.ProcessWordsWithMap`. -/
def Lex.processWordsWithMap (s : Lex) (word : String) (env : Client.EnvList) :
    Outcome (List String) :=
  (·.2) <$> s.process isLetter isDigit word env

end Expander

/-! ## The environment of `BuildEnvs`

A key without `=` is set to the empty value by each entry of it, and a key with `=` only by its
first entry: the value of a key is the empty one if an entry is the key alone, whatever comes
before it, and else that of its first entry. -/

/-- `TestGetEnv` takes the first value of a key, as the comment of `BuildEnvs` says it keeps
it; an entry that is the key alone, after it, sets it to the empty value. -/
theorem buildEnvs_bare_key_overrides_first :
    cut "car=hat" "=" = some ("car", "hat") ∧ (buildEnvs ["car=hat", "car"]).get "car" = some "" := by
  decide

/-! ## The steps of the scanner

One equation for each shape of the input at each loop, so that the proofs below never unfold a
loop. -/

section Steps

variable {isLetter isDigit : Char → Bool} {sw : ShellWord} {stopChar : Option Char} {fuel : Nat}
  {result : String} {words : WordsStruct}

-- every step lemma rewrites with the equations of the two loops, which are made here once
attribute [local simp] processStopOnLoop doubleQuoteLoop

theorem processStopOnLoop_nil :
    processStopOnLoop isLetter isDigit sw stopChar (fuel + 1) [] result words =
      (stopAtEnd stopChar result words, []) := rfl

theorem processStopOnLoop_stop {ch : Char} {cs : List Char} (hstop : stopChar = some ch) :
    processStopOnLoop isLetter isDigit sw stopChar (fuel + 1) (ch :: cs) result words =
      (.ok (result, words.getWords), cs) := by
  simp only [processStopOnLoop, if_pos hstop]

theorem processStopOnLoop_singleQuote {cs : List Char} (hstop : stopChar ≠ some '\'') :
    processStopOnLoop isLetter isDigit sw stopChar (fuel + 1) ('\'' :: cs) result words =
      Outcome.bindWith (processSingleQuote sw ('\'' :: cs)) fun tmp rest =>
        processStopOnLoop isLetter isDigit sw stopChar fuel rest (result ++ tmp)
          (words.addRawString tmp) := by
  simp only [processStopOnLoop, if_neg hstop, if_true]

theorem processStopOnLoop_doubleQuote {cs : List Char} (hstop : stopChar ≠ some '"') :
    processStopOnLoop isLetter isDigit sw stopChar (fuel + 1) ('"' :: cs) result words =
      Outcome.bindWith (processDoubleQuote isLetter isDigit sw fuel ('"' :: cs)) fun tmp rest =>
        processStopOnLoop isLetter isDigit sw stopChar fuel rest (result ++ tmp)
          (words.addRawString tmp) := by
  simp only [processStopOnLoop, if_neg hstop, if_true]
  rfl

theorem processStopOnLoop_dollar {cs : List Char} (hstop : stopChar ≠ some '$') :
    processStopOnLoop isLetter isDigit sw stopChar (fuel + 1) ('$' :: cs) result words =
      Outcome.bindWith (processDollar isLetter isDigit sw fuel ('$' :: cs)) fun tmp rest =>
        processStopOnLoop isLetter isDigit sw stopChar fuel rest (result ++ tmp)
          (words.addString tmp) := by
  simp only [processStopOnLoop, if_neg hstop, if_true]
  rfl

/-- The characters `processStopOn` takes as they are. -/
def Literal (sw : ShellWord) (ch : Char) : Prop :=
  ch ≠ '\'' ∧ ch ≠ '"' ∧ ch ≠ '$' ∧ ch ≠ sw.escapeToken

theorem processStopOnLoop_char {ch : Char} {cs : List Char} (hstop : stopChar ≠ some ch)
    (hch : Literal sw ch) :
    processStopOnLoop isLetter isDigit sw stopChar (fuel + 1) (ch :: cs) result words =
      processStopOnLoop isLetter isDigit sw stopChar fuel cs (result.push ch) (words.addChar ch) := by
  obtain ⟨h₁, h₂, h₃, h₄⟩ := hch
  simp only [processStopOnLoop, if_neg hstop, if_neg h₁, if_neg h₂, if_neg h₃, if_neg h₄]

theorem processStopOnLoop_escape {c : Char} {cs : List Char}
    (hstop : stopChar ≠ some sw.escapeToken) (hesc : sw.escapeToken ≠ '\'' ∧
      sw.escapeToken ≠ '"' ∧ sw.escapeToken ≠ '$') :
    processStopOnLoop isLetter isDigit sw stopChar (fuel + 1) (sw.escapeToken :: c :: cs) result
        words =
      processStopOnLoop isLetter isDigit sw stopChar fuel cs (result.push c) (words.addRawChar c) := by
  obtain ⟨h₁, h₂, h₃⟩ := hesc
  simp only [processStopOnLoop, if_neg hstop, if_neg h₁, if_neg h₂, if_neg h₃, if_true]

theorem processStopOnLoop_escape_nil (hstop : stopChar ≠ some sw.escapeToken)
    (hesc : sw.escapeToken ≠ '\'' ∧ sw.escapeToken ≠ '"' ∧ sw.escapeToken ≠ '$') :
    processStopOnLoop isLetter isDigit sw stopChar (fuel + 1) [sw.escapeToken] result words =
      (stopAtEnd stopChar result words, []) := by
  obtain ⟨h₁, h₂, h₃⟩ := hesc
  simp only [processStopOnLoop, if_neg hstop, if_neg h₁, if_neg h₂, if_neg h₃, if_true]

theorem doubleQuoteLoop_close {cs : List Char} :
    doubleQuoteLoop isLetter isDigit sw (fuel + 1) ('"' :: cs) result =
      (.ok (if sw.rawQuotes then result.push '"' else result), cs) := by
  simp only [doubleQuoteLoop, if_true]

theorem doubleQuoteLoop_char {ch : Char} {cs : List Char} (h₁ : ch ≠ '"') (h₂ : ch ≠ '$')
    (h₃ : ch ≠ sw.escapeToken) :
    doubleQuoteLoop isLetter isDigit sw (fuel + 1) (ch :: cs) result =
      doubleQuoteLoop isLetter isDigit sw fuel cs (result.push ch) := by
  simp only [doubleQuoteLoop, if_neg h₁, if_neg h₂, if_neg h₃]

theorem doubleQuoteLoop_dollar {cs : List Char} :
    doubleQuoteLoop isLetter isDigit sw (fuel + 1) ('$' :: cs) result =
      Outcome.bindWith (processDollar isLetter isDigit sw fuel ('$' :: cs)) fun value rest =>
        doubleQuoteLoop isLetter isDigit sw fuel rest (result ++ value) := by
  simp only [doubleQuoteLoop]
  rfl

theorem doubleQuoteLoop_escape_nil (hesc : sw.escapeToken ≠ '"' ∧ sw.escapeToken ≠ '$') :
    doubleQuoteLoop isLetter isDigit sw (fuel + 1) [sw.escapeToken] result =
      doubleQuoteLoop isLetter isDigit sw fuel [] result := by
  obtain ⟨h₁, h₂⟩ := hesc
  simp only [doubleQuoteLoop, if_neg h₁, if_neg h₂, if_true]

/-- An escape token before another character stays. -/
theorem doubleQuoteLoop_escape_other {c : Char} {cs : List Char}
    (hesc : sw.escapeToken ≠ '"' ∧ sw.escapeToken ≠ '$')
    (hc : ¬(c = '"' ∨ c = '$' ∨ c = sw.escapeToken)) :
    doubleQuoteLoop isLetter isDigit sw (fuel + 1) (sw.escapeToken :: c :: cs) result =
      doubleQuoteLoop isLetter isDigit sw fuel (c :: cs) (result.push sw.escapeToken) := by
  obtain ⟨h₁, h₂⟩ := hesc
  simp only [doubleQuoteLoop, if_neg h₁, if_neg h₂, if_true, if_neg hc]

/-- An escape token before `"`, `$` or itself is dropped. -/
theorem doubleQuoteLoop_escape {c : Char} {cs : List Char}
    (hesc : sw.escapeToken ≠ '"' ∧ sw.escapeToken ≠ '$')
    (hc : c = '"' ∨ c = '$' ∨ c = sw.escapeToken) :
    doubleQuoteLoop isLetter isDigit sw (fuel + 1) (sw.escapeToken :: c :: cs) result =
      doubleQuoteLoop isLetter isDigit sw fuel cs (result.push c) := by
  obtain ⟨h₁, h₂⟩ := hesc
  simp only [doubleQuoteLoop, if_neg h₁, if_neg h₂, if_true, if_pos hc]

theorem singleQuoteLoop_append {s : List Char} (hs : '\'' ∉ s) (raw : Bool) (rest : List Char) :
    ∀ result : String, singleQuoteLoop raw (s ++ '\'' :: rest) result =
      (.ok (if raw then (result ++ String.ofList s).push '\'' else result ++ String.ofList s), rest) := by
  induction s with
  | nil => intro result; simp [singleQuoteLoop]
  | cons c s ih =>
    intro result
    have hc : c ≠ '\'' := fun h => hs (h ▸ List.mem_cons_self)
    rw [List.cons_append, singleQuoteLoop, if_neg hc, ih (fun h => hs (List.mem_cons_of_mem c h))]
    have hpush : result.push c ++ String.ofList s = result ++ String.ofList (c :: s) :=
      String.ext (by simp)
    rw [hpush]

end Steps

/-! ## The scanner only moves forward

Each function leaves a suffix of its input: what a caller reads after a call it has read
before the call. -/

section Forward

variable {isLetter isDigit : Char → Bool} {sw : ShellWord}

theorem readDigits_suffix : ∀ (l : List Char) (name : String), (readDigits isDigit l name).2 <:+ l
  | [], _ => List.suffix_refl _
  | ch :: cs, name => by
    rw [readDigits]
    split
    · exact (readDigits_suffix cs _).trans (List.suffix_cons ch cs)
    · exact List.suffix_refl _

theorem processNameLoop_suffix :
    ∀ (l : List Char) (name : String), (processNameLoop isLetter isDigit l name).2 <:+ l
  | [], _ => List.suffix_refl _
  | ch :: cs, name => by
    rw [processNameLoop]
    split
    · exact readDigits_suffix _ _
    · split
      · exact List.suffix_cons ch cs
      · split
        · exact List.suffix_refl _
        · exact (processNameLoop_suffix cs _).trans (List.suffix_cons ch cs)

theorem singleQuoteLoop_suffix (raw : Bool) :
    ∀ (l : List Char) (result : String), (singleQuoteLoop raw l result).2 <:+ l
  | [], _ => List.suffix_refl _
  | ch :: cs, result => by
    rw [singleQuoteLoop]
    split
    · exact List.suffix_cons ch cs
    · exact (singleQuoteLoop_suffix raw cs _).trans (List.suffix_cons ch cs)

theorem processSingleQuote_suffix (input : List Char) : (processSingleQuote sw input).2 <:+ input := by
  cases input with
  | nil => exact List.suffix_refl _
  | cons ch cs => exact (singleQuoteLoop_suffix _ cs _).trans (List.suffix_cons ch cs)

/-- At one fuel, the functions that call one another each leave a suffix of their input. -/
structure Forward (isLetter isDigit : Char → Bool) (sw : ShellWord) (fuel : Nat) : Prop where
  stopOn : ∀ stopChar input result words,
    (processStopOnLoop isLetter isDigit sw stopChar fuel input result words).2 <:+ input
  quoteLoop : ∀ input result, (doubleQuoteLoop isLetter isDigit sw fuel input result).2 <:+ input
  doubleQuote : ∀ input, (processDoubleQuote isLetter isDigit sw fuel input).2 <:+ input
  dollar : ∀ input, (processDollar isLetter isDigit sw fuel input).2 <:+ input

theorem forward_zero : Forward isLetter isDigit sw 0 where
  stopOn _ _ _ _ := List.suffix_refl _
  quoteLoop _ _ := List.suffix_refl _
  doubleQuote _ := List.suffix_refl _
  dollar _ := List.suffix_refl _

variable {fuel : Nat}

theorem Forward.stopOn_succ (h : Forward isLetter isDigit sw fuel) (stopChar : Option Char)
    (input : List Char) (result : String) (words : WordsStruct) :
    (processStopOnLoop isLetter isDigit sw stopChar (fuel + 1) input result words).2 <:+ input := by
  -- a call at the first character leaves a suffix, and so does the loop after it
  have hcall : ∀ (r : Outcome String × List Char) (f : String → List Char → String × WordsStruct),
      r.2 <:+ input → (Outcome.bindWith r fun tmp rest => processStopOnLoop isLetter isDigit sw
        stopChar fuel rest (f tmp rest).1 (f tmp rest).2).2 <:+ input := fun r f hr =>
    Outcome.bindWith_state (· <:+ input) hr fun _ _ hs =>
      (h.stopOn _ _ _ _).trans (by rw [hs] at hr; exact hr)
  match input with
  | [] => exact List.suffix_refl _
  | ch :: cs =>
    have hcs : cs <:+ ch :: cs := List.suffix_cons ch cs
    by_cases hstop : stopChar = some ch
    · rw [processStopOnLoop_stop hstop]
      exact hcs
    by_cases h₁ : ch = '\''
    · subst h₁
      rw [processStopOnLoop_singleQuote hstop]
      exact hcall _ (fun tmp _ => (result ++ tmp, words.addRawString tmp)) (processSingleQuote_suffix _)
    by_cases h₂ : ch = '"'
    · subst h₂
      rw [processStopOnLoop_doubleQuote hstop]
      exact hcall _ (fun tmp _ => (result ++ tmp, words.addRawString tmp)) (h.doubleQuote _)
    by_cases h₃ : ch = '$'
    · subst h₃
      rw [processStopOnLoop_dollar hstop]
      exact hcall _ (fun tmp _ => (result ++ tmp, words.addString tmp)) (h.dollar _)
    by_cases h₄ : ch = sw.escapeToken
    · subst h₄
      cases cs with
      | nil =>
        rw [processStopOnLoop_escape_nil hstop ⟨h₁, h₂, h₃⟩]
        exact List.nil_suffix
      | cons c cs =>
        rw [processStopOnLoop_escape hstop ⟨h₁, h₂, h₃⟩]
        exact (h.stopOn _ _ _ _).trans ((List.suffix_cons c cs).trans hcs)
    · rw [processStopOnLoop_char hstop ⟨h₁, h₂, h₃, h₄⟩]
      exact (h.stopOn _ _ _ _).trans hcs

theorem Forward.quoteLoop_succ (h : Forward isLetter isDigit sw fuel) (input : List Char)
    (result : String) :
    (doubleQuoteLoop isLetter isDigit sw (fuel + 1) input result).2 <:+ input := by
  match input with
  | [] => exact List.suffix_refl _
  | ch :: cs =>
    have hcs : cs <:+ ch :: cs := List.suffix_cons ch cs
    by_cases h₁ : ch = '"'
    · subst h₁
      rw [doubleQuoteLoop_close]
      exact hcs
    by_cases h₂ : ch = '$'
    · subst h₂
      rw [doubleQuoteLoop_dollar]
      exact Outcome.bindWith_state (· <:+ '$' :: cs) (h.dollar _) fun _ _ hs =>
        (h.quoteLoop _ _).trans (by have := h.dollar ('$' :: cs); rw [hs] at this; exact this)
    by_cases h₃ : ch = sw.escapeToken
    · subst h₃
      cases cs with
      | nil =>
        rw [doubleQuoteLoop_escape_nil ⟨h₁, h₂⟩]
        exact (h.quoteLoop _ _).trans List.nil_suffix
      | cons c cs =>
        by_cases hc : c = '"' ∨ c = '$' ∨ c = sw.escapeToken
        · rw [doubleQuoteLoop_escape ⟨h₁, h₂⟩ hc]
          exact (h.quoteLoop _ _).trans ((List.suffix_cons c cs).trans hcs)
        · rw [doubleQuoteLoop_escape_other ⟨h₁, h₂⟩ hc]
          exact (h.quoteLoop _ _).trans hcs
    · rw [doubleQuoteLoop_char h₁ h₂ h₃]
      exact (h.quoteLoop _ _).trans hcs

/-- `processDoubleQuote` takes the opening quote first. -/
theorem Forward.doubleQuote_tail (h : Forward isLetter isDigit sw fuel) (input : List Char) :
    (processDoubleQuote isLetter isDigit sw (fuel + 1) input).2 <:+ input.tail := by
  cases input with
  | nil => exact h.quoteLoop _ _
  | cons ch cs => exact h.quoteLoop _ _

theorem processName_suffix (input : List Char) : (processName isLetter isDigit input).2 <:+ input :=
  processNameLoop_suffix input ""

/-- `processDollar` takes the `$` first. -/
theorem Forward.dollar_tail (h : Forward isLetter isDigit sw fuel) (input : List Char) :
    (processDollar isLetter isDigit sw (fuel + 1) input).2 <:+ input.tail := by
  simp only [processDollar]
  split
  · -- `$name`: the name is read from the input after the `$`
    have hn := @processName_suffix isLetter isDigit input.tail
    split
    · exact hn
    · split <;> exact hn
  · -- `${`: everything is read after the brace
    have hbrace : input.tail.tail <:+ input.tail := List.tail_suffix _
    split
    · exact List.nil_suffix
    · next c cs heq =>
      rw [heq] at hbrace
      split
      · exact hbrace
      · have hn := (@processName_suffix isLetter isDigit (c :: cs)).trans
          hbrace
        split
        · next rest hrest =>
          rw [hrest] at hn
          have hr := (List.suffix_cons _ rest).trans hn
          split <;> exact hr
        · next rest hrest =>
          rw [hrest] at hn
          have hr := (h.stopOn (some '\x7d') rest.tail "" {}).trans
            ((List.tail_suffix rest).trans ((List.suffix_cons _ rest).trans hn))
          split <;> next heq => rw [heq] at hr; exact hr
        · exact (List.tail_suffix _).trans hn

theorem Forward.succ (h : Forward isLetter isDigit sw fuel) : Forward isLetter isDigit sw (fuel + 1) :=
  ⟨h.stopOn_succ, h.quoteLoop_succ, fun input => (h.doubleQuote_tail input).trans
    (List.tail_suffix input), fun input => (h.dollar_tail input).trans (List.tail_suffix input)⟩

theorem forward : ∀ fuel, Forward isLetter isDigit sw fuel
  | 0 => forward_zero
  | fuel + 1 => (forward fuel).succ

end Forward

/-! ## Enough fuel

`process` never runs out of fuel. Each round of a loop and each call reads a character or
calls a function that does, so that a function needs two units of fuel for each character it
reads and one; `processDoubleQuote` and `processDollar`, which read the character they are
called at, one unit less. -/

section Fuel

variable {isLetter isDigit : Char → Bool} {sw : ShellWord}

variable {fuel : Nat}

end Fuel

/-! ## Quoting undone

The three ways to quote a string that the expander undoes: each character behind the escape
token, single quotes, and double quotes with `"`, `$` and the escape token escaped. -/

/-- `s` with each character behind the escape token. -/
def escapeAll (esc : Char) (s : String) : String :=
  String.ofList (s.toList.flatMap fun c => [esc, c])

/-- `s` between single quotes. -/
def singleQuoted (s : String) : String := "'" ++ s ++ "'"

/-- The characters of a double-quoted string, with `"`, `$` and the escape token behind the
escape token. -/
def escapeDouble (esc : Char) (s : List Char) : List Char :=
  s.flatMap fun c => if c = '"' ∨ c = '$' ∨ c = esc then [esc, c] else [c]

/-- `s` between double quotes. -/
def doubleQuoted (esc : Char) (s : String) : String :=
  "\"" ++ String.ofList (escapeDouble esc s.toList) ++ "\""

theorem push_append_ofList (result : String) (c : Char) (s : List Char) :
    result.push c ++ String.ofList s = result ++ String.ofList (c :: s) :=
  String.ext (by simp)

namespace WordsStruct

theorem word_foldl_addRawChar (l : List Char) :
    ∀ w : WordsStruct, (l.foldl addRawChar w).word = w.word ++ String.ofList l := by
  induction l with
  | nil => simp
  | cons c l ih =>
    intro w
    rw [List.foldl_cons, ih, addRawChar, push_append_ofList]

theorem words_foldl_addRawChar (l : List Char) :
    ∀ w : WordsStruct, (l.foldl addRawChar w).words = w.words := by
  induction l with
  | nil => simp
  | cons c l ih =>
    intro w
    rw [List.foldl_cons, ih]
    rfl

/-- With no word ended yet, the words are the current word, if there is one. -/
theorem getWords_of_words_nil {w : WordsStruct} (h : w.words = []) :
    w.getWords = if w.word = "" then [] else [w.word] := by
  by_cases hw : w.word = "" <;> simp [getWords, h, hw]

theorem getWords_foldl_addRawChar (s : String) :
    (s.toList.foldl addRawChar {}).getWords = if s = "" then [] else [s] := by
  rw [getWords_of_words_nil (words_foldl_addRawChar s.toList {}), word_foldl_addRawChar]
  simp

theorem getWords_addRawString (s : String) :
    (({} : WordsStruct).addRawString s).getWords = if s = "" then [] else [s] := by
  rw [getWords_of_words_nil rfl]
  simp [addRawString]

end WordsStruct

section RoundTrips

variable {isLetter isDigit : Char → Bool} {sw : ShellWord} {stopChar : Option Char}

/-- The escape token is none of the characters `processStopOn` treats otherwise. -/
def EscapeOk (esc : Char) : Prop := esc ≠ '\'' ∧ esc ≠ '"' ∧ esc ≠ '$'

theorem escapeOk_of_eq {esc : Char} (hesc : esc = '\\' ∨ esc = '\x60') : EscapeOk esc := by
  rcases hesc with rfl | rfl <;> unfold EscapeOk <;> decide

/-- Each escaped character is added to the result and to the word as it is. -/
theorem processStopOnLoop_escapeAll (hstop : stopChar ≠ some sw.escapeToken)
    (hesc : EscapeOk sw.escapeToken) (rest : List Char) :
    ∀ (s : List Char) (fuel : Nat) (result : String) (words : WordsStruct),
      processStopOnLoop isLetter isDigit sw stopChar (fuel + s.length)
          (s.flatMap (fun c => [sw.escapeToken, c]) ++ rest) result words =
        processStopOnLoop isLetter isDigit sw stopChar fuel rest (result ++ String.ofList s)
          (s.foldl WordsStruct.addRawChar words)
  | [], fuel, result, words => by simp
  | c :: s, fuel, result, words => by
    rw [List.length_cons, ← Nat.add_assoc, List.flatMap_cons, List.append_assoc, List.cons_append,
      List.singleton_append, processStopOnLoop_escape hstop hesc, processStopOnLoop_escapeAll hstop hesc,
      push_append_ofList, List.foldl_cons]

/-- The escaped characters of a double-quoted string are read back, up to its closing quote. -/
theorem doubleQuoteLoop_escapeDouble (hesc : EscapeOk sw.escapeToken) (hraw : sw.rawQuotes = false)
    (rest : List Char) :
    ∀ (s : List Char) (fuel : Nat) (result : String),
      doubleQuoteLoop isLetter isDigit sw (fuel + s.length + 1)
          (escapeDouble sw.escapeToken s ++ '"' :: rest) result =
        (.ok (result ++ String.ofList s), rest)
  | [], fuel, result => by simp [escapeDouble, doubleQuoteLoop_close, hraw]
  | c :: s, fuel, result => by
    have hstep : fuel + (c :: s).length + 1 = (fuel + s.length + 1) + 1 := by simp; omega
    rw [hstep, ← push_append_ofList, ← doubleQuoteLoop_escapeDouble hesc hraw rest s fuel]
    by_cases hc : c = '"' ∨ c = '$' ∨ c = sw.escapeToken
    · have henc : escapeDouble sw.escapeToken (c :: s) =
          sw.escapeToken :: c :: escapeDouble sw.escapeToken s := by simp [escapeDouble, hc]
      rw [henc, List.cons_append, List.cons_append,
        doubleQuoteLoop_escape ⟨hesc.2.1, hesc.2.2⟩ hc]
    · have henc : escapeDouble sw.escapeToken (c :: s) = c :: escapeDouble sw.escapeToken s := by
        simp [escapeDouble, hc]
      simp only [not_or] at hc
      rw [henc, List.cons_append, doubleQuoteLoop_char hc.1 hc.2.1 hc.2.2]

theorem length_escapeAll (esc : Char) (s : String) : (escapeAll esc s).length = 2 * s.length := by
  rw [escapeAll, String.length_ofList, String.length]
  induction s.toList with
  | nil => rfl
  | cons c l ih =>
    rw [List.flatMap_cons, List.length_append, ih]
    simp only [List.length_cons, List.length_nil]
    omega

/-- Fully escaped, a string is its own result, and its one word if it is not empty. -/
theorem process_escapeAll (hesc : EscapeOk sw.escapeToken) (s : String) :
    ShellWord.process isLetter isDigit sw (escapeAll sw.escapeToken s) =
      .ok (s, if s = "" then [] else [s]) := by
  have hfuel : 2 * (escapeAll sw.escapeToken s).length + 1 = (3 * s.length + 1) + s.toList.length := by
    rw [length_escapeAll, String.length]
    omega
  have hrun := @processStopOnLoop_escapeAll isLetter isDigit sw none
    (by simp) hesc [] s.toList (3 * s.length + 1) "" {}
  rw [List.append_nil] at hrun
  rw [ShellWord.process, hfuel, escapeAll, String.toList_ofList, hrun, processStopOnLoop_nil]
  simp [stopAtEnd, WordsStruct.getWords_foldl_addRawChar]

/-- Between single quotes, a string without one is its own result, and its one word if it is
not empty. -/
theorem process_singleQuoted (hraw : sw.rawQuotes = false) {s : String} (hs : '\'' ∉ s.toList) :
    ShellWord.process isLetter isDigit sw (singleQuoted s) = .ok (s, if s = "" then [] else [s]) := by
  have hfuel : 2 * (singleQuoted s).length + 1 = (2 * s.length + 3) + 1 + 1 := by
    simp only [singleQuoted, String.length_append]
    have : "'".length = 1 := rfl
    omega
  have hlist : (singleQuoted s).toList = '\'' :: (s.toList ++ ['\'']) := by simp [singleQuoted]
  rw [ShellWord.process, hfuel, hlist, processStopOnLoop_singleQuote (by simp)]
  simp only [processSingleQuote, hraw, Bool.false_eq_true, if_false, singleQuoteLoop_append hs,
    Outcome.bindWith_ok, processStopOnLoop_nil, stopAtEnd, String.empty_append, String.ofList_toList,
    WordsStruct.getWords_addRawString]

theorem length_le_escapeDouble (esc : Char) (s : List Char) :
    s.length ≤ (escapeDouble esc s).length := by
  induction s with
  | nil => simp [escapeDouble]
  | cons c s ih =>
    have hc : (escapeDouble esc (c :: s)).length =
        (if c = '"' ∨ c = '$' ∨ c = esc then 2 else 1) + (escapeDouble esc s).length := by
      simp only [escapeDouble, List.flatMap_cons, List.length_append]
      split <;> rfl
    rw [hc, List.length_cons]
    split <;> omega

/-- Between double quotes, a string with `"`, `$` and the escape token escaped is its own
result, and its one word if it is not empty. -/
theorem process_doubleQuoted (hesc : EscapeOk sw.escapeToken) (hraw : sw.rawQuotes = false)
    (s : String) :
    ShellWord.process isLetter isDigit sw (doubleQuoted sw.escapeToken s) =
      .ok (s, if s = "" then [] else [s]) := by
  have hfuel : 2 * (doubleQuoted sw.escapeToken s).length + 1 =
      (2 * (escapeDouble sw.escapeToken s.toList).length + 3) + 1 + 1 := by
    simp only [doubleQuoted, String.length_append, String.length_ofList]
    have : "\"".length = 1 := rfl
    omega
  -- the loop inside the quotes takes one round for each character of `s`, and one to close
  obtain ⟨k, hk⟩ : ∃ k, 2 * (escapeDouble sw.escapeToken s.toList).length + 4 =
      k + s.toList.length + 1 + 1 :=
    ⟨2 * (escapeDouble sw.escapeToken s.toList).length + 2 - s.toList.length, by
      have := length_le_escapeDouble sw.escapeToken s.toList; omega⟩
  have hlist : (doubleQuoted sw.escapeToken s).toList =
      '"' :: (escapeDouble sw.escapeToken s.toList ++ ['"']) := by simp [doubleQuoted]
  have hquote : processDoubleQuote isLetter isDigit sw (k + s.toList.length + 1 + 1)
      ('"' :: (escapeDouble sw.escapeToken s.toList ++ ['"'])) =
        (.ok ("" ++ String.ofList s.toList), []) := by
    simp only [processDoubleQuote, hraw, Bool.false_eq_true, if_false]
    exact doubleQuoteLoop_escapeDouble hesc hraw [] s.toList k ""
  rw [ShellWord.process, hfuel, hlist, processStopOnLoop_doubleQuote (by simp), hk, hquote,
    Outcome.bindWith_ok, processStopOnLoop_nil]
  simp [stopAtEnd, WordsStruct.getWords_addRawString]

end RoundTrips

/-! ## The words of an expansion

Outside quotes and escapes, the words are made by `addChar` and `addString` alone, from the
same characters that make the result: they are the fields of the result. The invariant
`Splits` says so of whatever is added to both from here on, so that each step of the loop keeps
it by the associativity of the two appends. -/

/-- `strings.Fields`: the words of a string between white space. -/
noncomputable def fields (s : String) : List String := (Split.words isSpace s.toList).map String.ofList

theorem fields_append (a : String) (l : List Char) {c : Char} (hc : isSpace c = true) :
    fields (a ++ String.ofList (c :: l)) = fields a ++ fields (String.ofList l) := by
  simp only [fields, String.toList_append, String.toList_ofList]
  rw [Split.words_append_sep _ _ hc, List.map_append]

theorem fields_of_noSpace {a : String} (h : ∀ c ∈ a.toList, isSpace c = false) :
    fields a = if a = "" then [] else [a] := by
  rw [fields, Split.words_of_forall h]
  by_cases ha : a = "" <;> simp [ha]

namespace WordsStruct

/-- An accumulator that only `addChar` has written: in a word just when it holds one, and with
no white space in it. -/
structure Plain (w : WordsStruct) : Prop where
  inWord_iff : w.inWord = true ↔ w.word ≠ ""
  noSpace : ∀ c ∈ w.word.toList, isSpace c = false

theorem Plain.addRawChar {w : WordsStruct} (hw : w.Plain) {c : Char} (hc : isSpace c = false) :
    (w.addRawChar c).Plain where
  inWord_iff := by simp [WordsStruct.addRawChar]
  noSpace := by
    simp only [WordsStruct.addRawChar, String.toList_push, List.mem_append, List.mem_singleton]
    rintro x (hx | rfl)
    · exact hw.noSpace x hx
    · exact hc

/-- From a plain accumulator, `addChar` ends the words where `strings.Fields` does. -/
theorem getWords_foldl_addChar : ∀ (l : List Char) (w : WordsStruct), w.Plain →
    (l.foldl addChar w).getWords = w.words ++ fields (w.word ++ String.ofList l)
  | [], w, hw => by
    rw [List.foldl_nil, String.ofList_nil, String.append_empty, fields_of_noSpace hw.noSpace]
    by_cases h : w.word = "" <;> simp [getWords, h]
  | c :: l, w, hw => by
    rw [List.foldl_cons]
    cases hc : isSpace c with
    | true =>
      by_cases hin : w.inWord = true
      · -- a space ends the word
        have hword : w.word ≠ "" := hw.inWord_iff.mp hin
        have hstep : w.addChar c = ⟨"", w.words ++ [w.word], false⟩ := by
          simp [addChar, hc, hin, hword]
        rw [hstep, getWords_foldl_addChar l _ ⟨by simp, by simp⟩, fields_append _ _ hc,
          fields_of_noSpace hw.noSpace, if_neg hword]
        simp
      · -- a space outside a word is dropped
        have hword : w.word = "" := by
          by_contra h
          exact hin (hw.inWord_iff.mpr h)
        have hstep : w.addChar c = w := by simp [addChar, hc, hin]
        rw [hstep, getWords_foldl_addChar l w hw, hword, fields_append _ _ hc,
          fields_of_noSpace (a := "") (by simp)]
        simp
    | false =>
      have hstep : w.addChar c = w.addRawChar c := by simp [addChar, hc]
      rw [hstep, getWords_foldl_addChar l _ (hw.addRawChar hc), ← push_append_ofList]
      rfl

/-- The words `w` returns are the fields of `result`, whatever is added to both from here on. -/
def Splits (result : String) (w : WordsStruct) : Prop :=
  ∀ t : List Char, (t.foldl addChar w).getWords = fields (result ++ String.ofList t)

theorem splits_empty : Splits "" {} := fun t => by
  rw [getWords_foldl_addChar t {} ⟨by simp, by simp⟩]
  simp

theorem Splits.addChar {result : String} {w : WordsStruct} (h : Splits result w) (c : Char) :
    Splits (result.push c) (w.addChar c) := fun t => by
  rw [push_append_ofList, ← h (c :: t), List.foldl_cons]

theorem Splits.addString {result : String} {w : WordsStruct} (h : Splits result w) (u : String) :
    Splits (result ++ u) (w.addString u) := fun t => by
  have hu : result ++ u ++ String.ofList t = result ++ String.ofList (u.toList ++ t) :=
    String.ext (by simp)
  rw [hu, ← h (u.toList ++ t), List.foldl_append, WordsStruct.addString]

theorem Splits.getWords {result : String} {w : WordsStruct} (h : Splits result w) :
    w.getWords = fields result := by
  simpa using h []

end WordsStruct

section Words

variable {isLetter isDigit : Char → Bool} {sw : ShellWord}

/-- Outside quotes and escapes, each result of the loop has the fields of its result as words. -/
theorem processStopOnLoop_splits : ∀ (fuel : Nat) (input : List Char) (result : String)
    (words : WordsStruct), (∀ c ∈ input, c ≠ '\'' ∧ c ≠ '"' ∧ c ≠ sw.escapeToken) →
    words.Splits result → ∀ r ws,
      (processStopOnLoop isLetter isDigit sw none fuel input result words).1 = .ok (r, ws) →
      ws = fields r
  | 0, _, _, _, _, _, _, _, h => by cases h
  | fuel + 1, [], result, words, _, hs, r, ws, h => by
    rw [processStopOnLoop_nil] at h
    simp only [stopAtEnd, Outcome.ok.injEq, Prod.mk.injEq] at h
    obtain ⟨rfl, rfl⟩ := h
    exact hs.getWords
  | fuel + 1, ch :: cs, result, words, hin, hs, r, ws, h => by
    obtain ⟨h₁, h₂, h₄⟩ := hin ch List.mem_cons_self
    by_cases h₃ : ch = '$'
    · -- a value: added to the words by `addString`, and the loop goes on where it stopped
      subst h₃
      rw [processStopOnLoop_dollar (by simp)] at h
      obtain ⟨tmp, rest, hcall, hloop⟩ := Outcome.bindWith_fst_eq_ok h
      have hrest : rest <:+ '$' :: cs := by
        have := (@forward isLetter isDigit sw fuel).dollar
          ('$' :: cs)
        rwa [hcall] at this
      exact processStopOnLoop_splits fuel rest _ _ (fun c hc => hin c (hrest.subset hc))
        (hs.addString tmp) r ws hloop
    · rw [processStopOnLoop_char (by simp) ⟨h₁, h₂, h₃, h₄⟩] at h
      exact processStopOnLoop_splits fuel cs _ _ (fun c hc => hin c (List.mem_cons_of_mem ch hc))
        (hs.addChar ch) r ws h

theorem ShellWord.process_eq_ok {source : String} {p : String × List String}
    (h : ShellWord.process isLetter isDigit sw source = .ok p) :
    (processStopOnLoop isLetter isDigit sw none (2 * source.length + 1) source.toList "" {}).1 =
      .ok p := by
  rw [ShellWord.process] at h
  split at h
  · cases h
  · exact h

end Words

theorem processWord_quoting_roundTrip (isLetter isDigit : Char → Bool) (esc : Char)
    (hesc : esc = '\\' ∨ esc = '\x60') (s : String) (env : List String) :
    let lex : Lex := newLex esc
    let words : List String := if s = "" then [] else [s]
    (lex.processWord isLetter isDigit (escapeAll esc s) env = .ok s ∧
      lex.processWords isLetter isDigit (escapeAll esc s) env = .ok words) ∧
    ('\'' ∉ s.toList →
      lex.processWord isLetter isDigit (singleQuoted s) env = .ok s ∧
      lex.processWords isLetter isDigit (singleQuoted s) env = .ok words) ∧
    (lex.processWord isLetter isDigit (doubleQuoted esc s) env = .ok s ∧
      lex.processWords isLetter isDigit (doubleQuoted esc s) env = .ok words) := by
  intro lex words
  let sw : ShellWord := ⟨buildEnvs env, esc, false, false⟩
  -- `ProcessWord` and `ProcessWords` take the string and the words of one run of `process`
  have hproj : ∀ w, ShellWord.process isLetter isDigit sw w = .ok (s, words) →
      lex.processWord isLetter isDigit w env = .ok s ∧
        lex.processWords isLetter isDigit w env = .ok words := by
    intro w h
    have hrun : lex.process isLetter isDigit w (buildEnvs env) = .ok (s, words) := h
    simp only [Lex.processWord, Lex.processWords, hrun]
    exact ⟨rfl, rfl⟩
  have hok : EscapeOk sw.escapeToken := escapeOk_of_eq hesc
  exact ⟨hproj _ (process_escapeAll hok s), fun hs => hproj _ (process_singleQuoted rfl hs),
    hproj _ (process_doubleQuoted hok rfl s)⟩

theorem processWord_quoting_roundTrip_backslash :
    ('\\' = '\\' ∨ '\\' = '\x60') ∧
    let lex : Lex := newLex '\\'
    (lex.processWord Char.isAlpha Char.isDigit (escapeAll '\\' "a $b") [] = .ok "a $b" ∧
      lex.processWords Char.isAlpha Char.isDigit (escapeAll '\\' "a $b") [] = .ok ["a $b"]) ∧
    ('\'' ∉ "a $b".toList →
      lex.processWord Char.isAlpha Char.isDigit (singleQuoted "a $b") [] = .ok "a $b" ∧
      lex.processWords Char.isAlpha Char.isDigit (singleQuoted "a $b") [] = .ok ["a $b"]) ∧
    (lex.processWord Char.isAlpha Char.isDigit (doubleQuoted '\\' "a $b") [] = .ok "a $b" ∧
      lex.processWords Char.isAlpha Char.isDigit (doubleQuoted '\\' "a $b") [] = .ok ["a $b"]) :=
  ⟨.inl rfl, processWord_quoting_roundTrip Char.isAlpha Char.isDigit '\\' (.inl rfl) "a $b" []⟩

theorem processWordsWithMap_eq_fields (isLetter isDigit : Char → Bool) (lex : Lex) (w : String)
    (env : Client.EnvList) (hw : ∀ c ∈ w.toList, c ≠ '\'' ∧ c ≠ '"' ∧ c ≠ lex.escapeToken) :
    (lex.processWordWithMap isLetter isDigit w env).isOk =
        (lex.processWordsWithMap isLetter isDigit w env).isOk ∧
      ∀ r, lex.processWordWithMap isLetter isDigit w env = .ok r →
        lex.processWordsWithMap isLetter isDigit w env = .ok (fields r) := by
  -- both take the outcome of the one run of `process`
  simp only [Lex.processWordWithMap, Lex.processWordsWithMap]
  constructor
  · cases lex.process isLetter isDigit w env <;> rfl
  · intro r hr
    cases hp : lex.process isLetter isDigit w env with
    | ok p =>
      obtain ⟨r', ws⟩ := p
      rw [hp] at hr
      obtain rfl : r' = r := by cases hr; rfl
      have hrun := ShellWord.process_eq_ok hp
      rw [processStopOnLoop_splits _ _ _ _ hw WordsStruct.splits_empty r' ws hrun]
      rfl
    | error e => rw [hp] at hr; cases hr
    | panic e => rw [hp] at hr; cases hr

theorem processWordsWithMap_eq_fields_default :
    (∀ c ∈ "a$\x7bx:- b c\x7d".toList, c ≠ '\'' ∧ c ≠ '"' ∧ c ≠ (newLex '\\').escapeToken) ∧
    ((newLex '\\').processWordWithMap Char.isAlpha Char.isDigit "a$\x7bx:- b c\x7d" [("x", "")]).isOk =
        ((newLex '\\').processWordsWithMap Char.isAlpha Char.isDigit "a$\x7bx:- b c\x7d"
          [("x", "")]).isOk ∧
      ∀ r, (newLex '\\').processWordWithMap Char.isAlpha Char.isDigit "a$\x7bx:- b c\x7d" [("x", "")] =
          .ok r →
        (newLex '\\').processWordsWithMap Char.isAlpha Char.isDigit "a$\x7bx:- b c\x7d" [("x", "")] =
          .ok (fields r) :=
  have hw : ∀ c ∈ "a$\x7bx:- b c\x7d".toList, c ≠ '\'' ∧ c ≠ '"' ∧ c ≠ (newLex '\\').escapeToken := by
    simp [newLex]
  ⟨hw, processWordsWithMap_eq_fields Char.isAlpha Char.isDigit (newLex '\\') _ _ hw⟩

end Buildkit.Shell
