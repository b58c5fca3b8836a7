import Buildkit.Lib.Strings

/-!
# The builder flags of an instruction

`extractBuilderFlags` of `frontend/dockerfile/parser/split_command.go` reads the flags that start
the arguments of an instruction (`COPY --from=a --chown=1 src dst`): words that start with `--`,
in which quotes group and a backslash escapes, up to the first word that does not start with
`--` or a word `--` alone. The loop indexes the line by bytes and appends `string(rune(line[pos]))`
to the word it reads.

A character outside ASCII is read byte by byte: each byte is
turned into the character of its number and encoded again, so that `--é` comes back as `--Ã©`,
and the byte `0xA0` that ends the encoding of `à` counts as a space and splits the word
(`extractBuilderFlags_mangles_utf8`).

Representation. The line is the list of its bytes. The error of the source is always nil and is
left out; `splitCommand`, which splits the instruction's name off first, is not modelled.
-/

namespace Buildkit

namespace Parser

open Strings

/-- The phases of the loops of `extractBuilderFlags` and `parseWords`. -/
inductive Phase
  | inSpaces
  | inWord
  | inQuote
  deriving DecidableEq, Repr

/-- The variables of the loops of `extractBuilderFlags` and `parseWords`. -/
structure ScanState where
  phase : Phase
  word : String
  quote : Char
  blankOK : Bool
  words : List String
  deriving DecidableEq, Repr

/-- The words at the end of the input: a word being read is kept unless it is `--`, or empty and
not quoted. -/
def ScanState.finish (st : ScanState) : List String :=
  match st.phase with
  | .inSpaces => st.words
  | _ => if st.word ≠ "--" ∧ (st.blankOK ∨ st.word ≠ "") then st.words ++ [st.word] else st.words

/-- The loop of `extractBuilderFlags` over the bytes `line[pos:]` from the one at `pos`. -/
def extractLoop (st : ScanState) : List UInt8 → List UInt8 × List String
  | [] => ([], st.finish)
  | b :: rest =>
    let ch := runeOfByte b
    match st.phase with
    | .inSpaces =>
      if isSpace ch then extractLoop st rest
      -- only keep going if the next word starts with `--`
      else if ch ≠ '-' ∨ (rest.head?.map runeOfByte) ≠ some '-' then (b :: rest, st.words)
      -- the `-` falls through to the phase `inWord`, which adds it to the word
      else extractLoop { st with phase := .inWord, word := st.word.push ch } rest
    | .inWord =>
      if isSpace ch then
        if st.word = "--" then (b :: rest, st.words)
        else
          let words := if st.blankOK ∨ st.word ≠ "" then st.words ++ [st.word] else st.words
          extractLoop { st with phase := .inSpaces, word := "", blankOK := false, words } rest
      else if ch = '\'' ∨ ch = '"' then
        extractLoop { st with quote := ch, blankOK := true, phase := .inQuote } rest
      else if ch = '\\' then
        match rest with
        -- a `\` at the end is skipped
        | [] => ([], st.finish)
        | c :: rest => extractLoop { st with word := st.word.push (runeOfByte c) } rest
      else extractLoop { st with word := st.word.push ch } rest
    | .inQuote =>
      if ch = st.quote then extractLoop { st with phase := .inWord } rest
      else if ch = '\\' then
        match rest with
        | [] => ([], ScanState.finish { st with phase := .inWord })
        | c :: rest => extractLoop { st with word := st.word.push (runeOfByte c) } rest
      else extractLoop { st with word := st.word.push ch } rest

/-- `extractBuilderFlags`: the rest of the line after the builder flags, and the flags. Its error
is always nil and is left out. -/
def extractBuilderFlags (line : List UInt8) : List UInt8 × List String :=
  extractLoop ⟨.inSpaces, "", '\x00', false, []⟩ line

example : extractBuilderFlags (bytes "--from=a --chown=1 COPY x") =
    (bytes "COPY x", ["--from=a", "--chown=1"]) := by
  decide +kernel

theorem extractBuilderFlags_mangles_utf8 :
    extractBuilderFlags (bytes "--é x") = (bytes "x", ["--Ã©"]) ∧
      extractBuilderFlags (bytes "--à x") = (bytes "x", ["--Ã"]) := by
  decide +kernel

/-! ## Flags in ASCII -/

end Parser

end Buildkit
