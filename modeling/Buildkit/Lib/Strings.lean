import Mathlib

/-!
# Go string functions

The functions of Go's `strings` package that the models use, on the characters of a string, so
that they reduce on concrete strings: `hasPrefix`, `trimPrefix`, `cut` (the first occurrence of a
separator, as `strings.SplitN(s, sep, 2)` and `strings.Index` use it) and `cutLast` (the last
occurrence of a character, `strings.LastIndex`). Code that indexes a string reads its bytes,
the UTF-8 encoding of its characters (`bytes`), and `rune(line[pos])` of one byte is the
character of the same number (`runeOfByte`), which for a byte of a character outside ASCII is
another character; `isSpace` is `unicode.IsSpace`.
-/

namespace Strings

/-- The split of a list of characters at the first occurrence of `sep`. -/
def cutChars (sep : List Char) : List Char → Option (List Char × List Char)
  | [] => if sep = [] then some ([], []) else none
  | c :: cs =>
    if sep.isPrefixOf (c :: cs) then some ([], (c :: cs).drop sep.length)
    else (cutChars sep cs).map fun r => (c :: r.1, r.2)

/-- `strings.HasPrefix`. -/
def hasPrefix (s pre : String) : Bool := pre.toList.isPrefixOf s.toList

/-- `strings.TrimPrefix`. -/
def trimPrefix (s pre : String) : String :=
  if hasPrefix s pre then String.ofList (s.toList.drop pre.length) else s

/-- `strings.Cut`: the text before the first `sep` and after it, if there is one. -/
def cut (s sep : String) : Option (String × String) :=
  (cutChars sep.toList s.toList).map fun r => (String.ofList r.1, String.ofList r.2)

/-- The text before the first `sep`, or all of it: `strings.Split(s, sep)[0]`. -/
def before (s sep : String) : String := ((cut s sep).map (·.1)).getD s

/-- The split at the last occurrence of a character, `strings.LastIndex`. -/
def cutLast (s : String) (c : Char) : Option (String × String) :=
  (cutChars [c] s.toList.reverse).map fun r => (String.ofList r.2.reverse, String.ofList r.1.reverse)

theorem cutChars_append_of_not_mem {c : Char} {a : List Char} (b : List Char) (ha : c ∉ a) :
    cutChars [c] (a ++ c :: b) = some (a, b) := by
  induction a with
  | nil => simp [cutChars]
  | cons x a ih =>
    have hx : c ≠ x := fun h => ha (h ▸ List.mem_cons_self)
    have ha' : c ∉ a := fun h => ha (List.mem_cons_of_mem _ h)
    simp [cutChars, hx, ih ha']

theorem cut_append_of_not_mem {a sep : String} {c : Char} (b : String) (hsep : sep.toList = [c])
    (ha : c ∉ a.toList) : cut (a ++ sep ++ b) sep = some (a, b) := by
  rw [cut, String.toList_append, String.toList_append, hsep, List.append_assoc, List.singleton_append,
    cutChars_append_of_not_mem _ ha]
  simp

theorem hasPrefix_append (pre s : String) : hasPrefix (pre ++ s) pre = true := by
  simp [hasPrefix, List.isPrefixOf_iff_prefix]

theorem trimPrefix_append (pre s : String) : trimPrefix (pre ++ s) pre = s := by
  rw [trimPrefix, if_pos (hasPrefix_append pre s), String.toList_append, ← String.length_toList,
    List.drop_left]
  simp

theorem hasPrefix_iff {s pre : String} : hasPrefix s pre = true ↔ pre.toList <+: s.toList := by
  simp [hasPrefix, List.isPrefixOf_iff_prefix]

theorem length_lt_of_hasPrefix_slash {s q : String} (h : hasPrefix s (q ++ "/") = true) :
    q.toList.length < s.toList.length := by
  have := (hasPrefix_iff.mp h).length_le
  simp at this
  omega

theorem not_hasPrefix_slash_self (s : String) : hasPrefix s (s ++ "/") = false := by
  cases h : hasPrefix s (s ++ "/")
  · rfl
  · exact absurd (length_lt_of_hasPrefix_slash h) (Nat.lt_irrefl _)

theorem hasPrefix_trans {s t u : String} (hst : hasPrefix s t = true) (htu : hasPrefix t u = true) :
    hasPrefix s u = true :=
  hasPrefix_iff.mpr ((hasPrefix_iff.mp htu).trans (hasPrefix_iff.mp hst))

theorem hasPrefix_append_left (c : String) {s pre : String} :
    hasPrefix (c ++ s) (c ++ pre) = hasPrefix s pre := by
  rw [Bool.eq_iff_iff, hasPrefix_iff, hasPrefix_iff, String.toList_append, String.toList_append,
    List.prefix_append_right_inj]

theorem hasPrefix_append_of_hasPrefix {s pre : String} (h : hasPrefix s pre = true) (t : String) :
    hasPrefix (s ++ t) pre = true := by
  rw [hasPrefix_iff, String.toList_append]
  exact (hasPrefix_iff.mp h).trans (List.prefix_append _ _)

/-! ## The bytes of a string -/

/-- The bytes of a Go string that holds the UTF-8 encoding of `s`. -/
def bytes (s : String) : List UInt8 := s.toList.flatMap String.utf8EncodeChar

/-- `rune(b)` of a byte: the code point of the same number. -/
def runeOfByte (b : UInt8) : Char := Char.ofNat b.toNat

/-- `unicode.IsSpace`: the characters of Unicode's White_Space property. It is irreducible, so
that the equations of a loop that tests it do not compute the table. -/
@[irreducible] def isSpace (c : Char) : Bool :=
  let v := c.toNat
  (9 ≤ v && v ≤ 13) || v == 32 || v == 0x85 || v == 0xA0 || v == 0x1680 ||
    (0x2000 ≤ v && v ≤ 0x200A) || v == 0x2028 || v == 0x2029 || v == 0x202F || v == 0x205F ||
    v == 0x3000

@[simp] theorem isSpace_space : isSpace ' ' = true := by
  unfold isSpace
  decide

@[simp] theorem isSpace_tab : isSpace '\t' = true := by
  unfold isSpace
  decide

/-- `strings.TrimSpace`: the text without the white space at either end. -/
def trimSpace (s : String) : String :=
  String.ofList ((s.toList.dropWhile isSpace).reverse.dropWhile isSpace).reverse

/-! ## `strconv` -/

/-- `strconv.ParseBool`. -/
def parseBool : String → Option Bool
  | "1" | "t" | "T" | "TRUE" | "true" | "True" => some true
  | "0" | "f" | "F" | "FALSE" | "false" | "False" => some false
  | _ => none

/-- `strconv.ParseUint(s, base, bitSize)` for a base of at most ten: a digit string without a
sign or underscores whose value fits in `bitSize` bits. -/
def parseUint (s : String) (base bitSize : Nat) : Option Nat :=
  let cs := s.toList
  if cs ≠ [] ∧ cs.all (fun c => c.isDigit ∧ c.toNat - '0'.toNat < base) then
    let n := cs.foldl (fun n c => base * n + (c.toNat - '0'.toNat)) 0
    if n < 2 ^ bitSize then some n else none
  else none

/-! ## `strings.ToLower`

`strings.ToLower` is `Char.toLower` on each character, which lowers the ASCII letters only. -/

/-- A character below `a` is the lower case of itself alone. -/
theorem eq_of_toLower_eq {c d : Char} (hd : d.toNat < 97) (h : c.toLower = d) : c = d := by
  unfold Char.toLower at h
  split at h
  · next hc =>
    -- an upper-case letter is lowered to `a` or above
    exfalso
    subst h
    simp only [ge_iff_le, UInt32.le_iff_toNat_le] at hc
    simp only [Char.toNat] at hd
    rw [UInt32.toNat_add] at hd
    simp at hc hd
    omega
  · exact h

/-! ## `bufio.ScanLines`

A `bufio.Scanner` that splits with `ScanLines` returns the text up to each `\n`, without a `\r`
that ends it, and then the text after the last `\n` if it is not empty. The limit on the length of
a line, `bufio.MaxScanTokenSize`, is not modelled: the lines are those of an input whose lines
are all shorter. -/

/-- `dropCR`. -/
def dropCR (line : List Char) : List Char := if line.getLast? = some '\r' then line.dropLast else line

/-- The lines of `data`, with `line` the characters read of the line it is in, last first. -/
def scanLinesFrom (line : List Char) : List Char → List (List Char)
  | [] => if line = [] then [] else [dropCR line.reverse]
  | c :: rest =>
    if c = '\n' then dropCR line.reverse :: scanLinesFrom [] rest else scanLinesFrom (c :: line) rest

/-- The lines `ScanLines` cuts `data` into. -/
def scanLines (data : List Char) : List (List Char) := scanLinesFrom [] data

theorem not_mem_dropCR {c : Char} {line : List Char} (h : c ∉ line) : c ∉ dropCR line := by
  unfold dropCR
  split
  · exact fun hm => h (List.dropLast_subset line hm)
  · exact h

/-- No line holds a `\n`. -/
theorem newline_not_mem_of_mem_scanLines {data l : List Char} (h : l ∈ scanLines data) :
    '\n' ∉ l := by
  -- induction on the text still to read, with the line being read free of `\n`
  suffices H : ∀ line, '\n' ∉ line → l ∈ scanLinesFrom line data → '\n' ∉ l from H [] (by simp) h
  clear h
  induction data with
  | nil =>
    intro line hline hl
    simp only [scanLinesFrom] at hl
    split at hl
    · cases hl
    · rw [List.mem_singleton.mp hl]
      exact not_mem_dropCR (by simpa using hline)
  | cons c rest ih =>
    intro line hline hl
    simp only [scanLinesFrom] at hl
    split at hl
    · rcases List.mem_cons.mp hl with rfl | hl
      · exact not_mem_dropCR (by simpa using hline)
      · exact ih [] (by simp) hl
    · next hc => exact ih (c :: line) (by simp [hline, Ne.symm hc]) hl

end Strings
