import Mathlib.Logic.Function.Basic
import Buildkit.Lib.Strings

/-!
# The flags of an instruction

`BFlags` of `frontend/dockerfile/instructions/bflag.go` reads the flags of one instruction, the
words `--name=value` that `splitCommand` put in `Node.Flags`. The parser of the instruction first
defines the flags it takes (`AddBool`, `AddString`, `AddStrings`), each with its default, and
then `Parse` sets them from the arguments, one after the other, up to the end or to a `--`, and
fails at the first argument that is not a flag of the instruction or not a value of its type. A
string flag may be given once, a flag of strings any number of times.

What is proved: `Parse` reads back what the arguments `--name=value` set (`parse_render`): a
string flag holds its value, a flag of strings the values given, in order, after those it had,
and a flag not named keeps its default; and whatever the arguments, a boolean flag holds `true`
or `false` after a `Parse` that succeeds (`parse_keeps_bool_values`), which `IsTrue` reads.

Representation. The maps `flags` and `used` are functions, and a `*Flag` is the name it is stored
under: a write through it is `setFlag`. `IsTrue` panics on a flag that is not boolean, and is
`none` there. `strings.ToLower` is `String.toLower`, which lowers ASCII letters; a boolean value
is accepted where its lower case is `true` or `false`, and no other letter lowers to one of
theirs.
-/

namespace Buildkit

namespace Instructions

open Strings

/-- `FlagType`. -/
inductive FlagType
  | boolType
  | stringType
  | stringsType
  deriving DecidableEq, Repr

/-- `Flag`, without its pointer back to the `BFlags` that holds it. -/
structure Flag where
  name : String
  flagType : FlagType
  value : String
  stringValues : List String
  deriving DecidableEq, Repr

/-- `BFlags`. -/
structure BFlags where
  args : List String
  flags : String → Option Flag
  used : String → Bool
  err : Option String

/-- `NewBFlags`. -/
def newBFlags : BFlags := ⟨[], fun _ => none, fun _ => false, none⟩

/-- `NewBFlagsWithArgs`. -/
def newBFlagsWithArgs (args : List String) : BFlags := { newBFlags with args := args }

namespace BFlags

/-- A write through the `*Flag` of a name. -/
def setFlag (bf : BFlags) (name : String) (f : Flag → Flag) : BFlags :=
  { bf with flags := Function.update bf.flags name ((bf.flags name).map f) }

/-- `addFlag`: the new flag, or the error of a name defined twice. -/
def addFlag (bf : BFlags) (name : String) (flagType : FlagType) : BFlags × Option Flag :=
  match bf.flags name with
  | some _ => ({ bf with err := some s!"Duplicate flag defined: {name}" }, none)
  | none =>
    let newFlag : Flag := ⟨name, flagType, "", []⟩
    ({ bf with flags := Function.update bf.flags name (some newFlag) }, some newFlag)

/-- `AddBool`. -/
def addBool (bf : BFlags) (name : String) («def» : Bool) : BFlags :=
  match bf.addFlag name .boolType with
  | (bf, none) => bf
  | (bf, some _) => bf.setFlag name fun fl => { fl with value := if «def» then "true" else "false" }

/-- `AddString`. -/
def addString (bf : BFlags) (name : String) («def» : String) : BFlags :=
  match bf.addFlag name .stringType with
  | (bf, none) => bf
  | (bf, some _) => bf.setFlag name fun fl => { fl with value := «def» }

/-- `AddStrings`. -/
def addStrings (bf : BFlags) (name : String) : BFlags := (bf.addFlag name .stringsType).1

/-- `IsUsed`. -/
def isUsed (bf : BFlags) (name : String) : Bool := bf.used name

/-- `IsTrue`, which panics on a flag that is not boolean. -/
def isTrue (fl : Flag) : Option Bool :=
  if fl.flagType ≠ .boolType then none else some (fl.value == "true")

/-- An iteration of the loop of `Parse`, from `flag, ok := bf.flags[arg]` on: the flag `arg`,
with `value` after an `=` where `index >= 0`. -/
def parseFlag (bf : BFlags) (arg value : String) (index : Bool) : Except String BFlags :=
  match bf.flags arg with
  | none => .error s!"Unknown flag: {arg}"
  | some flag =>
    if bf.used arg = true ∧ flag.flagType ≠ .stringsType then
      .error s!"Duplicate flag specified: {arg}"
    else
      let bf := { bf with used := Function.update bf.used arg true }
      match flag.flagType with
      | .boolType =>
        -- value == "" is only ok if no "=" was specified
        if index = true ∧ value = "" then .error s!"Missing a value on flag: {arg}"
        else
          let lower := value.toLower
          if lower = "" then .ok (bf.setFlag arg fun fl => { fl with value := "true" })
          else if lower = "true" ∨ lower = "false" then
            .ok (bf.setFlag arg fun fl => { fl with value := lower })
          else .error s!"Expecting boolean value for flag {arg}, not: {value}"
      | .stringType =>
        if index = false then .error s!"Missing a value on flag: {arg}"
        else .ok (bf.setFlag arg fun fl => { fl with value := value })
      | .stringsType =>
        if index = false then .error s!"Missing a value on flag: {arg}"
        else .ok (bf.setFlag arg fun fl => { fl with stringValues := fl.stringValues ++ [value] })

/-- The loop of `Parse` over the arguments left. -/
def parseArgs (bf : BFlags) : List String → Except String BFlags
  | [] => .ok bf
  | arg :: rest =>
    if hasPrefix arg "--" = false then .error s!"Arg should start with -- : {arg}"
    else if arg = "--" then .ok bf
    else
      let arg := trimPrefix arg "--"
      let r := match cut arg "=" with
        | some (name, value) => bf.parseFlag name value true
        | none => bf.parseFlag arg "" false
      match r with
      | .error e => .error e
      | .ok bf => parseArgs bf rest

/-- `Parse`. -/
def parse (bf : BFlags) : Except String BFlags :=
  match bf.err with
  | some err => .error s!"Error setting up flags: {err}"
  | none => bf.parseArgs bf.args

end BFlags

/-- What an argument `--name=value` does to a flag that takes a value: a string flag holds it, a
flag of strings adds it to those it holds. -/
def Flag.assign (fl : Flag) (v : String) : Flag :=
  match fl.flagType with
  | .stringType => { fl with value := v }
  | .stringsType => { fl with stringValues := fl.stringValues ++ [v] }
  | .boolType => fl

/-- The arguments that give the flags `ps.map (·.1)` the values `ps.map (·.2)`, in order. -/
def render (ps : List (String × String)) : List String := ps.map fun p => "--" ++ (p.1 ++ "=" ++ p.2)

/-- The values given to the flag `n`, in order. -/
def valuesOf (ps : List (String × String)) (n : String) : List String :=
  (ps.filter (·.1 == n)).map (·.2)

namespace BFlags

section Lemmas

variable {bf bf' : BFlags} {n m : String} {f : Flag → Flag}

@[simp] theorem setFlag_used : (bf.setFlag n f).used = bf.used := rfl
theorem setFlag_flags : (bf.setFlag n f).flags m = if m = n then (bf.flags n).map f else bf.flags m :=
  Function.update_apply _ _ _ _

/-- The `--` that ends the flags ends `Parse`, whatever follows it. -/
theorem parseArgs_dashdash (rest : List String) : bf.parseArgs ("--" :: rest) = .ok bf := by
  simp [parseArgs, hasPrefix]

/-- An argument `--name=value`, for a name without `=`, is the flag `name` with `value`. -/
theorem parseArgs_flag_value {v : String} (hn : '=' ∉ n.toList) (rest : List String) :
    bf.parseArgs (("--" ++ (n ++ "=" ++ v)) :: rest) = bf.parseFlag n v true >>= (·.parseArgs rest) := by
  have hpre : hasPrefix ("--" ++ (n ++ "=" ++ v)) "--" = true := hasPrefix_append _ _
  have hne : "--" ++ (n ++ "=" ++ v) ≠ "--" := by
    intro h
    have := congrArg String.toList h
    simp at this
  have hcut : cut (n ++ "=" ++ v) "=" = some (n, v) := cut_append_of_not_mem v rfl hn
  rw [parseArgs, if_neg (by simp [hpre]), if_neg hne, trimPrefix_append]
  simp only [hcut]
  cases bf.parseFlag n v true <;> rfl

/-! ### Reading back the values the arguments set -/

@[simp] theorem assign_flagType (fl : Flag) (v : String) : (fl.assign v).flagType = fl.flagType := by
  unfold Flag.assign
  split <;> rfl

/-- A flag of strings given the values `vs` holds them after its own. -/
theorem foldl_assign_strings {fl : Flag} (h : fl.flagType = .stringsType) (vs : List String) :
    vs.foldl Flag.assign fl = { fl with stringValues := fl.stringValues ++ vs } := by
  induction vs generalizing fl with
  | nil => simp
  | cons v vs ih =>
    have hv : fl.assign v = { fl with stringValues := fl.stringValues ++ [v] } := by
      simp [Flag.assign, h]
    rw [List.foldl_cons, ih (by simpa using h), hv]
    simp

/-- A flag that takes a value, given one, the first time if it is a string flag. -/
theorem parseFlag_assign {v : String} {fl : Flag} (hfl : bf.flags n = some fl)
    (ht : fl.flagType ≠ .boolType) (hu : fl.flagType = .stringType → bf.used n = false) :
    bf.parseFlag n v true =
      .ok (({ bf with used := Function.update bf.used n true } : BFlags).setFlag n (·.assign v)) := by
  cases hty : fl.flagType with
  | boolType => exact absurd hty ht
  | stringType => simp [parseFlag, hfl, hty, hu hty, setFlag, Flag.assign]
  | stringsType => simp [parseFlag, hfl, hty, setFlag, Flag.assign]

theorem valuesOf_cons (p : String × String) (ps : List (String × String)) (n : String) :
    valuesOf (p :: ps) n = if p.1 = n then p.2 :: valuesOf ps n else valuesOf ps n := by
  by_cases h : p.1 = n <;> simp [valuesOf, h]

/-- What the loop does on arguments `--name=value` of flags that take a value, each string flag
named once and not used before: each flag is given the values of its name, in order. -/
theorem parseArgs_render : ∀ (ps : List (String × String)) (bf : BFlags),
    (∀ p ∈ ps, '=' ∉ p.1.toList) →
    (∀ p ∈ ps, ∃ fl, bf.flags p.1 = some fl ∧ fl.flagType ≠ .boolType ∧
      (fl.flagType = .stringType → bf.used p.1 = false ∧ ps.countP (·.1 == p.1) = 1)) →
    ∃ bf', bf.parseArgs (render ps) = .ok bf' ∧
      ∀ n, bf'.flags n = (bf.flags n).map fun fl => (valuesOf ps n).foldl Flag.assign fl
  | [], bf, _, _ => ⟨bf, rfl, fun n => by simp [valuesOf]⟩
  | (n, v) :: ps, bf, heq, hdef => by
    obtain ⟨fl, hfl, hnb, hstr⟩ := hdef (n, v) List.mem_cons_self
    have hn : '=' ∉ n.toList := heq (n, v) List.mem_cons_self
    set bf₁ : BFlags := ({ bf with used := Function.update bf.used n true } : BFlags).setFlag n
      (·.assign v) with hbf₁
    -- the flags named later are still defined, with their types, and a string flag among them is
    -- another than `n`, so not used yet
    have hdef₁ : ∀ p ∈ ps, ∃ fl, bf₁.flags p.1 = some fl ∧ fl.flagType ≠ .boolType ∧
        (fl.flagType = .stringType → bf₁.used p.1 = false ∧ ps.countP (·.1 == p.1) = 1) := by
      intro p hp
      obtain ⟨flp, hflp, hnbp, hstrp⟩ := hdef p (List.mem_cons_of_mem _ hp)
      by_cases e : p.1 = n
      · -- only a flag of strings can be named again
        have hty : flp.flagType = .stringsType := by
          cases hty : flp.flagType with
          | boolType => exact absurd hty hnbp
          | stringsType => rfl
          | stringType =>
            have hc := (hstrp hty).2
            have hpos : 0 < ps.countP (·.1 == p.1) := List.countP_pos_iff.mpr ⟨p, hp, by simp⟩
            rw [List.countP_cons] at hc
            simp only [e, beq_self_eq_true, if_true] at hc hpos
            omega
        refine ⟨flp.assign v, ?_, by simp [hty], fun h => by simp [hty] at h⟩
        rw [hbf₁, setFlag_flags, if_pos e]
        rw [e] at hflp
        simp [hflp]
      · refine ⟨flp, ?_, hnbp, fun h => ?_⟩
        · rw [hbf₁, setFlag_flags, if_neg e]
          exact hflp
        · obtain ⟨hu, hc⟩ := hstrp h
          refine ⟨by simpa [hbf₁, Function.update_of_ne e] using hu, ?_⟩
          have hne : (n == p.1) = false := by simpa using Ne.symm e
          simpa [List.countP_cons, hne] using hc
    obtain ⟨bf', hrun, hflags⟩ := parseArgs_render ps bf₁
      (fun p hp => heq p (List.mem_cons_of_mem _ hp)) hdef₁
    refine ⟨bf', ?_, fun m => ?_⟩
    · rw [render, List.map_cons, parseArgs_flag_value hn,
        parseFlag_assign hfl hnb fun h => (hstr h).1]
      exact hrun
    · rw [hflags m, valuesOf_cons]
      by_cases e : m = n
      · subst e
        rw [hbf₁, setFlag_flags, if_pos rfl, if_pos rfl, hfl]
        rfl
      · rw [hbf₁, setFlag_flags, if_neg e, if_neg (Ne.symm e)]

theorem valuesOf_eq_singleton {ps : List (String × String)} {v : String}
    (hc : ps.countP (·.1 == n) = 1) (hmem : (n, v) ∈ ps) : valuesOf ps n = [v] := by
  rw [List.countP_eq_length_filter, List.length_eq_one_iff] at hc
  obtain ⟨x, hx⟩ := hc
  have hmem' : (n, v) ∈ ps.filter (·.1 == n) := List.mem_filter.mpr ⟨hmem, by simp⟩
  rw [hx, List.mem_singleton] at hmem'
  rw [valuesOf, hx, ← hmem']
  rfl

theorem valuesOf_eq_nil {ps : List (String × String)} (hn : n ∉ ps.map Prod.fst) :
    valuesOf ps n = [] := by
  rw [valuesOf, List.map_eq_nil_iff, List.filter_eq_nil_iff]
  intro p hp hpn
  exact hn (List.mem_map.mpr ⟨p, hp, by simpa using hpn⟩)

/-- `Parse` reads back what arguments `--name=value` give flags that take a value, each string
flag named once and not used before: a string flag holds its value, a flag of strings the values
given after those it had, in order, and a flag not named keeps what it had. -/
theorem parse_render (hbf : bf.err = none) (ps : List (String × String))
    (heq : ∀ p ∈ ps, '=' ∉ p.1.toList)
    (hdef : ∀ p ∈ ps, ∃ fl, bf.flags p.1 = some fl ∧ fl.flagType ≠ .boolType ∧
      (fl.flagType = .stringType → bf.used p.1 = false ∧ ps.countP (·.1 == p.1) = 1)) :
    ∃ bf', { bf with args := render ps }.parse = .ok bf' ∧
      (∀ n v fl, bf.flags n = some fl → fl.flagType = .stringType → (n, v) ∈ ps →
        bf'.flags n = some { fl with value := v }) ∧
      (∀ n fl, bf.flags n = some fl → fl.flagType = .stringsType →
        bf'.flags n = some { fl with stringValues := fl.stringValues ++ valuesOf ps n }) ∧
      (∀ n, n ∉ ps.map Prod.fst → bf'.flags n = bf.flags n) := by
  obtain ⟨bf', hrun, hflags⟩ := parseArgs_render ps { bf with args := render ps } heq hdef
  dsimp only at hflags
  refine ⟨bf', by simpa [parse, hbf] using hrun, fun n v fl hfl ht hmem => ?_,
    fun n fl hfl ht => ?_, fun n hn => ?_⟩
  · -- the one value a string flag is given
    obtain ⟨fl', hfl', -, hstr⟩ := hdef (n, v) hmem
    rw [hfl] at hfl'
    cases hfl'
    rw [hflags n, hfl, valuesOf_eq_singleton (hstr ht).2 hmem]
    simp [Flag.assign, ht]
  · rw [hflags n, hfl, Option.map_some, foldl_assign_strings ht]
  · rw [hflags n, valuesOf_eq_nil hn]
    cases bf.flags n <;> rfl

theorem parse_render_copy :
    ∃ bf', { (((newBFlagsWithArgs []).addString "from" "").addStrings "mount") with
        args := render [("from", "base"), ("mount", "type=cache"), ("mount", "target=/x")] }.parse =
        .ok bf' ∧
      (∀ n v fl, (((newBFlagsWithArgs []).addString "from" "").addStrings "mount").flags n = some fl →
        fl.flagType = .stringType →
        (n, v) ∈ [("from", "base"), ("mount", "type=cache"), ("mount", "target=/x")] →
        bf'.flags n = some { fl with value := v }) ∧
      (∀ n fl, (((newBFlagsWithArgs []).addString "from" "").addStrings "mount").flags n = some fl →
        fl.flagType = .stringsType →
        bf'.flags n = some { fl with
          stringValues := fl.stringValues ++
            valuesOf [("from", "base"), ("mount", "type=cache"), ("mount", "target=/x")] n }) ∧
      (∀ n, n ∉ [("from", "base"), ("mount", "type=cache"), ("mount", "target=/x")].map Prod.fst →
        bf'.flags n = (((newBFlagsWithArgs []).addString "from" "").addStrings "mount").flags n) :=
  parse_render rfl _ (by decide) (by
    intro p hp
    simp only [List.mem_cons, List.not_mem_nil, or_false] at hp
    rcases hp with rfl | rfl | rfl
    · exact ⟨_, rfl, by decide, fun _ => ⟨rfl, by decide⟩⟩
    · exact ⟨_, rfl, by decide, nofun⟩
    · exact ⟨_, rfl, by decide, nofun⟩)

/-! ### What a `Parse` that succeeds keeps -/

/-- An argument that starts with `--` and is not `--` is a flag, with or without a value. -/
theorem parseArgs_cons_flag {arg : String} (rest : List String) (hpre : hasPrefix arg "--" = true)
    (hne : arg ≠ "--") :
    ∃ a v i, bf.parseArgs (arg :: rest) = bf.parseFlag a v i >>= (·.parseArgs rest) := by
  rw [parseArgs, if_neg (by simp [hpre]), if_neg hne]
  dsimp only
  cases cut (trimPrefix arg "--") "=" with
  | none => exact ⟨_, "", false, by cases bf.parseFlag (trimPrefix arg "--") "" false <;> rfl⟩
  | some p =>
    obtain ⟨a, v⟩ := p
    exact ⟨a, v, true, by dsimp only; cases bf.parseFlag a v true <;> rfl⟩

/-- The loop of `Parse` keeps what each flag it sets keeps. -/
theorem parseArgs_keeps (P : BFlags → Prop)
    (hP : ∀ bf bf' a v i, bf.parseFlag a v i = .ok bf' → P bf → P bf') :
    ∀ (args : List String) {bf bf' : BFlags}, bf.parseArgs args = .ok bf' → P bf → P bf'
  | [], _, _, h, hb => by
    cases h
    exact hb
  | arg :: rest, bf, bf', h, hb => by
    by_cases hpre : hasPrefix arg "--" = true
    · by_cases hne : arg = "--"
      · subst hne
        rw [parseArgs_dashdash] at h
        cases h
        exact hb
      · obtain ⟨a, v, i, he⟩ := parseArgs_cons_flag rest hpre hne
        rw [he] at h
        cases hf : bf.parseFlag a v i with
        | error e =>
          rw [hf] at h
          cases h
        | ok bf₁ =>
          rw [hf] at h
          exact parseArgs_keeps P hP rest h (hP bf bf₁ a v i hf hb)
    · rw [parseArgs, if_pos (by simpa using hpre)] at h
      cases h

/-- What a flag that `Parse` sets becomes: the name and the type stay, and a boolean flag is
given `true` or `false`. -/
theorem parseFlag_eq_ok {a v : String} {i : Bool} (h : bf.parseFlag a v i = .ok bf') :
    ∃ fl g, bf.flags a = some fl ∧
      bf' = ({ bf with used := Function.update bf.used a true } : BFlags).setFlag a g ∧
      (g fl).name = fl.name ∧ (g fl).flagType = fl.flagType ∧
      (fl.flagType = .boolType → (g fl).value = "true" ∨ (g fl).value = "false") := by
  unfold parseFlag at h
  cases hfl : bf.flags a with
  | none => simp [hfl] at h
  | some fl =>
    simp only [hfl] at h
    by_cases hdup : bf.used a = true ∧ fl.flagType ≠ .stringsType
    · rw [if_pos hdup] at h
      cases h
    rw [if_neg hdup] at h
    cases hty : fl.flagType with
    | boolType =>
      -- `true` for no value, else the value in lower case, if it is `true` or `false`
      simp only [hty] at h
      by_cases hmiss : i = true ∧ v = ""
      · rw [if_pos hmiss] at h
        cases h
      rw [if_neg hmiss] at h
      by_cases hempty : v.toLower = ""
      · rw [if_pos hempty] at h
        cases h
        exact ⟨fl, _, rfl, rfl, rfl, rfl, fun _ => .inl rfl⟩
      rw [if_neg hempty] at h
      by_cases hbool : v.toLower = "true" ∨ v.toLower = "false"
      · rw [if_pos hbool] at h
        cases h
        exact ⟨fl, _, rfl, rfl, rfl, rfl, fun _ => hbool⟩
      rw [if_neg hbool] at h
      cases h
    | stringType =>
      simp only [hty] at h
      split_ifs at h
      cases h
      exact ⟨fl, _, rfl, rfl, rfl, rfl, fun h => by simp [hty] at h⟩
    | stringsType =>
      simp only [hty] at h
      split_ifs at h
      cases h
      exact ⟨fl, _, rfl, rfl, rfl, rfl, fun h => by simp [hty] at h⟩

/-- The flags are stored under their names, and a boolean flag holds `true` or `false`: what the
`Add` functions make, and what `IsTrue` reads. -/
def ValuesOk (bf : BFlags) : Prop :=
  ∀ n fl, bf.flags n = some fl →
    fl.name = n ∧ (fl.flagType = .boolType → fl.value = "true" ∨ fl.value = "false")

theorem valuesOk_newBFlagsWithArgs (args : List String) : (newBFlagsWithArgs args).ValuesOk :=
  fun _ _ h => nomatch h

theorem setFlag_update (x : Flag) :
    ({ bf with flags := Function.update bf.flags n (some x) } : BFlags).setFlag n f =
      { bf with flags := Function.update bf.flags n (some (f x)) } := by
  simp [setFlag]

theorem ValuesOk.update (h : bf.ValuesOk) {x : Flag} (hx : x.name = n)
    (hb : x.flagType = .boolType → x.value = "true" ∨ x.value = "false") :
    ({ bf with flags := Function.update bf.flags n (some x) } : BFlags).ValuesOk := by
  intro m fl hm
  by_cases e : m = n
  · subst e
    simp only [Function.update_self, Option.some.injEq] at hm
    subst hm
    exact ⟨hx, hb⟩
  · simp only [Function.update_of_ne e] at hm
    exact h m fl hm

/-- `AddBool` gives its flag `true` or `false`. -/
theorem ValuesOk.addBool (h : bf.ValuesOk) (d : Bool) : (bf.addBool n d).ValuesOk := by
  unfold BFlags.addBool BFlags.addFlag
  cases bf.flags n with
  | some _ => exact h
  | none =>
    dsimp only
    rw [setFlag_update]
    exact h.update rfl fun _ => by cases d <;> simp

theorem ValuesOk.addString (h : bf.ValuesOk) (d : String) : (bf.addString n d).ValuesOk := by
  unfold BFlags.addString BFlags.addFlag
  cases bf.flags n with
  | some _ => exact h
  | none =>
    dsimp only
    rw [setFlag_update]
    exact h.update rfl nofun

/-- A write that keeps the name and the type of a flag, and gives a boolean one `true` or
`false`. -/
theorem ValuesOk.setFlag (h : bf.ValuesOk)
    (hf : ∀ fl, bf.flags n = some fl → (f fl).name = fl.name ∧ (f fl).flagType = fl.flagType ∧
      (fl.flagType = .boolType → (f fl).value = "true" ∨ (f fl).value = "false")) :
    (bf.setFlag n f).ValuesOk := by
  intro m fl hm
  rw [setFlag_flags] at hm
  split_ifs at hm with e
  · subst e
    cases hfl : bf.flags m with
    | none => simp [hfl] at hm
    | some fl₀ =>
      rw [hfl, Option.map_some, Option.some.injEq] at hm
      subst hm
      obtain ⟨hname, hty, hb⟩ := hf fl₀ hfl
      refine ⟨hname.trans (h m fl₀ hfl).1, fun hbool => hb (hty ▸ hbool)⟩
  · exact h m fl hm

theorem parseFlag_keeps_valuesOk {a v : String} {i : Bool} (h : bf.parseFlag a v i = .ok bf')
    (hb : bf.ValuesOk) : bf'.ValuesOk := by
  obtain ⟨fl, g, hfl, rfl, hname, hty, hbool⟩ := parseFlag_eq_ok h
  refine ValuesOk.setFlag (f := g) hb fun fl' hfl' => ?_
  rw [hfl] at hfl'
  cases hfl'
  exact ⟨hname, hty, hbool⟩

theorem parseFlag_flagType {a v : String} {i : Bool} (h : bf.parseFlag a v i = .ok bf')
    (m : String) : (bf'.flags m).map Flag.flagType = (bf.flags m).map Flag.flagType := by
  obtain ⟨fl, g, hfl, rfl, -, hty, -⟩ := parseFlag_eq_ok h
  rw [setFlag_flags]
  split_ifs with e
  · subst e
    simp only [hfl, Option.map_some]
    exact congrArg some hty
  · rfl

/-- Whatever the arguments, a `Parse` that succeeds changes the values of the flags only: every
flag keeps its name and its type, and a boolean flag holds `true` or `false`, as `AddBool` left
it. -/
theorem parse_keeps_bool_values (hb : bf.ValuesOk) (h : bf.parse = .ok bf') :
    bf'.ValuesOk ∧ ∀ n, (bf'.flags n).map Flag.flagType = (bf.flags n).map Flag.flagType := by
  unfold parse at h
  cases herr : bf.err with
  | some e => simp [herr] at h
  | none =>
    rw [herr] at h
    refine ⟨parseArgs_keeps ValuesOk (fun _ _ _ _ _ hp hv => parseFlag_keeps_valuesOk hp hv)
      bf.args h hb, fun n => ?_⟩
    exact parseArgs_keeps (fun b => (b.flags n).map Flag.flagType = (bf.flags n).map Flag.flagType)
      (fun _ _ _ _ _ hp hv => (parseFlag_flagType hp n).trans hv) bf.args h rfl

theorem parse_keeps_bool_values_copy :
    ∃ bf', (((newBFlagsWithArgs ["--from=base"]).addBool "force" false).addString "from" "").parse =
        .ok bf' ∧
      bf'.ValuesOk ∧ ∀ n, (bf'.flags n).map Flag.flagType =
        ((((newBFlagsWithArgs ["--from=base"]).addBool "force" false).addString "from" "").flags
          n).map Flag.flagType :=
  have h : (((newBFlagsWithArgs ["--from=base"]).addBool "force" false).addString "from" "").parse =
      .ok _ := rfl
  ⟨_, h, parse_keeps_bool_values (((valuesOk_newBFlagsWithArgs _).addBool false).addString "") h⟩

end Lemmas

end BFlags

end Instructions

end Buildkit
