import Buildkit.Frontend.Dockerfile.Shell.Lex

/-!
# The mounts of `RUN --mount`

`parseMount` of `frontend/dockerfile/instructions/commands_runmount.go` reads the value of one
`--mount` flag, the fields of one CSV record, each `key=value` or a bare key, into a `Mount` that
starts as a bind mount, and then checks the mount as a whole (`checkMount`). The loop sets the
fields in the order they come, and a bare field is read against the mount built so far:
`required` is a flag once the type is `secret` or `ssh`, and before that an error. So the result
depends on the order of two fields of different keys (`parseMountFields_required_before_type`).

Representation. `csv.Reader.Read` is a parameter `readCSV` that returns the fields of the first
record or the text of its error; `parseMountFields` is the rest of `parseMount`, on those fields.
Whether secret and ssh mounts are supported is fixed by the build tags `dfsecrets` and `dfssh`,
the parameter `Features`. `strings.ToLower` is `String.toLower`, which lowers ASCII letters, and
`%q` is `Shell.quote`. A pointer field of `Mount` is an option.
-/

namespace Buildkit

namespace Instructions

open Strings

def mountTypeBind : String := "bind"
def mountTypeCache : String := "cache"
def mountTypeTmpfs : String := "tmpfs"
def mountTypeSecret : String := "secret"
def mountTypeSSH : String := "ssh"

/-- The keys of `allowedMountTypes`. -/
def allowedMountTypes : List String :=
  [mountTypeBind, mountTypeCache, mountTypeTmpfs, mountTypeSecret, mountTypeSSH]

/-- The keys of `allowedSharingTypes`. -/
def allowedSharingTypes : List String := ["shared", "private", "locked"]

/-- The build tags of the frontend: whether secret and ssh mounts are supported. -/
structure Features where
  secrets : Bool
  ssh : Bool
  deriving DecidableEq, Repr

/-- `isValidMountType`. -/
def isValidMountType (features : Features) (s : String) : Bool :=
  if s = "secret" ∧ !features.secrets then false
  else if s = "ssh" ∧ !features.ssh then false
  else s ∈ allowedMountTypes

/-- `Mount`, each field at the zero value of its Go type. -/
structure Mount where
  type : String := ""
  «from» : String := ""
  source : String := ""
  target : String := ""
  readOnly : Bool := false
  cacheID : String := ""
  cacheSharing : String := ""
  required : Bool := false
  mode : Option Nat := none
  uid : Option Nat := none
  gid : Option Nat := none
  deriving DecidableEq, Repr

/-- One iteration of the loop of `parseMount` over the fields: the mount and `roAuto` after the
field. A field without `=` is a bare key. -/
def parseField (features : Features) (st : Mount × Bool) (field : String) :
    Except String (Mount × Bool) :=
  let (m, roAuto) := st
  match cut field "=" with
  | none =>
    match field.toLower with
    | "readonly" | "ro" => pure ({ m with readOnly := true }, false)
    | "readwrite" | "rw" => pure ({ m with readOnly := false }, false)
    | "required" =>
      if m.type = "secret" ∨ m.type = "ssh" then pure ({ m with required := true }, roAuto)
      else throw ("invalid field '" ++ field ++ "' must be a key=value pair")
    | _ => throw ("invalid field '" ++ field ++ "' must be a key=value pair")
  | some (k, value) =>
    let key := k.toLower
    match key with
    | "type" =>
      if !isValidMountType features value.toLower then
        throw ("unsupported mount type " ++ Shell.quote value)
      else pure ({ m with type := value.toLower }, roAuto)
    | "from" => pure ({ m with «from» := value }, roAuto)
    | "source" | "src" => pure ({ m with source := value }, roAuto)
    | "target" | "dst" | "destination" => pure ({ m with target := value }, roAuto)
    | "readonly" | "ro" =>
      match parseBool value with
      | some b => pure ({ m with readOnly := b }, false)
      | none => throw ("invalid value for " ++ key ++ ": " ++ value)
    | "readwrite" | "rw" =>
      match parseBool value with
      | some rw => pure ({ m with readOnly := !rw }, false)
      | none => throw ("invalid value for " ++ key ++ ": " ++ value)
    | "id" => pure ({ m with cacheID := value }, roAuto)
    | "sharing" =>
      if value.toLower ∉ allowedSharingTypes then
        throw ("unsupported sharing value " ++ Shell.quote value)
      else pure ({ m with cacheSharing := value.toLower }, roAuto)
    | "mode" =>
      match parseUint value 8 32 with
      | some mode => pure ({ m with mode := some mode }, roAuto)
      | none => throw ("invalid value " ++ value ++ " for mode")
    | "uid" =>
      match parseUint value 10 32 with
      | some uid => pure ({ m with uid := some uid }, roAuto)
      | none => throw ("invalid value " ++ value ++ " for uid")
    | "gid" =>
      match parseUint value 10 32 with
      | some gid => pure ({ m with gid := some gid }, roAuto)
      | none => throw ("invalid value " ++ value ++ " for gid")
    | _ => throw ("unexpected key '" ++ key ++ "' in '" ++ field ++ "'")

/-- The checks of `parseMount` after the loop, and the default of `ReadOnly` where no field set
it. The first three messages have a verb and no argument, which `fmt` writes as
`%!q(MISSING)`. -/
def checkMount (m : Mount) (roAuto : Bool) : Except String Mount := do
  let fileInfoAllowed := m.type = mountTypeSecret ∨ m.type = mountTypeSSH
  if m.mode.isSome ∧ ¬fileInfoAllowed then throw "mode not allowed for %!q(MISSING) type mounts"
  if m.uid.isSome ∧ ¬fileInfoAllowed then throw "uid not allowed for %!q(MISSING) type mounts"
  if m.gid.isSome ∧ ¬fileInfoAllowed then throw "gid not allowed for %!q(MISSING) type mounts"
  let m := if roAuto then { m with readOnly := m.type ≠ mountTypeCache } else m
  if m.cacheSharing ≠ "" ∧ m.type ≠ mountTypeCache then
    throw ("invalid cache sharing set for " ++ m.type ++ " mount")
  if m.type = mountTypeSecret then
    if m.«from» ≠ "" then throw "secret mount should not have a from"
    if m.cacheSharing ≠ "" then throw "secret mount should not define sharing"
    if m.source = "" ∧ m.target = "" ∧ m.cacheID = "" then
      throw "invalid secret mount. one of source, target required"
    if m.source ≠ "" ∧ m.cacheID ≠ "" then throw "both source and id can't be set"
  pure m

/-- `parseMount` from the fields of the record on: the loop from a bind mount with `roAuto`, then
the checks. -/
def parseMountFields (features : Features) (fields : List String) : Except String Mount := do
  let (m, roAuto) ← fields.foldlM (parseField features) ({ type := mountTypeBind }, true)
  checkMount m roAuto

/-- `parseMount`. -/
def parseMount (features : Features) (readCSV : String → Except String (List String))
    (value : String) : Except String Mount := do
  let fields ← match readCSV value with
    | .ok fields => pure fields
    | .error e => throw ("failed to parse csv mounts: " ++ e)
  parseMountFields features fields

/-- With secret mounts supported, a secret mount whose type comes before `required` is parsed,
and the same fields with `required` first are not. -/
theorem parseMountFields_required_before_type :
    parseMountFields ⟨true, false⟩ ["type=secret", "target=/run/secrets/token", "required"] =
        .ok { type := "secret", target := "/run/secrets/token", readOnly := true,
              required := true } ∧
      parseMountFields ⟨true, false⟩ ["required", "type=secret", "target=/run/secrets/token"] =
        .error "invalid field 'required' must be a key=value pair" := by
  decide +kernel

end Instructions

end Buildkit
