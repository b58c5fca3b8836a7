import Buildkit.Frontend.Dockerfile.Parser.Parse
import Buildkit.Frontend.Dockerfile.Instructions.Bflag
import Buildkit.Frontend.Dockerfile.Instructions.RunMount
import Buildkit.Lib.Sort

/-!
# Instructions and stages

`ParseInstruction` of `frontend/dockerfile/instructions/parse.go` turns a node of the parser
into a typed instruction: the parser of its command checks the number of its arguments, defines
the flags it takes and parses them (`BFlags.parse`), and builds the command; `FROM` begins a
stage. `Parse` goes over the children of the root in order: the `ARG`s before the first `FROM`
are the meta arguments, each `FROM` begins a stage, and every other instruction is a command of
the last stage begun, an error before the first.

What is proved: `Parse` refines the grouping of the instructions into stages (`parse_eq_ok_iff`):
it succeeds exactly when every instruction parses and none but an `ARG` comes before the first
`FROM`, and then its meta arguments are the `ARG`s in front, and its stages are the `FROM`s, each
with the commands that follow it up to the next (`groupStages`). Of the instructions:
`ENV` and `LABEL` read exactly the pairs their arguments spell, each key not blank
(`parseKvps_eq_ok_iff`); and `RUN` parses the values of its `--mount` flags in order, failing
where one does not parse (`parseRun_mounts`).

Representation. A node of the parser (`Parser.Node`) holds what its line parser returned: the
`Next` chain, whose nodes `ArgNode` has with their values and children, and whether
`Attributes["json"]` is set (`LineResult`). A command is a constructor of `Command`, with the
fields of its struct, `withNameAndCode` first. The hooks of `RUN` are those of the build tag
`dfrunmount`, under which `RUN` reads its `--mount` flags (`parseMount`). `time.ParseDuration` and
`strconv.ParseInt` are given (`Conv`), with the errors they return. `strings.ToUpper` and
`strings.ToLower` are `String.toUpper` and `String.toLower`, which change ASCII letters; the
characters of Unicode that `strings.EqualFold` folds onto an ASCII letter are the other cases of
the letter and, for `k` and `s`, the Kelvin sign and the long s (`foldsTo`). `sort.Strings` is
`sort.Sort` by `<`, whose order on strings is that of their UTF-8 bytes.
-/

namespace Buildkit

namespace Instructions

open Strings

/-! ## The nodes -/

/-- A node of the `Next` chain of an instruction, with what `nodeArgs` reads: its value and its
children, of which the one of a sub-command (`ONBUILD RUN ...`) is an instruction node. -/
inductive ArgNode
  | mk (value : String) (children : List ArgNode) (next : Option ArgNode)

/-- What a line parser returns for the node of an instruction: its `Next` and whether its
`Attributes["json"]` is set. -/
structure LineResult where
  next : Option ArgNode
  json : Bool

/-- `nodeArgs` from the `Next` of a node on. -/
def nodeArgsFrom : Option ArgNode → List String
  | none => []
  | some (.mk value [] next) => value :: nodeArgsFrom next
  | some (.mk _ [.mk value _ sub] next) => value :: nodeArgsFrom sub ++ nodeArgsFrom next
  | some (.mk _ _ next) => nodeArgsFrom next

/-- `nodeArgs`. -/
def nodeArgs (node : Parser.Node LineResult) : List String :=
  nodeArgsFrom (node.next.bind (·.next))

/-- `parseRequest`, with the one attribute read, `json`. -/
structure ParseRequest where
  command : String
  args : List String
  json : Bool
  flags : BFlags
  original : String

/-- `newParseRequestFromNode`. -/
def newParseRequestFromNode (node : Parser.Node LineResult) : ParseRequest :=
  { command := node.value
    args := nodeArgs node
    json := (node.next.map (·.json)).getD false
    original := node.original
    flags := newBFlagsWithArgs node.flags }

/-! ## The commands -/

/-- `KeyValuePair`. -/
structure KeyValuePair where
  key : String
  value : String
  deriving DecidableEq, Repr

/-- `KeyValuePairOptional`. -/
structure KeyValuePairOptional where
  key : String
  value : Option String
  deriving DecidableEq, Repr

/-- `withNameAndCode`. -/
structure WithNameAndCode where
  code : String
  name : String
  deriving DecidableEq, Repr

/-- `ShellDependantCmdLine`: a nil `CmdLine` is `none`. -/
structure ShellDependantCmdLine where
  cmdLine : Option (List String)
  prependShell : Bool
  deriving DecidableEq, Repr

/-- `container.HealthConfig`, its durations in nanoseconds. -/
structure HealthConfig where
  test : List String
  interval : Int := 0
  timeout : Int := 0
  startPeriod : Int := 0
  retries : Int := 0
  deriving DecidableEq, Repr

/-- `ArgCommand`. -/
structure ArgCommand where
  w : WithNameAndCode
  kvpo : KeyValuePairOptional
  deriving DecidableEq, Repr

/-- The commands of `commands.go`, each with the fields of its struct. -/
inductive Command
  | env (w : WithNameAndCode) (env : List KeyValuePair)
  | maintainer (w : WithNameAndCode) (maintainer : String)
  | label (w : WithNameAndCode) (labels : List KeyValuePair)
  | add (w : WithNameAndCode) (sourcesAndDest : List String) (chown : String)
  | copy (w : WithNameAndCode) (sourcesAndDest : List String) («from» chown : String)
  | onbuild (w : WithNameAndCode) (expression : String)
  | workdir (w : WithNameAndCode) (path : String)
  | run (w : WithNameAndCode) (cmdLine : ShellDependantCmdLine) (mounts : List Mount)
  | cmd (w : WithNameAndCode) (cmdLine : ShellDependantCmdLine)
  | healthcheck (w : WithNameAndCode) (health : HealthConfig)
  | entrypoint (w : WithNameAndCode) (cmdLine : ShellDependantCmdLine)
  | expose (w : WithNameAndCode) (ports : List String)
  | user (w : WithNameAndCode) (user : String)
  | volume (w : WithNameAndCode) (volumes : List String)
  | stopSignal (w : WithNameAndCode) (signal : String)
  | arg (a : ArgCommand)
  | shell (w : WithNameAndCode) (shell : List String)
  deriving DecidableEq, Repr

/-- `Stage`. -/
structure Stage where
  name : String
  commands : List Command
  baseName : String
  sourceCode : String
  platform : String
  deriving DecidableEq, Repr

/-- What `ParseInstruction` returns: a stage begun by `FROM`, or a command. -/
inductive Instruction
  | stage (s : Stage)
  | command (c : Command)
  deriving DecidableEq, Repr

/-- `AddCommand`. -/
def Stage.addCommand (s : Stage) (cmd : Command) : Stage := { s with commands := s.commands ++ [cmd] }

/-! ## The errors -/

def errAtLeastOneArgument (command : String) : String := s!"{command} requires at least one argument"

def errExactlyOneArgument (command : String) : String := s!"{command} requires exactly one argument"

def errNoDestinationArgument (command : String) : String :=
  s!"{command} requires at least two arguments, but only one was provided. Destination could not be determined."

def errBlankCommandNames (command : String) : String := s!"{command} names can not be blank"

def errTooManyArguments (command : String) : String := s!"Bad input to {command}, too many arguments"

/-- `errNotJSON` of `errors_unix.go`. -/
def errNotJSON (command _original : String) : String :=
  s!"{command} requires the arguments to be in JSON form"

/-! ## The library functions given -/

/-- `time.ParseDuration`, to nanoseconds, and `strconv.ParseInt(s, 10, 32)`, with the errors they
return. -/
structure Conv where
  parseDuration : String → Except String Int
  parseInt : String → Except String Int

/-- `container.MinimumDuration`, a millisecond. -/
def minimumDuration : Int := 1000000

/-- Whether `strings.EqualFold` folds the character `c` onto the ASCII lower-case letter `l`:
`l` itself, its upper case, and the Kelvin sign for `k` and the long s for `s`. -/
def foldsTo (c l : Char) : Bool :=
  c == l || c == l.toUpper || (l == 'k' && c == 'K') || (l == 's' && c == 'ſ')

/-- `strings.EqualFold(s, t)` for a `t` of ASCII lower-case letters. -/
def equalFoldLower (s t : String) : Bool :=
  s.length == t.length && (s.toList.zip t.toList).all fun p => foldsTo p.1 p.2

/-- `[a-z]`. -/
def isLowerAlpha (c : Char) : Bool := 'a' ≤ c && c ≤ 'z'

/-- `^[a-z][a-z0-9-_\.]*$`. -/
def validStageName (s : String) : Bool :=
  match s.toList with
  | [] => false
  | c :: cs => isLowerAlpha c && cs.all fun d => isLowerAlpha d || d.isDigit || d == '-' || d == '_' || d == '.'

/-- `\s` of Go's regular expressions: `[\t\n\f\r ]`. -/
def isPerlSpace (c : Char) : Bool := c == ' ' || c == '\t' || c == '\n' || c == '\x0C' || c == '\r'

/-- `(?i)^\s*ONBUILD\s*` replaced by nothing: the text after the keyword and the spaces that
follow it, or all of it where it does not start so. -/
def stripOnbuild (original : String) : String :=
  let rest := original.toList.dropWhile isPerlSpace
  if (String.ofList (rest.take 7)).toUpper = "ONBUILD" then
    String.ofList ((rest.drop 7).dropWhile isPerlSpace)
  else original

/-- `sort.Strings`: `sort.Sort` by `<`, which never panics, so that the fallback is not reached. -/
def sortStrings (l : List String) : List String :=
  match GoSort.sortSlice (fun a b => pure (decide (a < b))) l with
  | .ok l' => l'
  | _ => l

/-! ## The parsers of the instructions -/

/-- `newWithNameAndCode`. -/
def newWithNameAndCode (req : ParseRequest) : WithNameAndCode := ⟨trimSpace req.original, req.command⟩

/-- The loop of `parseKvps`, two arguments an iteration. -/
def kvpsLoop (cmdName : String) : List String → Except String (List KeyValuePair)
  | name :: value :: rest =>
    if name.length = 0 then .error (errBlankCommandNames cmdName)
    else (kvpsLoop cmdName rest).map (⟨name, value⟩ :: ·)
  | _ => .ok []

/-- `parseKvps`. -/
def parseKvps (args : List String) (cmdName : String) : Except String (List KeyValuePair) :=
  if args.length = 0 then .error (errAtLeastOneArgument cmdName)
  else if args.length % 2 ≠ 0 then .error (errTooManyArguments cmdName)
  else kvpsLoop cmdName args

def parseEnv (req : ParseRequest) : Except String Command := do
  let _ ← req.flags.parse
  let envs ← parseKvps req.args "ENV"
  pure (.env (newWithNameAndCode req) envs)

def parseMaintainer (req : ParseRequest) : Except String Command := do
  if req.args.length ≠ 1 then throw (errExactlyOneArgument "MAINTAINER")
  let _ ← req.flags.parse
  pure (.maintainer (newWithNameAndCode req) (req.args.headD ""))

def parseLabel (req : ParseRequest) : Except String Command := do
  let _ ← req.flags.parse
  let labels ← parseKvps req.args "LABEL"
  pure (.label (newWithNameAndCode req) labels)

def parseAdd (req : ParseRequest) : Except String Command := do
  if req.args.length < 2 then throw (errNoDestinationArgument "ADD")
  let flags ← (req.flags.addString "chown" "").parse
  let flChown := (flags.flags "chown").map (·.value)
  pure (.add (newWithNameAndCode req) req.args (flChown.getD ""))

def parseCopy (req : ParseRequest) : Except String Command := do
  if req.args.length < 2 then throw (errNoDestinationArgument "COPY")
  let flags ← ((req.flags.addString "chown" "").addString "from" "").parse
  let flChown := (flags.flags "chown").map (·.value)
  let flFrom := (flags.flags "from").map (·.value)
  pure (.copy (newWithNameAndCode req) req.args (flFrom.getD "") (flChown.getD ""))

/-- `parseBuildStageName`. -/
def parseBuildStageName (args : List String) : Except String String :=
  match args with
  | [_, as_, name] =>
    if equalFoldLower as_ "as" then
      let stageName := name.toLower
      if validStageName stageName then .ok stageName
      else .error s!"invalid name for build stage: {Shell.quote stageName}, name can't start with a number or contain symbols"
    else .error "FROM requires either one or three arguments"
  | [_] => .ok ""
  | _ => .error "FROM requires either one or three arguments"

def parseFrom (req : ParseRequest) : Except String Stage := do
  let stageName ← parseBuildStageName req.args
  let flags ← (req.flags.addString "platform" "").parse
  let flPlatform := (flags.flags "platform").map (·.value)
  let code := trimSpace req.original
  pure { baseName := req.args.headD "", name := stageName, sourceCode := code, commands := [],
         platform := flPlatform.getD "" }

def parseOnBuild (req : ParseRequest) : Except String Command := do
  if req.args.length = 0 then throw (errAtLeastOneArgument "ONBUILD")
  let _ ← req.flags.parse
  let triggerInstruction := (trimSpace (req.args.headD "")).toUpper
  match triggerInstruction.toUpper with
  | "ONBUILD" => throw "Chaining ONBUILD via `ONBUILD ONBUILD` isn't allowed"
  | "MAINTAINER" | "FROM" => throw s!"{triggerInstruction} isn't allowed as an ONBUILD trigger"
  | _ => pure (.onbuild (newWithNameAndCode req) (stripOnbuild req.original))

def parseWorkdir (req : ParseRequest) : Except String Command := do
  if req.args.length ≠ 1 then throw (errExactlyOneArgument "WORKDIR")
  let _ ← req.flags.parse
  pure (.workdir (newWithNameAndCode req) (req.args.headD ""))

/-- `handleJSONArgs`. -/
def handleJSONArgs (args : List String) (json : Bool) : List String :=
  if args.length = 0 then [] else if json then args else [" ".intercalate args]

/-- `parseShellDependentCommand`. -/
def parseShellDependentCommand (req : ParseRequest) (emptyAsNil : Bool) : ShellDependantCmdLine :=
  let args := handleJSONArgs req.args req.json
  ⟨if emptyAsNil ∧ args.length = 0 then none else some args, !req.json⟩

/-- `parseRun` with the hooks of `commands_runmount.go`: `runMountPreHook` defines the flag
`mount`, and `runMountPostHook` parses each of its values. -/
def parseRun (features : Features) (readCSV : String → Except String (List String))
    (req : ParseRequest) : Except String Command := do
  let flags ← (req.flags.addStrings "mount").parse
  let cmdLine := parseShellDependentCommand req false
  let values := ((flags.flags "mount").map (·.stringValues)).getD []
  let mounts ← values.mapM (parseMount features readCSV)
  pure (.run (newWithNameAndCode req) cmdLine mounts)

def parseCmd (req : ParseRequest) : Except String Command := do
  let _ ← req.flags.parse
  pure (.cmd (newWithNameAndCode req) (parseShellDependentCommand req false))

def parseEntrypoint (req : ParseRequest) : Except String Command := do
  let _ ← req.flags.parse
  pure (.entrypoint (newWithNameAndCode req) (parseShellDependentCommand req true))

/-- `parseOptInterval`: the duration of the flag, 0 if it is empty. -/
def parseOptInterval (conv : Conv) (f : Flag) : Except String Int :=
  if f.value = "" then .ok 0 else do
  let d ← conv.parseDuration f.value
  if d < minimumDuration then .error s!"Interval {Shell.quote f.name} cannot be less than 1ms"
  else .ok d

/-- The flags of `HEALTHCHECK CMD`, by name. -/
def flagOf (flags : BFlags) (name : String) : Flag := (flags.flags name).getD ⟨name, .stringType, "", []⟩

/-- The test of `parseHealthcheck`, the `switch typ`: `CMD` and its command, which the shell runs
where the arguments are not JSON. -/
def healthcheckTest (typ : String) (args : List String) (json : Bool) : Except String (List String) :=
  match typ with
  | "CMD" =>
    let cmdSlice := handleJSONArgs args json
    if cmdSlice.length = 0 then .error "Missing command after HEALTHCHECK CMD"
    else .ok ((if !json then "CMD-SHELL" else typ) :: cmdSlice)
  | _ => .error s!"Unknown type {Shell.quote typ} in HEALTHCHECK (try CMD)"

/-- The retries of `parseHealthcheck`: 0 if the flag is empty. -/
def parseRetries (conv : Conv) (value : String) : Except String Int :=
  if value ≠ "" then do
    let retries ← conv.parseInt value
    if retries < 1 then .error s!"--retries must be at least 1 (not {retries})"
    else .ok retries
  else .ok 0

def parseHealthcheck (conv : Conv) (req : ParseRequest) : Except String Command :=
  if req.args.length = 0 then .error (errAtLeastOneArgument "HEALTHCHECK") else
  let typ := (req.args.headD "").toUpper
  let args := req.args.drop 1
  if typ = "NONE" then
    if args.length ≠ 0 then .error "HEALTHCHECK NONE takes no arguments"
    else .ok (.healthcheck (newWithNameAndCode req) { test := [typ] })
  else do
    let flags ← ((((req.flags.addString "interval" "").addString "timeout" "").addString
      "start-period" "").addString "retries" "").parse
    let test ← healthcheckTest typ args req.json
    let interval ← parseOptInterval conv (flagOf flags "interval")
    let timeout ← parseOptInterval conv (flagOf flags "timeout")
    let startPeriod ← parseOptInterval conv (flagOf flags "start-period")
    let retries ← parseRetries conv (flagOf flags "retries").value
    pure (.healthcheck (newWithNameAndCode req)
      { test := test, interval := interval, timeout := timeout, startPeriod := startPeriod,
        retries := retries })

def parseExpose (req : ParseRequest) : Except String Command := do
  if req.args.length = 0 then throw (errAtLeastOneArgument "EXPOSE")
  let _ ← req.flags.parse
  pure (.expose (newWithNameAndCode req) (sortStrings req.args))

def parseUser (req : ParseRequest) : Except String Command := do
  if req.args.length ≠ 1 then throw (errExactlyOneArgument "USER")
  let _ ← req.flags.parse
  pure (.user (newWithNameAndCode req) (req.args.headD ""))

/-- The loop of `parseVolume`. -/
def volumesLoop : List String → Except String (List String)
  | [] => .ok []
  | v :: rest =>
    let v := trimSpace v
    if v = "" then .error "VOLUME specified can not be an empty string"
    else (volumesLoop rest).map (v :: ·)

def parseVolume (req : ParseRequest) : Except String Command := do
  if req.args.length = 0 then throw (errAtLeastOneArgument "VOLUME")
  let _ ← req.flags.parse
  let volumes ← volumesLoop req.args
  pure (.volume (newWithNameAndCode req) volumes)

def parseStopSignal (req : ParseRequest) : Except String Command := do
  if req.args.length ≠ 1 then throw (errExactlyOneArgument "STOPSIGNAL")
  pure (.stopSignal (newWithNameAndCode req) (req.args.headD ""))

def parseArg (req : ParseRequest) : Except String Command := do
  if req.args.length ≠ 1 then throw (errExactlyOneArgument "ARG")
  let arg := req.args.headD ""
  -- `strings.SplitN(arg, "=", 2)`: the text before the first `=` and all after it
  let kvpo ← match cut arg "=" with
    | some (key, value) =>
      if key.length = 0 then throw (errBlankCommandNames "ARG")
      pure ⟨key, some value⟩
    | none => pure ⟨arg, none⟩
  pure (.arg ⟨newWithNameAndCode req, kvpo⟩)

def parseShell (req : ParseRequest) : Except String Command := do
  let _ ← req.flags.parse
  let shellSlice := handleJSONArgs req.args req.json
  if shellSlice.length = 0 then throw (errAtLeastOneArgument "SHELL")
  else if req.json then pure (.shell (newWithNameAndCode req) shellSlice)
  else throw (errNotJSON "SHELL" req.original)

/-- What the frontend is built with: the tags of `RUN --mount`, and the library functions. -/
structure Env where
  features : Features
  readCSV : String → Except String (List String)
  conv : Conv

/-- `ParseInstruction`. -/
def parseInstruction (env : Env) (node : Parser.Node LineResult) : Except String Instruction :=
  let req := newParseRequestFromNode node
  let command (r : Except String Command) := r.map Instruction.command
  match node.value with
  | "env" => command (parseEnv req)
  | "maintainer" => command (parseMaintainer req)
  | "label" => command (parseLabel req)
  | "add" => command (parseAdd req)
  | "copy" => command (parseCopy req)
  | "from" => (parseFrom req).map Instruction.stage
  | "onbuild" => command (parseOnBuild req)
  | "workdir" => command (parseWorkdir req)
  | "run" => command (parseRun env.features env.readCSV req)
  | "cmd" => command (parseCmd req)
  | "healthcheck" => command (parseHealthcheck env.conv req)
  | "entrypoint" => command (parseEntrypoint req)
  | "expose" => command (parseExpose req)
  | "user" => command (parseUser req)
  | "volume" => command (parseVolume req)
  | "stopsignal" => command (parseStopSignal req)
  | "arg" => command (parseArg req)
  | "shell" => command (parseShell req)
  | _ => .error s!"unknown instruction: {node.value.toUpper}"

/-- `parseError`. -/
def parseError (inner : String) (node : Parser.Node LineResult) : String :=
  s!"Dockerfile parse error line {node.startLine}: {inner}"

/-- The type assertion `cmd.(*ArgCommand)`. -/
def Instruction.arg? : Instruction → Option ArgCommand
  | .command (.arg a) => some a
  | _ => none

/-- `CurrentStage`, and `AddCommand` on it: the last stage gets the command. -/
def addToCurrentStage (stages : List Stage) (c : Command) : Except String (List Stage) :=
  match stages.getLast? with
  | none => .error "No build stage in current context"
  | some s => .ok (stages.dropLast ++ [s.addCommand c])

/-- An iteration of the loop of `Parse` on an instruction that parsed: an `ARG` before the first
stage is a meta argument; else a stage is added, and a command goes to the last stage. -/
def parseStep (acc : List Stage × List ArgCommand) (cmd : Instruction) :
    Except String (List Stage × List ArgCommand) :=
  match acc.1.length, cmd.arg? with
  | 0, some a => .ok (acc.1, acc.2 ++ [a])
  | _, _ =>
    match cmd with
    | .stage c => .ok (acc.1 ++ [c], acc.2)
    | .command c => (addToCurrentStage acc.1 c).map (·, acc.2)

/-- `Parse`: the stages and the meta arguments. -/
def parse (env : Env) (ast : Parser.Node LineResult) :
    Except String (List Stage × List ArgCommand) :=
  ast.children.foldlM (fun acc n => do
    let cmd ← (parseInstruction env n).mapError (parseError · n)
    parseStep acc cmd) ([], [])

/-! ## `Parse` groups the instructions into stages -/

/-- What `Parse` is for, on the instructions in order: the commands before the first stage, and
each stage with the commands that follow it up to the next. -/
def groupStages : List Instruction → List Command × List Stage
  | [] => ([], [])
  | .command c :: rest => (c :: (groupStages rest).1, (groupStages rest).2)
  | .stage s :: rest =>
    ([], { s with commands := s.commands ++ (groupStages rest).1 } :: (groupStages rest).2)

/-- The `ARG`s in front of the instructions, and the instructions after them. -/
def leadingArgs : List Instruction → List ArgCommand × List Instruction
  | [] => ([], [])
  | i :: rest =>
    match i.arg? with
    | some a => (a :: (leadingArgs rest).1, (leadingArgs rest).2)
    | none => ([], i :: rest)

section Loop

variable {m : List ArgCommand} {init : List Stage} {last : Stage}

@[simp] theorem Instruction.arg?_eq_some {i : Instruction} {a : ArgCommand} :
    i.arg? = some a ↔ i = .command (.arg a) := by
  cases i with
  | stage s => simp [Instruction.arg?]
  | command c => cases c <;> simp [Instruction.arg?]

theorem addToCurrentStage_append (c : Command) :
    addToCurrentStage (init ++ [last]) c = .ok (init ++ [last.addCommand c]) := by
  simp [addToCurrentStage]

theorem parseStep_stage (acc : List Stage × List ArgCommand) (s : Stage) :
    parseStep acc (.stage s) = .ok (acc.1 ++ [s], acc.2) := by
  unfold parseStep
  split
  · simp_all [Instruction.arg?]
  · rfl

theorem parseStep_command_of_ne {acc : List Stage × List ArgCommand} (h : acc.1.length ≠ 0)
    (c : Command) : parseStep acc (.command c) = (addToCurrentStage acc.1 c).map (·, acc.2) := by
  unfold parseStep
  split
  · contradiction
  · rfl

/-- A command other than an `ARG` before the first stage is the error of `CurrentStage`. -/
theorem parseStep_command_nil {c : Command} (hc : (Instruction.command c).arg? = none) :
    parseStep ([], m) (.command c) = .error "No build stage in current context" := by
  unfold parseStep
  split
  · simp_all
  · rfl

/-- After the first stage, every instruction parses: each stage is added with the commands that
follow it, and the commands before the next stage go to the stage the loop is on. -/
theorem foldlM_parseStep_of_stage : ∀ (instrs : List Instruction) (init : List Stage) (last : Stage),
    instrs.foldlM parseStep (init ++ [last], m) =
      .ok (init ++ { last with commands := last.commands ++ (groupStages instrs).1 } ::
        (groupStages instrs).2, m)
  | [], init, last => by
    simp only [groupStages, List.append_nil, List.foldlM_nil]
    rfl
  | .stage s :: rest, init, last => by
    rw [List.foldlM_cons, parseStep_stage]
    have ih := foldlM_parseStep_of_stage rest (init ++ [last]) s
    simp only [bind, Except.bind] at ih ⊢
    rw [ih]
    simp [groupStages]
  | .command c :: rest, init, last => by
    have hne : (init ++ [last], m).1.length ≠ 0 := by simp
    rw [List.foldlM_cons, parseStep_command_of_ne hne, addToCurrentStage_append]
    have ih := foldlM_parseStep_of_stage rest init (last.addCommand c)
    simp only [Except.map, bind, Except.bind] at ih ⊢
    rw [ih]
    simp [groupStages, Stage.addCommand]

/-- Before the first stage, the `ARG`s in front are meta arguments; what follows them fails on a
command before a stage, and is grouped from the first stage on. -/
theorem foldlM_parseStep_nil : ∀ (instrs : List Instruction) (m : List ArgCommand),
    instrs.foldlM parseStep ([], m) =
      if (groupStages (leadingArgs instrs).2).1 = [] then
        .ok ((groupStages (leadingArgs instrs).2).2, m ++ (leadingArgs instrs).1)
      else .error "No build stage in current context"
  | [], m => by
    simp only [leadingArgs, groupStages, List.append_nil, List.foldlM_nil]
    rfl
  | i :: rest, m => by
    cases hi : i.arg? with
    | some a =>
      -- a meta argument: the loop goes on before the first stage
      obtain rfl := Instruction.arg?_eq_some.mp hi
      have ih := foldlM_parseStep_nil rest (m ++ [a])
      rw [List.foldlM_cons]
      simp only [leadingArgs, Instruction.arg?, List.append_assoc, List.singleton_append] at ih ⊢
      exact ih
    | none =>
      have hl : leadingArgs (i :: rest) = ([], i :: rest) := by simp [leadingArgs, hi]
      rw [hl, List.foldlM_cons]
      cases i with
      | stage s =>
        have h := foldlM_parseStep_of_stage rest [] s (m := m)
        rw [parseStep_stage]
        simp only [bind, Except.bind, List.nil_append] at h ⊢
        rw [h]
        simp [groupStages]
      | command c =>
        rw [parseStep_command_nil hi]
        simp [groupStages]
        rfl

end Loop

/-- The error of a branch that fails, or its value. -/
theorem ite_ok_eq_ok {ε σ : Type} {c : Prop} [Decidable c] {a b : σ} {e : ε} :
    (if c then Except.ok a else Except.error e) = .ok b ↔ c ∧ a = b := by
  by_cases hc : c
  · simp [hc]
  · simp [hc]

theorem parse_eq_ok_iff {env : Env} {ast : Parser.Node LineResult} {stages : List Stage}
    {metaArgs : List ArgCommand} :
    parse env ast = .ok (stages, metaArgs) ↔
      ∃ instrs, ast.children.mapM (parseInstruction env) = .ok instrs ∧
        (groupStages (leadingArgs instrs).2).1 = [] ∧
        stages = (groupStages (leadingArgs instrs).2).2 ∧ metaArgs = (leadingArgs instrs).1 := by
  -- the loop parses each child, then steps with it: it ends as the loop over what they parse to
  unfold parse
  rw [Outcome.except_foldlM_bind_eq_ok]
  simp only [Outcome.except_mapM_mapError_eq_ok, foldlM_parseStep_nil, ite_ok_eq_ok,
    List.nil_append, Prod.mk.injEq]
  constructor
  · rintro ⟨instrs, h, hc, hs, hm⟩
    exact ⟨instrs, h, hc, hs.symm, hm.symm⟩
  · rintro ⟨instrs, h, hc, hs, hm⟩
    exact ⟨instrs, h, hc, hs.symm, hm.symm⟩

/-! ## `ENV` and `LABEL` -/

/-- The arguments the pairs are written as: each key, then its value. -/
def KeyValuePair.flatten (kvs : List KeyValuePair) : List String :=
  kvs.flatMap fun kv => [kv.key, kv.value]

@[simp] theorem KeyValuePair.flatten_nil : KeyValuePair.flatten [] = [] := rfl

@[simp] theorem KeyValuePair.flatten_cons (kv : KeyValuePair) (kvs : List KeyValuePair) :
    KeyValuePair.flatten (kv :: kvs) = kv.key :: kv.value :: KeyValuePair.flatten kvs := rfl

theorem length_flatten_even (kvs : List KeyValuePair) :
    (KeyValuePair.flatten kvs).length % 2 = 0 := by
  induction kvs with
  | nil => rfl
  | cons kv kvs ih => simp only [KeyValuePair.flatten_cons, List.length_cons]; omega

/-- On an even number of arguments, the loop of `parseKvps` reads the pairs they spell, each key
not blank. -/
theorem kvpsLoop_eq_ok_iff {cmdName : String} {args : List String} {kvs : List KeyValuePair}
    (heven : args.length % 2 = 0) :
    kvpsLoop cmdName args = .ok kvs ↔
      args = KeyValuePair.flatten kvs ∧ ∀ kv ∈ kvs, kv.key ≠ "" := by
  induction args using kvpsLoop.induct generalizing kvs with
  | case1 name value rest hblank =>
    -- a blank key is the error, and no pairs spell the arguments with it
    rw [kvpsLoop, if_pos hblank]
    simp only [reduceCtorEq, false_iff, not_and]
    intro h
    cases kvs with
    | nil => cases h
    | cons kv kvs =>
      simp only [KeyValuePair.flatten_cons, List.cons.injEq] at h
      simp [← h.1, String.length_eq_zero_iff.mp hblank]
  | case2 name value rest hname ih =>
    rw [kvpsLoop, if_neg hname]
    simp only [List.length_cons] at heven
    constructor
    · intro h
      obtain ⟨kvs', hkvs', h⟩ : ∃ kvs', kvpsLoop cmdName rest = .ok kvs' ∧
          kvs = ⟨name, value⟩ :: kvs' := by
        cases hr : kvpsLoop cmdName rest with
        | error e => rw [hr] at h; cases h
        | ok kvs' => rw [hr] at h; cases h; exact ⟨kvs', rfl, rfl⟩
      obtain ⟨hflat, hkeys⟩ := (ih (by omega)).mp hkvs'
      subst h
      refine ⟨by simp [hflat], ?_⟩
      intro kv hkv
      rcases List.mem_cons.mp hkv with rfl | hkv
      · exact fun h => hname (String.length_eq_zero_iff.mpr h)
      · exact hkeys kv hkv
    · rintro ⟨hflat, hkeys⟩
      cases kvs with
      | nil => cases hflat
      | cons kv kvs =>
        simp only [KeyValuePair.flatten_cons, List.cons.injEq] at hflat
        obtain ⟨rfl, rfl, rfl⟩ := hflat
        have hrest := (ih (by omega)).mpr ⟨rfl, fun k hk => hkeys k (List.mem_cons_of_mem _ hk)⟩
        rw [hrest]
        rfl
  | case3 args hnot =>
    -- at most one argument is left, and an even number of them is none
    have hnil : args = [] := by
      rcases args with _ | ⟨a, _ | ⟨b, rest⟩⟩
      · rfl
      · simp at heven
      · exact absurd rfl (hnot a b rest)
    subst hnil
    constructor
    · intro h
      cases h
      exact ⟨rfl, nofun⟩
    · rintro ⟨hflat, -⟩
      cases kvs with
      | nil => rfl
      | cons kv kvs => cases hflat

theorem parseKvps_eq_ok_iff {args : List String} {cmdName : String} {kvs : List KeyValuePair} :
    parseKvps args cmdName = .ok kvs ↔
      kvs ≠ [] ∧ args = KeyValuePair.flatten kvs ∧ ∀ kv ∈ kvs, kv.key ≠ "" := by
  unfold parseKvps
  by_cases hnil : args.length = 0
  · rw [if_pos hnil]
    simp only [reduceCtorEq, false_iff, not_and]
    intro hkvs hflat
    cases kvs with
    | nil => exact absurd rfl hkvs
    | cons kv kvs => simp [hflat] at hnil
  · rw [if_neg hnil]
    by_cases hodd : args.length % 2 ≠ 0
    · rw [if_pos hodd]
      simp only [reduceCtorEq, false_iff, not_and]
      intro _ hflat
      exact absurd (hflat ▸ length_flatten_even kvs) hodd
    · rw [if_neg hodd, kvpsLoop_eq_ok_iff (by omega)]
      constructor
      · rintro ⟨hflat, hkeys⟩
        refine ⟨?_, hflat, hkeys⟩
        rintro rfl
        exact hnil (by simp [hflat])
      · rintro ⟨-, hflat, hkeys⟩
        exact ⟨hflat, hkeys⟩

/-! ## `RUN` -/

/-- The flags of `RUN` before its `Parse`: `mount`, a flag of strings with none. -/
theorem addStrings_mount_flags (args : List String) :
    ((newBFlagsWithArgs args).addStrings "mount").flags "mount" =
      some ⟨"mount", .stringsType, "", []⟩ := by
  simp [BFlags.addStrings, BFlags.addFlag, newBFlagsWithArgs, newBFlags]

theorem valuesOf_map_mount (vs : List String) :
    valuesOf (vs.map fun v => ("mount", v)) "mount" = vs := by
  induction vs with
  | nil => rfl
  | cons v vs ih => rw [List.map_cons, BFlags.valuesOf_cons, if_pos rfl, ih]

theorem parseRun_mounts {features : Features} {readCSV : String → Except String (List String)}
    {req : ParseRequest} (vs : List String)
    (hflags : req.flags = newBFlagsWithArgs (render (vs.map fun v => ("mount", v)))) :
    parseRun features readCSV req =
      (vs.mapM (parseMount features readCSV)).map
        (.run (newWithNameAndCode req) (parseShellDependentCommand req false)) := by
  -- `RUN` defines `mount` only, and the arguments give it the values in order
  have hfl := addStrings_mount_flags (render (vs.map fun v => ("mount", v)))
  rw [← hflags] at hfl
  obtain ⟨bf', hrun, hread⟩ := BFlags.parseArgs_render (vs.map fun v => ("mount", v))
    (req.flags.addStrings "mount")
    (by simp)
    (by
      intro p hp
      obtain ⟨v, -, rfl⟩ := List.mem_map.mp hp
      exact ⟨_, hfl, by decide, nofun⟩)
  have hparse : (req.flags.addStrings "mount").parse = .ok bf' := by
    rw [hflags] at hrun ⊢
    simpa [BFlags.parse, BFlags.addStrings, BFlags.addFlag, newBFlagsWithArgs, newBFlags] using hrun
  have hmount : bf'.flags "mount" = some ⟨"mount", .stringsType, "", vs⟩ := by
    rw [hread "mount", hfl, Option.map_some, valuesOf_map_mount,
      BFlags.foldl_assign_strings rfl]
    rfl
  unfold parseRun
  rw [hparse]
  simp only [bind, Except.bind, hmount, Option.map_some, Option.getD_some]
  cases vs.mapM (parseMount features readCSV) <;> rfl

theorem parseRun_mounts_cache :
    parseRun ⟨false, false⟩ (fun v => .ok (v.splitOn ","))
        { command := "run", args := ["make"], json := false,
          flags := newBFlagsWithArgs ["--mount=type=cache,target=/root/.cache"],
          original := "RUN --mount=type=cache,target=/root/.cache make" } =
      (["type=cache,target=/root/.cache"].mapM
          (parseMount ⟨false, false⟩ fun v => .ok (v.splitOn ","))).map
        (.run ⟨trimSpace "RUN --mount=type=cache,target=/root/.cache make", "run"⟩
          ⟨some ["make"], true⟩) :=
  parseRun_mounts ["type=cache,target=/root/.cache"] rfl

end Instructions

end Buildkit
