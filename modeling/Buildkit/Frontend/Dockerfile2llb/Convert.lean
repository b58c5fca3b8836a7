import Buildkit.Lib.Strings
import Buildkit.Client.Llb.Meta

/-!
# The variables of a Dockerfile stage

How `Dockerfile2LLB` of `frontend/dockerfile/dockerfile2llb/convert.go` keeps the variables of a
stage. An ENV instruction sets its bindings twice, in the environment of the LLB state
(`AddEnv`) and in the config of the image (`addEnv`); an ARG is appended to the build arguments
of the stage, with its value resolved by `dispatchArg`. The words of an instruction are expanded
with `toEnvMap` of the build arguments and the config, and a RUN emits an exec op whose
environment is that of the state with `AddEnv` of each build argument in turn.

Over any run of instructions from the start of a stage the state and the config hold the same
variables, those the ENV instructions leave over the base (`agrees_dispatchAll`). From that
(`dispatch_variables`): the expansion map gives a key its ENV binding, and else the value of its
*first* ARG, since `toEnvMap` keeps the first of several; and the environment of a RUN gives a
key the value of its *latest* ARG, and only else its ENV binding, since `AddEnv` replaces. A
redeclared ARG is expanded with its old value, and an ARG overrides the ENV of its name in a RUN.

Instructions are taken with their words already expanded; the shell lexer that expands them is
not modelled, only the map it is given. `AddEnvf` passes the value through `fmt.Sprintf`, the
identity on a value without `%`, which the model takes for all values. `shell.EqualEnvKeys` is
equality, as on Unix.
-/

namespace Buildkit

namespace Dockerfile2llb

open Client

/-- `instructions.KeyValuePairOptional`: an ARG, with its default if it has one. -/
structure KeyValuePairOptional where
  key : String
  value : Option String
  deriving DecidableEq, Repr

/-- `KeyValuePairOptional.ValueString`. -/
def KeyValuePairOptional.valueString (kv : KeyValuePairOptional) : String := kv.value.getD ""

/-- `instructions.KeyValuePair` of an ENV instruction. The parser splits a binding at its first
`=`, so a key has none. -/
structure KeyValuePair where
  key : String
  value : String
  key_ok : '=' ∉ key.toList

/-- The instructions of a stage that read or set its variables, with their words expanded. -/
inductive Command
  | env (kvs : List KeyValuePair)
  | arg (kv : KeyValuePairOptional)
  | run (cmdLine : List String)

/-! ## The config environment -/

/-- `parseKeyValue`: an entry split at its first `=`. -/
def parseKeyValue (env : String) : String × String := (Strings.cut env "=").getD (env, "")

/-- `shell.BuildEnvs`: the first entry of a key wins, and an entry without `=` binds itself to the
empty string. -/
def buildEnvs (env : List String) : String → Option String :=
  env.foldl (fun m e =>
    match Strings.cut e "=" with
    | none => fun k => if k = e then some "" else m k
    | some (k, v) => if (m k).isSome then m else fun k' => if k' = k then some v else m k')
    fun _ => none

/-- `addEnv`: the first entry of the key replaced, or a new one appended. -/
def addEnv : List String → String → String → List String
  | [], k, v => [k ++ "=" ++ v]
  | e :: env, k, v => if (parseKeyValue e).1 = k then (k ++ "=" ++ v) :: env else e :: addEnv env k v

/-- An entry of a config environment as images write them: a key without `=`, `=`, the value. -/
def EnvEntry (e : String) : Prop := ∃ k v, '=' ∉ k.toList ∧ e = k ++ "=" ++ v

theorem cut_entry {k : String} (v : String) (hk : '=' ∉ k.toList) :
    Strings.cut (k ++ "=" ++ v) "=" = some (k, v) :=
  Strings.cut_append_of_not_mem v (by decide) hk

theorem parseKeyValue_entry {k : String} (v : String) (hk : '=' ∉ k.toList) :
    parseKeyValue (k ++ "=" ++ v) = (k, v) := by
  rw [parseKeyValue, cut_entry v hk]
  rfl

/-- On entries as images write them, `BuildEnvs` looks a key up as an `EnvList` does. -/
theorem buildEnvs_eq_get {env : List String} (h : ∀ e ∈ env, EnvEntry e) (k : String) :
    buildEnvs env k = EnvList.get (env.map parseKeyValue) k := by
  -- the fold keeps what the entries before gave, and adds what the rest give of new keys
  suffices ∀ (m : String → Option String) (env : List String), (∀ e ∈ env, EnvEntry e) →
      ∀ k, env.foldl (fun m e =>
        match Strings.cut e "=" with
        | none => fun k => if k = e then some "" else m k
        | some (k, v) => if (m k).isSome then m else fun k' => if k' = k then some v else m k') m k =
        (m k).orElse fun _ => EnvList.get (env.map parseKeyValue) k from this _ env h k
  intro m env
  induction env generalizing m with
  | nil => intro _ k; rw [List.foldl_nil]; cases m k <;> rfl
  | cons e env ih =>
    intro h k
    obtain ⟨k₀, v₀, hk₀, rfl⟩ := h _ List.mem_cons_self
    rw [List.foldl_cons, cut_entry v₀ hk₀, List.map_cons, parseKeyValue_entry v₀ hk₀, EnvList.get_cons]
    dsimp only
    rw [ih _ (fun e he => h e (List.mem_cons_of_mem _ he))]
    cases hm : m k₀ with
    | some w =>
      by_cases hk : k₀ = k
      · subst hk; simp [hm]
      · simp [hk]
    | none =>
      by_cases hk : k₀ = k
      · subst hk; simp [hm]
      · simp [hk, Ne.symm hk]

theorem get_addEnv (env : List String) {k : String} (v : String) (hk : '=' ∉ k.toList) (k' : String) :
    EnvList.get ((addEnv env k v).map parseKeyValue) k' =
      if k = k' then some v else EnvList.get (env.map parseKeyValue) k' := by
  induction env with
  | nil => simp [addEnv, parseKeyValue_entry v hk, EnvList.get_cons]
  | cons e env ih =>
    by_cases he : (parseKeyValue e).1 = k
    · -- the entry replaced has the key, so the new one hides the rest as it did
      simp only [addEnv, he, if_true, List.map_cons, parseKeyValue_entry v hk, EnvList.get_cons]
      by_cases h : k = k' <;> simp [h]
    · simp only [addEnv, he, if_false, List.map_cons, EnvList.get_cons, ih]
      by_cases h : (parseKeyValue e).1 = k' <;> by_cases h' : k = k' <;> simp_all

theorem envEntry_addEnv {env : List String} (h : ∀ e ∈ env, EnvEntry e) {k : String} (v : String)
    (hk : '=' ∉ k.toList) : ∀ e ∈ addEnv env k v, EnvEntry e := by
  induction env with
  | nil => simpa [addEnv] using ⟨k, v, hk, rfl⟩
  | cons e env ih =>
    have hrest := fun e he => h e (List.mem_cons_of_mem _ he)
    by_cases he : (parseKeyValue e).1 = k
    · simp only [addEnv, he, if_true, List.forall_mem_cons]
      exact ⟨⟨k, v, hk, rfl⟩, hrest⟩
    · simp only [addEnv, he, if_false, List.forall_mem_cons]
      exact ⟨h e List.mem_cons_self, ih hrest⟩

/-! ## Dispatch -/

/-- `setKVValue`: the build argument of the key as its value, if there is one. -/
def setKVValue (kvpo : KeyValuePairOptional) (values : String → Option String) :
    KeyValuePairOptional :=
  match values kvpo.key with
  | some v => { kvpo with value := some v }
  | none => kvpo

/-- `toEnvMap`: the config environment, then each build argument of a key it does not have. -/
def toEnvMap (args : List KeyValuePairOptional) (env : List String) : String → Option String :=
  args.foldl (fun m arg =>
    if (m arg.key).isSome then m else fun k => if k = arg.key then some arg.valueString else m k)
    (buildEnvs env)

/-- What `dispatch` reads and writes of a stage: the environment of `d.state`, the config
environment `d.image.Config.Env` and `d.buildArgs`. -/
structure DispatchState where
  state : EnvList
  imageEnv : List String
  buildArgs : List KeyValuePairOptional

/-- What of `dispatchOpt` the variables read: the ARGs before the first FROM and the build
arguments of the request. -/
structure DispatchOpt where
  metaArgs : List KeyValuePairOptional
  buildArgValues : String → Option String

/-- One binding of `dispatchEnv`. -/
def DispatchState.addEnvBinding (d : DispatchState) (e : KeyValuePair) : DispatchState :=
  { d with state := d.state.addOrReplace e.key e.value, imageEnv := addEnv d.imageEnv e.key e.value }

/-- `dispatchEnv`. -/
def dispatchEnv (d : DispatchState) (c : List KeyValuePair) : DispatchState :=
  c.foldl DispatchState.addEnvBinding d

@[simp] theorem buildArgs_dispatchEnv (d : DispatchState) (c : List KeyValuePair) :
    (dispatchEnv d c).buildArgs = d.buildArgs := by
  induction c generalizing d with
  | nil => rfl
  | cons e c ih => exact ih _

/-- The ARG `dispatchArg` records: `setKVValue`, and where that leaves no value, that of each
pre-FROM ARG of the key in turn. -/
def resolveArg (c : KeyValuePairOptional) (metaArgs : List KeyValuePairOptional)
    (buildArgValues : String → Option String) : KeyValuePairOptional :=
  let buildArg := setKVValue c buildArgValues
  if buildArg.value.isNone then
    metaArgs.foldl (fun b ma => if ma.key = b.key then { b with value := ma.value } else b) buildArg
  else buildArg

/-- `dispatchArg`. -/
def dispatchArg (d : DispatchState) (c : KeyValuePairOptional) (metaArgs : List KeyValuePairOptional)
    (buildArgValues : String → Option String) : DispatchState :=
  { d with buildArgs := d.buildArgs ++ [resolveArg c metaArgs buildArgValues] }

/-- The environment of the exec op `dispatchRun` emits: that of the state, with `AddEnv` of each
build argument in turn. The state itself keeps its environment. -/
def runEnv (d : DispatchState) : EnvList :=
  (d.buildArgs.map fun arg => (arg.key, arg.valueString)).foldl (fun e p => e.addOrReplace p.1 p.2)
    d.state

/-- The map the words of the next instruction are expanded with. -/
def wordMap (d : DispatchState) : String → Option String := toEnvMap d.buildArgs d.imageEnv

/-- `dispatch`, on the variables. -/
def dispatch (opt : DispatchOpt) (d : DispatchState) : Command → DispatchState
  | .env kvs => dispatchEnv d kvs
  | .arg kv => dispatchArg d kv opt.metaArgs opt.buildArgValues
  | .run _ => d

/-- The dispatch loop over the instructions of a stage. -/
def dispatchAll (opt : DispatchOpt) (d : DispatchState) (cmds : List Command) : DispatchState :=
  cmds.foldl (dispatch opt) d

/-- `system.DefaultPathEnv`, on Unix. -/
def defaultPathEnv : String := "/usr/local/sbin:/usr/local/bin:/usr/sbin:/usr/bin:/sbin:/bin"

/-- The start of a stage, on the state and the config of its base: `PATH` set if the config has
none, and each variable of the config added to the state. -/
def initStage (state : EnvList) (imageEnv : List String) : DispatchState :=
  let imageEnv :=
    if (buildEnvs imageEnv "PATH").isNone then imageEnv ++ ["PATH=" ++ defaultPathEnv] else imageEnv
  ⟨(imageEnv.map parseKeyValue).foldl (fun s p => s.addOrReplace p.1 p.2) state, imageEnv, []⟩

/-! ## The variables the instructions set -/

/-- The ENV bindings in effect after `cmds`, over those of the base: a later binding of a key
replaces an earlier one. -/
def envIn (base : String → Option String) : List Command → String → Option String
  | [] => base
  | .env kvs :: cmds => envIn (kvs.foldl (fun m e k => if k = e.key then some e.value else m k) base) cmds
  | .arg _ :: cmds | .run _ :: cmds => envIn base cmds

/-- The value of an ARG: the build argument, else its default, else that of the last pre-FROM
ARG of the key; the empty string where none has one. -/
def argValue (opt : DispatchOpt) (c : KeyValuePairOptional) : String :=
  match opt.buildArgValues c.key with
  | some v => v
  | none =>
    match c.value with
    | some v => v
    | none => (((opt.metaArgs.filter (·.key = c.key)).getLast?).bind (·.value)).getD ""

/-- The value of the latest ARG of each key in `cmds`. -/
def argIn (opt : DispatchOpt) : List Command → String → Option String
  | [] => fun _ => none
  | .arg c :: cmds => fun k => (argIn opt cmds k).orElse fun _ =>
    if k = c.key then some (argValue opt c) else none
  | .env _ :: cmds | .run _ :: cmds => argIn opt cmds

/-- The value of the first ARG of each key in `cmds`. -/
def firstArgIn (opt : DispatchOpt) : List Command → String → Option String
  | [] => fun _ => none
  | .arg c :: cmds => fun k => if k = c.key then some (argValue opt c) else firstArgIn opt cmds k
  | .env _ :: cmds | .run _ :: cmds => firstArgIn opt cmds

/-! ## The expansion map and the environment of a RUN -/

/-- `toEnvMap` gives a key its config binding, and else the value of its first build argument. -/
theorem toEnvMap_eq (args : List KeyValuePairOptional) (env : List String) (k : String) :
    toEnvMap args env k =
      (buildEnvs env k).orElse fun _ => (args.find? (·.key = k)).map (·.valueString) := by
  rw [toEnvMap]
  generalize buildEnvs env = m
  induction args generalizing m with
  | nil => rw [List.foldl_nil]; cases m k <;> rfl
  | cons arg args ih =>
    rw [List.foldl_cons, ih]
    cases hm : m arg.key with
    | some w =>
      -- the key is bound already: the argument is passed over, and it is not the first of `k`
      by_cases hk : arg.key = k
      · subst hk; simp [hm]
      · simp [hk]
    | none =>
      by_cases hk : arg.key = k
      · subst hk; simp [hm]
      · simp [hk, Ne.symm hk]

/-- The environment of a RUN gives a key the value of its latest build argument, and else the
one of the state. -/
theorem get_runEnv {d : DispatchState} (hnd : d.state.KeysNodup) (k : String) :
    (runEnv d).get k =
      ((d.buildArgs.reverse.find? (·.key = k)).map (·.valueString)).orElse fun _ => d.state.get k := by
  rw [runEnv, EnvList.get_foldl_addOrReplace _ hnd, ← List.map_reverse, List.find?_map]
  simp [Option.map_map, Function.comp_def]

/-! ## The state and the config agree -/

/-- The environment of the state and the config hold the same variables, `env`: the invariant
of the dispatch of a stage. -/
structure DispatchState.Agrees (d : DispatchState) (env : String → Option String) : Prop where
  state : ∀ k, d.state.get k = env k
  image : ∀ k, EnvList.get (d.imageEnv.map parseKeyValue) k = env k
  stateKeys : d.state.KeysNodup
  entries : ∀ e ∈ d.imageEnv, EnvEntry e

/-- The variables after one ENV binding. -/
def bindEnv (env : String → Option String) (e : KeyValuePair) : String → Option String :=
  fun k => if k = e.key then some e.value else env k

theorem DispatchState.Agrees.addEnvBinding {d : DispatchState} {env : String → Option String}
    (h : d.Agrees env) (e : KeyValuePair) : (d.addEnvBinding e).Agrees (bindEnv env e) where
  state k := by
    rw [DispatchState.addEnvBinding, EnvList.get_addOrReplace h.stateKeys, h.state, bindEnv]
    by_cases hk : e.key = k
    · simp [hk]
    · simp [hk, Ne.symm hk]
  image k := by
    rw [DispatchState.addEnvBinding, get_addEnv _ _ e.key_ok, h.image, bindEnv]
    by_cases hk : e.key = k
    · simp [hk]
    · simp [hk, Ne.symm hk]
  stateKeys := EnvList.keysNodup_addOrReplace h.stateKeys _ _
  entries := envEntry_addEnv h.entries _ e.key_ok

theorem DispatchState.Agrees.dispatchEnv {d : DispatchState} {env : String → Option String}
    (h : d.Agrees env) (kvs : List KeyValuePair) :
    (Dockerfile2llb.dispatchEnv d kvs).Agrees (kvs.foldl bindEnv env) := by
  induction kvs generalizing d env with
  | nil => exact h
  | cons e kvs ih => exact ih (h.addEnvBinding e)

/-- The invariant holds over any run of instructions, with the variables the ENV instructions
leave. -/
theorem agrees_dispatchAll (opt : DispatchOpt) {d : DispatchState} {env : String → Option String}
    (h : d.Agrees env) (cmds : List Command) : (dispatchAll opt d cmds).Agrees (envIn env cmds) := by
  induction cmds generalizing d env with
  | nil => exact h
  | cons c cmds ih =>
    rw [dispatchAll, List.foldl_cons]
    cases c with
    | env kvs => exact ih (h.dispatchEnv kvs)
    | arg kv => exact ih ⟨h.state, h.image, h.stateKeys, h.entries⟩
    | run _ => exact ih h

/-- At the start of a stage the state and the config agree, for a config whose entries are
written as images write them, each key once, over a base state whose variables are all in the
config: the empty state of an image, or the state of a base stage. -/
theorem agrees_initStage {state : EnvList} {imageEnv : List String}
    (hwf : ∀ e ∈ imageEnv, EnvEntry e) (hkeys : EnvList.KeysNodup (imageEnv.map parseKeyValue))
    (hs : state.KeysNodup)
    (hsub : ∀ k, state.get k ≠ none → EnvList.get (imageEnv.map parseKeyValue) k ≠ none) :
    (initStage state imageEnv).Agrees
      (EnvList.get ((initStage state imageEnv).imageEnv.map parseKeyValue)) := by
  -- the config with `PATH`: still of entries, each key once, and with every key it had
  obtain ⟨hwf', hkeys', hsub'⟩ : (∀ e ∈ (initStage state imageEnv).imageEnv, EnvEntry e) ∧
      EnvList.KeysNodup ((initStage state imageEnv).imageEnv.map parseKeyValue) ∧
      ∀ k, state.get k ≠ none →
        EnvList.get ((initStage state imageEnv).imageEnv.map parseKeyValue) k ≠ none := by
    simp only [initStage]
    split
    · rename_i hpath
      have hpath' : "PATH" ∉ (imageEnv.map parseKeyValue).map (·.1) := by
        rw [← EnvList.get_eq_none_iff, ← buildEnvs_eq_get hwf]
        simpa using hpath
      have hentry : parseKeyValue ("PATH=" ++ defaultPathEnv) = ("PATH", defaultPathEnv) :=
        parseKeyValue_entry (k := "PATH") defaultPathEnv (by decide)
      refine ⟨?_, ?_, ?_⟩
      · intro e he
        rcases List.mem_append.mp he with he | he
        · exact hwf e he
        · rw [List.mem_singleton.mp he]
          exact ⟨"PATH", defaultPathEnv, by decide, rfl⟩
      · simp only [EnvList.KeysNodup, List.map_append, List.map_cons, List.map_nil, hentry]
        rw [List.nodup_append]
        refine ⟨hkeys, List.nodup_singleton _, ?_⟩
        intro a ha b hb hab
        rw [List.mem_singleton.mp hb] at hab
        exact hpath' (hab ▸ ha)
      · intro k hk
        rw [List.map_append, List.map_singleton, hentry, EnvList.get_append_singleton]
        cases hget : EnvList.get (imageEnv.map parseKeyValue) k with
        | some v => simp
        | none => exact absurd hget (hsub k hk)
    · exact ⟨hwf, hkeys, hsub⟩
  refine ⟨fun k => ?_, fun _ => rfl, EnvList.keysNodup_foldl_addOrReplace _ hs, hwf'⟩
  -- the state is the base with each variable of the config set, and the base has no other
  show EnvList.get (((initStage state imageEnv).imageEnv.map parseKeyValue).foldl
    (fun s p => s.addOrReplace p.1 p.2) state) k = _
  rw [EnvList.get_foldl_addOrReplace_of_keysNodup hkeys' hs]
  cases hget : EnvList.get ((initStage state imageEnv).imageEnv.map parseKeyValue) k with
  | some v => rfl
  | none => exact (Option.not_isSome_iff_eq_none.mp fun hk =>
      hsub' k (Option.isSome_iff_ne_none.mp hk) hget)

/-! ## The build arguments -/

theorem key_resolveArg (c : KeyValuePairOptional) (metaArgs : List KeyValuePairOptional)
    (values : String → Option String) : (resolveArg c metaArgs values).key = c.key := by
  have hset : (setKVValue c values).key = c.key := by
    unfold setKVValue; split <;> rfl
  have hfold : ∀ (ms : List KeyValuePairOptional) (b : KeyValuePairOptional),
      (ms.foldl (fun b ma => if ma.key = b.key then { b with value := ma.value } else b) b).key =
        b.key := by
    intro ms
    induction ms with
    | nil => intro b; rfl
    | cons ma ms ih => intro b; rw [List.foldl_cons, ih]; split <;> rfl
  unfold resolveArg
  dsimp only
  split
  · rw [hfold, hset]
  · exact hset

/-- The pre-FROM ARGs give a key the value of the last of them. -/
theorem value_foldl_metaArgs (ms : List KeyValuePairOptional) (b : KeyValuePairOptional) :
    (ms.foldl (fun b ma => if ma.key = b.key then { b with value := ma.value } else b) b).value =
      (((ms.filter (·.key = b.key)).getLast?).map (·.value)).getD b.value := by
  induction ms generalizing b with
  | nil => rfl
  | cons ma ms ih =>
    rw [List.foldl_cons]
    by_cases hk : ma.key = b.key
    · rw [if_pos hk, ih]
      simp only [List.filter_cons, hk, decide_true, if_true, List.getLast?_cons]
      cases (ms.filter (·.key = b.key)).getLast? <;> rfl
    · rw [if_neg hk, ih]
      simp [hk]

/-- `dispatchArg` records an ARG with the value `argValue` gives it. -/
theorem valueString_resolveArg (opt : DispatchOpt) (c : KeyValuePairOptional) :
    (resolveArg c opt.metaArgs opt.buildArgValues).valueString = argValue opt c := by
  unfold resolveArg argValue setKVValue
  cases hb : opt.buildArgValues c.key with
  | some v => rfl
  | none =>
    cases hv : c.value with
    | some v => simp [hv, KeyValuePairOptional.valueString]
    | none =>
      simp only [hv, Option.isNone_none, if_true, KeyValuePairOptional.valueString,
        value_foldl_metaArgs]
      cases (opt.metaArgs.filter (·.key = c.key)).getLast? <;> rfl

/-- After a run of instructions, the first build argument of a key is that of the run, if it has
one. -/
theorem find?_buildArgs_dispatchAll (opt : DispatchOpt) (d : DispatchState) (cmds : List Command)
    (k : String) :
    ((dispatchAll opt d cmds).buildArgs.find? (·.key = k)).map (·.valueString) =
      ((d.buildArgs.find? (·.key = k)).map (·.valueString)).orElse fun _ => firstArgIn opt cmds k := by
  induction cmds generalizing d with
  | nil => rw [dispatchAll, List.foldl_nil]; cases d.buildArgs.find? (·.key = k) <;> rfl
  | cons c cmds ih =>
    rw [dispatchAll, List.foldl_cons, ← dispatchAll, ih]
    cases c with
    | arg c =>
      simp only [dispatch, dispatchArg, List.find?_append, firstArgIn]
      cases hf : d.buildArgs.find? (·.key = k) with
      | some a => rfl
      | none =>
        by_cases hk : k = c.key
        · simp [key_resolveArg, valueString_resolveArg, hk]
        · simp [key_resolveArg, hk, Ne.symm hk]
    | env kvs => rw [dispatch, buildArgs_dispatchEnv]; rfl
    | run _ => rfl

/-- After a run of instructions, the latest build argument of a key is that of the run, if it
has one. -/
theorem find?_reverse_buildArgs_dispatchAll (opt : DispatchOpt) (d : DispatchState)
    (cmds : List Command) (k : String) :
    ((dispatchAll opt d cmds).buildArgs.reverse.find? (·.key = k)).map (·.valueString) =
      (argIn opt cmds k).orElse fun _ => (d.buildArgs.reverse.find? (·.key = k)).map (·.valueString) := by
  induction cmds generalizing d with
  | nil => rfl
  | cons c cmds ih =>
    rw [dispatchAll, List.foldl_cons, ← dispatchAll, ih]
    cases c with
    | arg c =>
      simp only [dispatch, dispatchArg, List.reverse_append, List.reverse_cons, List.reverse_nil,
        List.nil_append, List.singleton_append, argIn]
      cases argIn opt cmds k with
      | some v => rfl
      | none =>
        by_cases hk : k = c.key
        · simp [key_resolveArg, valueString_resolveArg, hk]
        · simp [key_resolveArg, hk, Ne.symm hk]
    | env kvs => rw [dispatch, buildArgs_dispatchEnv]; rfl
    | run _ => rfl

/-! ## The variables an instruction sees -/

/-- From the start of a stage where the state and the config agree on `env`, the words of the
next instruction are expanded with the ENV binding of a key and else its *first* ARG, and a RUN
gives a key its *latest* ARG and only else its ENV binding. -/
theorem dispatch_variables {opt : DispatchOpt} {d : DispatchState} {env : String → Option String}
    (hd : d.Agrees env) (hargs : d.buildArgs = []) (cmds : List Command) (k : String) :
    wordMap (dispatchAll opt d cmds) k = (envIn env cmds k).orElse (fun _ => firstArgIn opt cmds k) ∧
      (runEnv (dispatchAll opt d cmds)).get k = (argIn opt cmds k).orElse fun _ => envIn env cmds k := by
  have hrun := agrees_dispatchAll opt hd cmds
  constructor
  · rw [wordMap, toEnvMap_eq, buildEnvs_eq_get hrun.entries, hrun.image,
      find?_buildArgs_dispatchAll, hargs]
    rfl
  · rw [get_runEnv hrun.stateKeys, find?_reverse_buildArgs_dispatchAll, hargs, hrun.state]
    cases argIn opt cmds k <;> rfl

/-- A stage on an image whose config sets only `PATH`: `ENV A=env`, `ARG A=arg`, `ARG B=1`,
`ARG B=2`. -/
def envArgStage : List Command :=
  [.env [⟨"A", "env", by decide⟩], .arg ⟨"A", some "arg"⟩, .arg ⟨"B", some "1"⟩,
    .arg ⟨"B", some "2"⟩]

/-- After that stage a word `$B` expands to `1`, though the latest ARG of `B` is `2`, and a RUN
sees `A=arg`, though the ENV binding of `A` is `env`. -/
theorem dispatch_variables_envArgStage :
    wordMap (dispatchAll ⟨[], fun _ => none⟩ (initStage [] ["PATH=/bin"]) envArgStage) "B" =
        some "1" ∧
      argIn ⟨[], fun _ => none⟩ envArgStage "B" = some "2" ∧
      (runEnv (dispatchAll ⟨[], fun _ => none⟩ (initStage [] ["PATH=/bin"]) envArgStage)).get "A" =
        some "arg" ∧
      envIn (EnvList.get ((initStage [] ["PATH=/bin"]).imageEnv.map parseKeyValue)) envArgStage "A" =
        some "env" := by
  have hd : (initStage [] ["PATH=/bin"]).Agrees
      (EnvList.get ((initStage [] ["PATH=/bin"]).imageEnv.map parseKeyValue)) :=
    agrees_initStage (by simpa using ⟨"PATH", "/bin", by decide, by decide⟩)
      (by unfold EnvList.KeysNodup; decide +kernel) List.nodup_nil fun _ h => (h rfl).elim
  refine ⟨(dispatch_variables hd rfl envArgStage "B").1.trans ?_, by decide +kernel,
    (dispatch_variables hd rfl envArgStage "A").2.trans ?_, by decide +kernel⟩ <;> decide +kernel

end Dockerfile2llb

end Buildkit
