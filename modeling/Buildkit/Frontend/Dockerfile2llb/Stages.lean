import Mathlib.Logic.Relation
import Buildkit.Lib.Loop
import Buildkit.Lib.Outcome

/-!
# The stages of `Dockerfile2LLB`

How `Dockerfile2LLB` of `frontend/dockerfile/dockerfile2llb/convert.go` turns the stages of a
Dockerfile into states: each stage is added in file order (`addState`, which takes an earlier
stage named by `FROM` as its base), the commands of every stage are resolved once all stages are
known (`toCommand`, where `COPY --from` names a stage by name or index, any stage, or else an
image), each stage without a base gets the state of its image, and then the stages reachable
from the target are dispatched, again in file order, each command on the stage's state as it
is then, a `COPY --from` reading the state its source stage has at that moment.

So a stage reads every stage the loop has not reached yet at the state it had before the loop,
its image, without an error (`dispatch_reads_later_stage`).

Representation. The names are those of the source, in a namespace of their own, since
`DispatchState` of the environment model holds other fields of the same Go type. A dispatch
state is an object on a heap `objs` and the stages are pointers to it, as in the source, where
an unregistered stage found by index is added a second time. An `llb.State` is the term of the
calls that built it (`LState`). Of the instructions, only where a `COPY` takes its input from
matters here; every other one changes the stage's state by its text. The recursion of
`isReachable` has no bound in the source: it is given fuel, and its end is the stack overflow
of the Go code. The expansion of build arguments in `FROM`, platforms,
image configs (their environment, working directory and user, applied at the start of a stage)
and the normalization of image names are left out. So are the stages a `RUN --mount` with
`from=` reads: `toCommand` gives such a `RUN` its sources through `detectRunMount`
(convert.go:424, built with the tag `dfrunmount`), which looks each one up by name like a
`COPY --from`; here every `RUN` is an `other` instruction that reads no stage.
-/

namespace Buildkit

namespace Dockerfile2llb

namespace Stages

/-- An `llb.State` by the calls that built it: the zero state a stage with a base holds until it
is dispatched, `llb.Scratch`, `llb.Image`, the build context, a command run on a state, and a
copy into a state from another. -/
inductive LState
  | zero
  | scratch
  | image (ref : String)
  | buildContext
  | exec (s : LState) (cmd : String)
  | copy (s : LState) (src : LState)
  deriving DecidableEq, Repr

/-- An instruction of a stage: `COPY` with its `--from`, empty without one, or any other, by
its text. -/
inductive Instruction
  | copy («from» : String)
  | other (text : String)
  deriving DecidableEq, Repr

/-- `instructions.Stage`. -/
structure Stage where
  name : String
  baseName : String
  commands : List Instruction
  deriving DecidableEq, Repr

/-- `command`: the instruction and the stages it takes input from, by pointer. -/
structure Command where
  instruction : Instruction
  sources : List Nat
  deriving DecidableEq, Repr

/-- `dispatchState`, with the fields the dispatch of stages reads and writes. -/
structure DispatchState where
  stage : Stage
  base : Option Nat
  deps : List Nat
  commands : List Command
  state : LState
  unregistered : Bool
  deriving DecidableEq, Repr

/-- `dispatchStates`: the heap of dispatch states, the list `states` of pointers and
`statesByName`. -/
structure DispatchStates where
  objs : List DispatchState
  states : List Nat
  statesByName : List (String × Nat)
  deriving DecidableEq, Repr

/-- `emptyImageName`. -/
def emptyImageName : String := "scratch"

/-- `strconv.Atoi` of a decimal with an optional sign; the range check of `int` is left out. -/
def atoi (s : String) : Option Int :=
  let digits (cs : List Char) : Option Nat :=
    if cs ≠ [] ∧ cs.all Char.isDigit then
      some (cs.foldl (fun n c => 10 * n + (c.toNat - '0'.toNat)) 0)
    else none
  match s.toList with
  | '+' :: cs => (digits cs).map Int.ofNat
  | '-' :: cs => (digits cs).map fun n => -(n : Int)
  | cs => (digits cs).map Int.ofNat

/-! ## The heap of dispatch states -/

/-- The state of the dispatch state `p`. -/
def stateOf (objs : List DispatchState) (p : Nat) : LState :=
  ((objs[p]?).map (·.state)).getD .zero

/-- `p.state = s`. -/
def setState (objs : List DispatchState) (p : Nat) (s : LState) : List DispatchState :=
  objs.modify p fun ds => { ds with state := s }

/-- The stage graph `isReachable` walks: per pointer, the base and the dependencies. -/
def graph (objs : List DispatchState) : List (Option Nat × List Nat) :=
  objs.map fun ds => (ds.base, ds.deps)

/-- `isReachable`: whether `to` is `from`, or reachable from its base or one of its
dependencies. -/
def isReachable (ord : IterOrder Nat) (g : List (Option Nat × List Nat)) :
    Nat → Option Nat → Nat → Outcome Bool
  | _, none, _ => pure false
  | 0, some _, _ => .panic "runtime: goroutine stack exceeds limit"
  | fuel + 1, some f, t =>
    if f = t then pure true
    else do
      let (base, deps) ← Outcome.index g f
      let r ← isReachable ord g fuel base t
      if r then pure true
      else (ord.order deps).anyM fun d => isReachable ord g fuel (some d) t

namespace DispatchStates

/-- A new dispatch state on the heap, and its pointer. -/
def alloc (dss : DispatchStates) (ds : DispatchState) : DispatchStates × Nat :=
  ({ dss with objs := dss.objs ++ [ds] }, dss.objs.length)

/-- `addState`: the pointer joins `states`, takes the stage its base name names as its base, and
is named by its stage's name in lower case. -/
def addState (dss : DispatchStates) (p : Nat) : DispatchStates :=
  match dss.objs[p]? with
  | none => dss
  | some ds =>
    let objs :=
      match dss.statesByName.lookup ds.stage.baseName with
      | some d => dss.objs.set p { ds with base := some d }
      | none => dss.objs
    let byName :=
      if ds.stage.name ≠ "" then
        (ds.stage.name.toLower, p) :: dss.statesByName.filter (·.1 ≠ ds.stage.name.toLower)
      else dss.statesByName
    ⟨objs, dss.states ++ [p], byName⟩

/-- `findStateByName`. -/
def findStateByName (dss : DispatchStates) (name : String) : Option Nat :=
  dss.statesByName.lookup name.toLower

/-- `findStateByIndex`. -/
def findStateByIndex (dss : DispatchStates) (index : Int) : Outcome Nat :=
  if index < 0 ∨ index ≥ dss.states.length then .error ("invalid stage index " ++ toString index)
  else Outcome.index dss.states index.toNat

/-- `lastTarget`, which indexes `states` at its length less one. -/
def lastTarget (dss : DispatchStates) : Outcome Nat :=
  Outcome.index dss.states (dss.states.length - 1)

end DispatchStates

open DispatchStates

/-- A new `dispatchState` of a stage. -/
def newDispatchState (st : Stage) (unregistered : Bool) : DispatchState :=
  ⟨st, none, [], [], .zero, unregistered⟩

/-- The loop that sets the base state for every stage, in file order. -/
def addStages (stages : List Stage) : Outcome DispatchStates :=
  stages.foldlM (fun dss st =>
    if st.baseName = "" then .error ("base name (" ++ st.baseName ++ ") should not be blank")
    else
      let (dss, p) := dss.alloc (newDispatchState st false)
      pure (dss.addState p)) ⟨[], [], []⟩

/-- `toCommand`: a `COPY --from` takes its input from the stage of that index, or else of that
name, or else from a new unregistered stage of that image. -/
def toCommand (dss : DispatchStates) (ic : Instruction) : Outcome (Command × DispatchStates) :=
  match ic with
  | .copy f =>
    if f ≠ "" then
      match atoi f with
      | none =>
        match dss.findStateByName f with
        | some p => pure (⟨ic, [p]⟩, dss)
        | none =>
          let (dss, p) := dss.alloc (newDispatchState ⟨"", f, []⟩ true)
          pure (⟨ic, [p]⟩, dss)
      | some index => do
        let p ← dss.findStateByIndex index
        pure (⟨ic, [p]⟩, dss)
    else pure (⟨ic, []⟩, dss)
  | .other _ => pure (⟨ic, []⟩, dss)

/-- The body of the loop over the sources of a command of stage `d`: `d.deps[src]`, and an
unregistered source is added to the stages. -/
def addSource (d : Nat) (dss : DispatchStates) (src : Nat) : DispatchStates :=
  let dss := { dss with objs := dss.objs.modify d fun ds => { ds with deps := ds.deps.insert src } }
  match dss.objs[src]? with
  | some s => if s.unregistered then dss.addState src else dss
  | none => dss

/-- The loop that fills the dependencies of the stages, over the stages there are when it
starts. -/
def fillCommands (dss : DispatchStates) : Outcome DispatchStates :=
  dss.states.foldlM (fun dss d => do
    let ds ← Outcome.index dss.objs d
    let (cmds, dss) ← ds.stage.commands.foldlM
      (fun (acc : List Command × DispatchStates) ic => do
        let (cmd, dss) ← toCommand acc.2 ic
        pure (acc.1 ++ [cmd], cmd.sources.foldl (addSource d) dss))
      ([], dss)
    pure { dss with objs := dss.objs.modify d fun ds => { ds with commands := cmds } }) dss

/-- The loop that resolves the image of every stage without a base, which also asks whether
the stage is reachable from the target. -/
def resolveBases (ord : IterOrder Nat) (fuel target : Nat) (dss : DispatchStates) :
    Outcome DispatchStates :=
  dss.states.foldlM (fun dss d => do
    let _ ← isReachable ord (graph dss.objs) fuel (some target) d
    let ds ← Outcome.index dss.objs d
    match ds.base with
    | none =>
      let s := if ds.stage.baseName = emptyImageName then .scratch else .image ds.stage.baseName
      pure { dss with objs := setState dss.objs d s }
    | some _ => pure dss) dss

/-- `dispatch` of a command of stage `d`: a copy from the first source, as it is now, or from
the build context, or any other command. -/
def dispatchCmd (d : Nat) (objs : List DispatchState) (cmd : Command) : List DispatchState :=
  let cur := stateOf objs d
  let s :=
    match cmd.instruction with
    | .copy _ =>
      .copy cur (match cmd.sources with
        | [] => .buildContext
        | src :: _ => stateOf objs src)
    | .other text => .exec cur text
  setState objs d s

/-- `d.state = d.base.state` for a stage with a base. -/
def startFromBase (objs : List DispatchState) (d : Nat) : Option Nat → List DispatchState
  | some b => setState objs d (stateOf objs b)
  | none => objs

/-- The body of the dispatch loop: a stage reachable from the target starts from the state of
its base, if it has one, and dispatches its commands. -/
def dispatchStage (ord : IterOrder Nat) (fuel target : Nat) (objs : List DispatchState) (d : Nat) :
    Outcome (List DispatchState) := do
  let reachable ← isReachable ord (graph objs) fuel (some target) d
  if !reachable then pure objs
  else do
    let ds ← Outcome.index objs d
    pure (ds.commands.foldl (dispatchCmd d) (startFromBase objs d ds.base))

/-- `Dockerfile2LLB` up to the dispatch loop: the stages with their commands and images, and the
target, the stage named `targetName` or else the last one. -/
def prepareStages (ord : IterOrder Nat) (fuel : Nat) (stages : List Stage) (targetName : String) :
    Outcome (DispatchStates × Nat) := do
  let dss ← addStages stages
  let target ←
    if targetName = "" then dss.lastTarget
    else
      match dss.findStateByName targetName with
      | some p => pure p
      | none => .error ("target stage " ++ targetName ++ " could not be found")
  let dss ← fillCommands dss
  let dss ← resolveBases ord fuel target dss
  pure (dss, target)

/-- `Dockerfile2LLB`, up to the state of the target. -/
def dockerfile2LLB (ord : IterOrder Nat) (fuel : Nat) (stages : List Stage) (targetName : String) :
    Outcome LState := do
  let (dss, target) ← prepareStages ord fuel stages targetName
  let objs ← dss.states.foldlM (dispatchStage ord fuel target) dss.objs
  pure (stateOf objs target)

/-! ## The dispatch loop -/

/-- A dispatch state without its state: what the dispatch loop never writes. -/
def DispatchState.shape (ds : DispatchState) : DispatchState := { ds with state := .zero }

/-- The heap without the states. -/
def shape (objs : List DispatchState) : List DispatchState := objs.map DispatchState.shape

/-- The state a stage ends with when it is dispatched from `start`: each copy from another stage
reads that stage's state in `read`, and a copy from the stage itself its state so far. -/
def runCommands (read : Nat → LState) (d : Nat) (start : LState) (cmds : List Command) : LState :=
  cmds.foldl (fun cur cmd =>
    match cmd.instruction with
    | .copy _ =>
      .copy cur (match cmd.sources with
        | [] => .buildContext
        | src :: _ => if src = d then cur else read src)
    | .other text => .exec cur text) start

theorem stateOf_setState_ne {objs : List DispatchState} {p q : Nat} (s : LState) (h : q ≠ p) :
    stateOf (setState objs p s) q = stateOf objs q := by
  simp [stateOf, setState, Ne.symm h]

theorem stateOf_setState_self {objs : List DispatchState} {p : Nat} (s : LState)
    (h : p < objs.length) : stateOf (setState objs p s) p = s := by
  simp [stateOf, setState, h]

@[simp] theorem length_setState (objs : List DispatchState) (p : Nat) (s : LState) :
    (setState objs p s).length = objs.length :=
  List.length_modify _ _ _

@[simp] theorem shape_setState (objs : List DispatchState) (p : Nat) (s : LState) :
    shape (setState objs p s) = shape objs := by
  unfold shape setState
  apply List.map_modify_of_eq
  intro _
  rfl

/-- The stage graph is part of the shape. -/
theorem graph_eq_of_shape {objs objs' : List DispatchState} (h : shape objs' = shape objs) :
    graph objs' = graph objs := by
  have hg : ∀ o : List DispatchState, graph o = (shape o).map fun ds => (ds.base, ds.deps) := by
    intro o
    simp [graph, shape, DispatchState.shape, Function.comp_def]
  rw [hg, hg, h]

theorem getElem?_of_shape {objs objs' : List DispatchState} (h : shape objs' = shape objs)
    {d : Nat} {ds : DispatchState} (hds : objs[d]? = some ds) :
    ∃ ds', objs'[d]? = some ds' ∧ ds'.base = ds.base ∧ ds'.commands = ds.commands := by
  have hd : (shape objs')[d]? = some ds.shape := by rw [h]; simp [shape, hds]
  rw [shape, List.getElem?_map] at hd
  obtain ⟨ds', hds', he⟩ := Option.map_eq_some_iff.mp hd
  have hb : ds'.shape.base = ds.shape.base := congrArg DispatchState.base he
  have hc : ds'.shape.commands = ds.shape.commands := congrArg DispatchState.commands he
  exact ⟨ds', hds', hb, hc⟩

theorem shape_dispatchCmd (d : Nat) (objs : List DispatchState) (cmd : Command) :
    shape (dispatchCmd d objs cmd) = shape objs :=
  shape_setState _ _ _

theorem stateOf_dispatchCmd_ne {d q : Nat} (objs : List DispatchState) (cmd : Command)
    (h : q ≠ d) : stateOf (dispatchCmd d objs cmd) q = stateOf objs q :=
  stateOf_setState_ne _ h

/-- By induction on the commands: the commands of stage `d` change only its state, which ends as
`runCommands` says, every other stage read at its state before them. -/
theorem stateOf_foldl_dispatchCmd {d : Nat} (read : Nat → LState) (cmds : List Command) :
    ∀ {objs : List DispatchState}, d < objs.length → (∀ q ≠ d, stateOf objs q = read q) →
      stateOf (cmds.foldl (dispatchCmd d) objs) d = runCommands read d (stateOf objs d) cmds := by
  induction cmds with
  | nil => intro objs _ _; rfl
  | cons cmd cmds ih =>
    intro objs hd hread
    rw [List.foldl_cons, ih (by simpa [dispatchCmd] using hd) fun q hq => by
      rw [stateOf_dispatchCmd_ne _ _ hq, hread q hq]]
    -- one command: the state the source has is the one `read` gives, or the stage's own
    simp only [runCommands, List.foldl_cons]
    congr 1
    unfold dispatchCmd
    rw [stateOf_setState_self _ hd]
    cases cmd with
    | mk instruction sources =>
      cases instruction with
      | other text => rfl
      | copy f =>
        cases sources with
        | nil => rfl
        | cons src _ =>
          by_cases hs : src = d
          · subst hs; simp
          · simp [hs, hread src hs]

theorem shape_foldl_dispatchCmd (d : Nat) (cmds : List Command) (objs : List DispatchState) :
    shape (cmds.foldl (dispatchCmd d) objs) = shape objs := by
  induction cmds generalizing objs with
  | nil => rfl
  | cons cmd cmds ih => rw [List.foldl_cons, ih, shape_dispatchCmd]

theorem stateOf_foldl_dispatchCmd_ne {d q : Nat} (h : q ≠ d) (cmds : List Command)
    (objs : List DispatchState) : stateOf (cmds.foldl (dispatchCmd d) objs) q = stateOf objs q := by
  induction cmds generalizing objs with
  | nil => rfl
  | cons cmd cmds ih => rw [List.foldl_cons, ih, stateOf_dispatchCmd_ne _ _ h]

theorem shape_startFromBase (objs : List DispatchState) (d : Nat) (base : Option Nat) :
    shape (startFromBase objs d base) = shape objs := by
  cases base with
  | none => rfl
  | some b => exact shape_setState _ _ _

theorem stateOf_startFromBase_ne {objs : List DispatchState} {d q : Nat} (base : Option Nat)
    (h : q ≠ d) : stateOf (startFromBase objs d base) q = stateOf objs q := by
  cases base with
  | none => rfl
  | some b => exact stateOf_setState_ne _ h

section

variable {ord : IterOrder Nat} {fuel target : Nat}

/-- `dispatchStage` writes the state of its own stage and nothing else. -/
theorem dispatchStage_frame {objs objs' : List DispatchState} {d : Nat}
    (h : dispatchStage ord fuel target objs d = .ok objs') :
    shape objs' = shape objs ∧ ∀ q ≠ d, stateOf objs' q = stateOf objs q := by
  obtain ⟨r, -, h⟩ := Outcome.bind_eq_ok.mp h
  split at h
  · cases h; exact ⟨rfl, fun _ _ => rfl⟩
  · obtain ⟨ds, -, h⟩ := Outcome.bind_eq_ok.mp h
    cases h
    refine ⟨by rw [shape_foldl_dispatchCmd, shape_startFromBase], fun q hq => ?_⟩
    rw [stateOf_foldl_dispatchCmd_ne hq, stateOf_startFromBase_ne _ hq]

/-- A reachable stage dispatches its commands from the state of its base. -/
theorem dispatchStage_of_reachable {objs : List DispatchState} {d : Nat} {ds : DispatchState}
    (hds : objs[d]? = some ds) (hr : isReachable ord (graph objs) fuel (some target) d = .ok true) :
    dispatchStage ord fuel target objs d =
      .ok (ds.commands.foldl (dispatchCmd d) (startFromBase objs d ds.base)) := by
  rw [dispatchStage, hr, Outcome.ok_bind]
  simp only [Bool.not_true, Bool.false_eq_true, if_false]
  rw [Outcome.index_eq_ok.mpr hds, Outcome.ok_bind, Outcome.pure_eq]

/-- Over a run of the dispatch loop, a stage it has not reached keeps its state. -/
theorem dispatchStages_frame {ps : List Nat} {objs₀ objs₁ : List DispatchState}
    (h : ps.foldlM (dispatchStage ord fuel target) objs₀ = .ok objs₁) :
    shape objs₁ = shape objs₀ ∧ ∀ q ∉ ps, stateOf objs₁ q = stateOf objs₀ q := by
  refine Outcome.foldlM_rel (fun a b => shape b = shape a ∧ ∀ q ∉ ps, stateOf b q = stateOf a q)
    (fun _ => ⟨rfl, fun _ _ => rfl⟩) ?_ ?_ h
  · intro _ _ _ h₁ h₂
    exact ⟨h₂.1.trans h₁.1, fun q hq => (h₂.2 q hq).trans (h₁.2 q hq)⟩
  · intro d hd a b hab
    obtain ⟨hs, hst⟩ := dispatchStage_frame hab
    exact ⟨hs, fun q hq => hst q fun hqd => hq (hqd ▸ hd)⟩

/-- When the dispatch loop reaches a stage reachable from the target, the stage ends with its
commands run from the state of its base, or its own, each copy from another stage reading that
stage's state at that moment; and every stage the loop has not dispatched yet still has the
state it had before the loop. -/
theorem dispatch_reads_later_stage {objs₀ objs : List DispatchState} {pre post : List Nat}
    {d : Nat} {ds : DispatchState}
    (h : (pre ++ d :: post).foldlM (dispatchStage ord fuel target) objs₀ = .ok objs)
    (hds : objs₀[d]? = some ds)
    (hreach : isReachable ord (graph objs₀) fuel (some target) d = .ok true) :
    ∃ objs₁, pre.foldlM (dispatchStage ord fuel target) objs₀ = .ok objs₁ ∧
      (∀ q ∉ pre, stateOf objs₁ q = stateOf objs₀ q) ∧
      ∃ objs₂, dispatchStage ord fuel target objs₁ d = .ok objs₂ ∧
        stateOf objs₂ d =
          runCommands (stateOf objs₁) d (stateOf (startFromBase objs₁ d ds.base) d) ds.commands := by
  rw [List.foldlM_append] at h
  obtain ⟨objs₁, h₁, h⟩ := Outcome.bind_eq_ok.mp h
  rw [List.foldlM_cons] at h
  obtain ⟨objs₂, h₂, -⟩ := Outcome.bind_eq_ok.mp h
  obtain ⟨hshape, hframe⟩ := dispatchStages_frame h₁
  -- the stage has the base and commands it had before the loop, and is still reachable
  obtain ⟨ds₁, hds₁, hbase, hcmds⟩ := getElem?_of_shape hshape hds
  have hreach₁ : isReachable ord (graph objs₁) fuel (some target) d = .ok true := by
    rw [graph_eq_of_shape hshape, hreach]
  have hd : d < (startFromBase objs₁ d ds.base).length := by
    cases ds.base <;> simpa [startFromBase] using (List.getElem?_eq_some_iff.mp hds₁).1
  refine ⟨objs₁, h₁, hframe, objs₂, h₂, ?_⟩
  rw [dispatchStage_of_reachable hds₁ hreach₁] at h₂
  cases h₂
  rw [hbase, hcmds, stateOf_foldl_dispatchCmd (stateOf objs₁) ds.commands hd fun q hq =>
    stateOf_startFromBase_ne _ hq]

end

/-! ## `isReachable`

The stage graph has an edge from a stage to its base and to each of its dependencies, and
`Reach` is its reflexive and transitive closure. `isReachable` answers `true` only of a stage
reachable from the one it starts from (`isReachable_sound`). It keeps no set of the stages it
has visited, so from a stage that reaches a cycle and not the stage asked for it follows the
cycle until the stack overflows, however deep the stack is (`isReachable_panics_of_bad`); and
`COPY --from` may name any stage, so two stages that copy from one another make a cycle. -/

/-- The stages a stage has an edge to: its base, then its dependencies. -/
def successors (g : List (Option Nat × List Nat)) (x : Nat) : List Nat :=
  match g[x]? with
  | some (base, deps) => base.toList ++ deps
  | none => []

/-- An edge of the stage graph. -/
def Edge (g : List (Option Nat × List Nat)) (x y : Nat) : Prop := y ∈ successors g x

/-- `to` is reachable from `from` along bases and dependencies, `from` itself included. -/
def Reach (g : List (Option Nat × List Nat)) : Nat → Nat → Prop := Relation.ReflTransGen (Edge g)

/-- Every base and dependency is a stage of the graph, as every pointer of the heap is. -/
def WellFormed (g : List (Option Nat × List Nat)) : Prop := ∀ x, ∀ y ∈ successors g x, y < g.length

/-- A stage that does not reach `t` but reaches a cycle. -/
def Bad (g : List (Option Nat × List Nat)) (t x : Nat) : Prop :=
  ¬ Reach g x t ∧ ∃ c, Reach g x c ∧ Relation.TransGen (Edge g) c c

section Reachable

variable {ord : IterOrder Nat} {g : List (Option Nat × List Nat)} {t : Nat}

theorem successors_of_getElem? {x : Nat} {base : Option Nat} {deps : List Nat}
    (h : g[x]? = some (base, deps)) : successors g x = base.toList ++ deps := by
  simp [successors, h]

theorem getElem?_of_edge {x y : Nat} (h : Edge g x y) : ∃ base deps, g[x]? = some (base, deps) := by
  unfold Edge successors at h
  split at h
  · next base deps hx => exact ⟨base, deps, hx⟩
  · cases h

/-- A bad stage has a bad successor: the next stage on its way to the cycle, or on the cycle. -/
theorem Bad.successor {x : Nat} (h : Bad g t x) : ∃ y, Edge g x y ∧ Bad g t y := by
  obtain ⟨hnt, c, hxc, hc⟩ := h
  rcases hxc.cases_head with rfl | ⟨y, hxy, hyc⟩
  · obtain ⟨y, hxy, hyc⟩ := Relation.TransGen.head'_iff.mp hc
    exact ⟨y, hxy, fun hyt => hnt (.head hxy hyt), x, hyc, hc⟩
  · exact ⟨y, hxy, fun hyt => hnt (.head hxy hyt), c, hyc, hc⟩

/-- `isReachable` answers `true` only of a reachable stage. -/
theorem isReachable_sound :
    ∀ fuel x, isReachable ord g fuel (some x) t = .ok true → Reach g x t
  | 0, _, h => by cases h
  | fuel + 1, x, h => by
    simp only [isReachable] at h
    split at h
    · next hxt => exact hxt ▸ .refl
    · obtain ⟨⟨base, deps⟩, hidx, h⟩ := Outcome.bind_eq_ok.mp h
      have hx := Outcome.index_eq_ok.mp hidx
      obtain ⟨r, hr, h⟩ := Outcome.bind_eq_ok.mp h
      split at h
      · -- the base answered `true`
        next hrt =>
        cases base with
        | none =>
          simp only [isReachable, Outcome.pure_eq, Outcome.ok.injEq] at hr
          exact absurd (hr.trans hrt) Bool.false_ne_true
        | some b =>
          exact .head (by simp [Edge, successors, hx]) (isReachable_sound fuel b (hrt ▸ hr))
      · -- a dependency answered `true`
        obtain ⟨d, hd, hdt⟩ := Outcome.anyM_eq_ok_true h
        exact .head (by simp [Edge, successors, hx, ord.mem_order.mp hd])
          (isReachable_sound fuel d hdt)

/-- On a well-formed graph, `isReachable` returns or overflows the stack: no index is out of
range. -/
theorem isReachable_okOrPanic (hg : WellFormed g) :
    ∀ fuel x, x < g.length →
      Outcome.OkOrPanic "runtime: goroutine stack exceeds limit" (isReachable ord g fuel (some x) t)
  | 0, _, _ => .inr rfl
  | fuel + 1, x, hx => by
    simp only [isReachable]
    split
    · exact .inl ⟨true, rfl⟩
    · obtain ⟨⟨base, deps⟩, hgx⟩ : ∃ p, g[x]? = some p := ⟨_, List.getElem?_eq_getElem hx⟩
      have hsucc := hg x
      rw [successors_of_getElem? hgx] at hsucc
      rw [Outcome.index_eq_ok.mpr hgx, Outcome.ok_bind]
      -- the call on the base returns, or overflows and so does the whole call
      have hbase : Outcome.OkOrPanic "runtime: goroutine stack exceeds limit"
          (isReachable ord g fuel base t) := by
        cases base with
        | none => exact .inl ⟨false, by simp [isReachable]⟩
        | some b => exact isReachable_okOrPanic hg fuel b (hsucc b (by simp))
      rcases hbase with ⟨r, hr⟩ | hr
      · rw [hr, Outcome.ok_bind]
        split
        · exact .inl ⟨true, rfl⟩
        · exact Outcome.anyM_okOrPanic fun d hd =>
            isReachable_okOrPanic hg fuel d (hsucc d (by simp [ord.mem_order.mp hd]))
      · rw [hr, Outcome.panic_bind]
        exact .inr rfl

/-- From a stage that reaches a cycle and not `t`, `isReachable` overflows the stack
whatever its depth: each call reaches a bad successor, every successor before it answering
`false` or overflowing. -/
theorem isReachable_panics_of_bad (hg : WellFormed g) :
    ∀ fuel x, Bad g t x →
      isReachable ord g fuel (some x) t = .panic "runtime: goroutine stack exceeds limit"
  | 0, _, _ => rfl
  | fuel + 1, x, hbad => by
    obtain ⟨y, hxy, hy⟩ := hbad.successor
    have hyp := isReachable_panics_of_bad hg fuel y hy
    have hxt : x ≠ t := fun h => hbad.1 (h ▸ .refl)
    obtain ⟨base, deps, hgx⟩ := getElem?_of_edge hxy
    -- no successor answers `true`, since none reaches `t`
    have hsucc : ∀ z ∈ successors g x, isReachable ord g fuel (some z) t = .ok false ∨
        isReachable ord g fuel (some z) t = .panic "runtime: goroutine stack exceeds limit" := by
      intro z hz
      rcases isReachable_okOrPanic hg fuel z (hg x z hz) with ⟨b, hb⟩ | hb
      · cases b with
        | true => exact absurd (isReachable_sound fuel z hb) fun hzt => hbad.1 (.head hz hzt)
        | false => exact .inl hb
      · exact .inr hb
    unfold Edge at hxy
    rw [successors_of_getElem? hgx] at hxy hsucc
    simp only [isReachable, if_neg hxt, Outcome.index_eq_ok.mpr hgx, Outcome.ok_bind]
    cases base with
    | none =>
      -- the bad successor is a dependency
      simp only [isReachable, Outcome.pure_eq, Outcome.ok_bind, Bool.false_eq_true, if_false]
      exact Outcome.anyM_eq_panic (fun d hd => hsucc d (by simpa using ord.mem_order.mp hd))
        ⟨y, ord.mem_order.mpr (by simpa using hxy), hyp⟩
    | some b =>
      rcases hsucc b (by simp) with hb | hb
      · -- the base answers `false`, so the bad successor is a dependency
        have hyb : y ≠ b := by
          rintro rfl
          rw [hyp] at hb
          cases hb
        rw [hb, Outcome.ok_bind, if_neg Bool.false_ne_true]
        exact Outcome.anyM_eq_panic (fun d hd => hsucc d (by simp [ord.mem_order.mp hd]))
          ⟨y, ord.mem_order.mpr (by simpa [hyb] using hxy), hyp⟩
      · rw [hb, Outcome.panic_bind]

/-- What a stage reaches stays in a set that holds it and the successors of each of its
stages. -/
theorem Reach.mem_of_closed {S : List Nat} (hS : ∀ a ∈ S, ∀ b ∈ successors g a, b ∈ S) {x y : Nat}
    (h : Reach g x y) (hx : x ∈ S) : y ∈ S := by
  induction h with
  | refl => exact hx
  | tail _ hbc ih => exact hS _ ih _ hbc

theorem wellFormed_of_forall (h : ∀ x < g.length, ∀ y ∈ successors g x, y < g.length) :
    WellFormed g := by
  intro x y hy
  by_cases hx : x < g.length
  · exact h x hx y hy
  · simp [successors, List.getElem?_eq_none (Nat.le_of_not_lt hx)] at hy

end Reachable

section

variable {ord : IterOrder Nat} {fuel target : Nat}

/-- `resolveBases` overflows the stack where one of the stages is bad for the target: the graph
stays what it was, and each call of `isReachable` returns or overflows. -/
theorem resolveBases_panics_of_bad {dss : DispatchStates} (hg : WellFormed (graph dss.objs))
    (ht : target < dss.objs.length) (hstates : ∀ d ∈ dss.states, d < dss.objs.length) {d : Nat}
    (hd : d ∈ dss.states) (hbad : Bad (graph dss.objs) d target) :
    resolveBases ord fuel target dss = .panic "runtime: goroutine stack exceeds limit" := by
  have hlen : ∀ s : DispatchStates, shape s.objs = shape dss.objs →
      s.objs.length = dss.objs.length := fun s h => by
    simpa [shape] using congrArg List.length h
  have ht' : target < (graph dss.objs).length := by simpa [graph] using ht
  refine Outcome.foldlM_eq_panic (fun s => shape s.objs = shape dss.objs) ?_ ?_ ⟨d, hd, ?_⟩ dss rfl
  · -- each stage is looked up in range, and only `isReachable` may overflow
    intro d' hd' s hs
    refine Outcome.okOrPanic_bind ?_ fun _ _ => ?_
    · rw [graph_eq_of_shape hs]
      exact isReachable_okOrPanic hg fuel target ht'
    · rw [Outcome.index_of_lt (by rw [hlen s hs]; exact hstates d' hd'), Outcome.ok_bind]
      split <;> exact .inl ⟨_, rfl⟩
  · intro d' _ s s' hs h
    obtain ⟨_, -, h⟩ := Outcome.bind_eq_ok.mp h
    obtain ⟨ds, -, h⟩ := Outcome.bind_eq_ok.mp h
    split at h
    · cases h
      simpa using hs
    · cases h
      exact hs
  · intro s hs
    show (isReachable ord (graph s.objs) fuel (some target) d >>= _) = _
    rw [graph_eq_of_shape hs, isReachable_panics_of_bad hg fuel target hbad, Outcome.panic_bind]

end

/-- Stages `a` and `b` copy from one another, and the target `d` copies from `a`; `c` is
reached from none of them. -/
def copyCycle : List Stage :=
  [⟨"a", "scratch", [.copy "b"]⟩, ⟨"b", "scratch", [.copy "a"]⟩, ⟨"c", "scratch", []⟩,
    ⟨"d", "scratch", [.copy "a"]⟩]

/-- The stage graph of `copyCycle`. -/
def copyCycleGraph : List (Option Nat × List Nat) :=
  [(none, [1]), (none, [0]), (none, []), (none, [0])]

/-- Stage `c` is bad for the target `d`: `d` reaches the cycle of `a` and `b`, and the three
reach nothing else. -/
theorem copyCycle_bad : Bad copyCycleGraph 2 3 := by
  refine ⟨fun h => ?_, 0, .single (show 0 ∈ successors copyCycleGraph 3 by decide), ?_⟩
  · have h2 := Reach.mem_of_closed (S := [3, 0, 1]) (by decide) h (by decide)
    simp at h2
  · exact .tail (.single (show 1 ∈ successors copyCycleGraph 0 by decide))
      (show 0 ∈ successors copyCycleGraph 1 by decide)

theorem dockerfile2LLB_copy_cycle_overflows (ord : IterOrder Nat) (fuel : Nat) :
    dockerfile2LLB ord fuel copyCycle "" = .panic "runtime: goroutine stack exceeds limit" := by
  -- the stages, the target and the graph before `resolveBases`, which reads no fuel
  have hrun : (do
      let dss ← addStages copyCycle
      let target ← dss.lastTarget
      let dss ← fillCommands dss
      pure (target, graph dss.objs, dss.states, dss.objs.length)) =
      Outcome.ok (3, copyCycleGraph, [0, 1, 2, 3], 4) := by decide +kernel
  obtain ⟨dss₀, h₀, h⟩ := Outcome.bind_eq_ok.mp hrun
  obtain ⟨target, hT, h⟩ := Outcome.bind_eq_ok.mp h
  obtain ⟨dss₁, h₁, h⟩ := Outcome.bind_eq_ok.mp h
  simp only [Outcome.pure_eq, Outcome.ok.injEq, Prod.mk.injEq] at h
  obtain ⟨rfl, hgraph, hstates, hlen⟩ := h
  have hres : resolveBases ord fuel 3 dss₁ = .panic "runtime: goroutine stack exceeds limit" :=
    resolveBases_panics_of_bad (by rw [hgraph]; exact wellFormed_of_forall (by decide))
      (by omega) (by rw [hstates, hlen]; decide) (d := 2) (by rw [hstates]; decide)
      (hgraph ▸ copyCycle_bad)
  simp only [dockerfile2LLB, prepareStages, h₀, Outcome.ok_bind, hT, h₁, hres, Outcome.panic_bind,
    if_true]

/-- Stage `a`, the target, copies from stage `b`, which comes after it. -/
def forwardCopy : List Stage :=
  [⟨"a", "busybox", [.copy "b"]⟩, ⟨"b", "alpine", [.other "RUN touch /x"]⟩]

/-- The stages of `forwardCopy` when the dispatch loop starts. -/
def forwardCopyStates : List DispatchState :=
  match prepareStages IterOrder.stored 10 forwardCopy "a" with
  | .ok (dss, _) => dss.objs
  | _ => []

theorem dispatch_reads_later_stage_forwardCopy :
    dockerfile2LLB IterOrder.stored 10 forwardCopy "a" =
        .ok (.copy (.image "busybox") (.image "alpine")) ∧
      ∃ objs₂, dispatchStage IterOrder.stored 10 0 forwardCopyStates 0 = .ok objs₂ ∧
        stateOf objs₂ 0 = .copy (.image "busybox") (stateOf forwardCopyStates 1) := by
  obtain ⟨objs, h⟩ := Outcome.exists_eq_ok_of_isOk
    (by decide +kernel : ([0, 1].foldlM (dispatchStage IterOrder.stored 10 0) forwardCopyStates).isOk)
  obtain ⟨ds, hds⟩ := Option.isSome_iff_exists.mp (by decide +kernel : forwardCopyStates[0]?.isSome)
  obtain ⟨objs₁, h₁, -, objs₂, h₂, hs⟩ :=
    @dispatch_reads_later_stage IterOrder.stored 10 0 forwardCopyStates objs [] [1] 0 ds h hds
      (by decide +kernel)
  cases h₁
  -- stage `a` has no base and one command, the copy from stage `b`, pointer 1
  have hc : (forwardCopyStates[0]?).map (fun ds => (ds.base, ds.commands)) =
      some (none, [⟨.copy "b", [1]⟩]) := by decide +kernel
  rw [hds, Option.map_some, Option.some.injEq, Prod.mk.injEq] at hc
  refine ⟨by decide +kernel, objs₂, h₂, hs.trans ?_⟩
  rw [hc.1, hc.2]
  decide +kernel

end Stages

end Dockerfile2llb

end Buildkit
