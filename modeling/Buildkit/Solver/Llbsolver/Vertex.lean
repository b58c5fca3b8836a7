import Mathlib.Data.List.AList
import Buildkit.Lib.Outcome
import Buildkit.Solver.Pb

/-!
# Loading a definition

`llbsolver.Load` of `solver/llbsolver/vertex.go`: every entry of `def.Def` is parsed into an op
under the digest of its bytes; the last entry is the terminal op, which is taken out, and the
vertex of its first input is loaded, each op once, through `newVertex` and the memoising `rec`.

The definition comes from a client. The loader checks that it is not empty and that every entry
parses; it indexes the inputs of the terminal op without a check, so a terminal op without inputs
makes it panic (`load_panics_of_no_inputs`).

The decoder of `pb.Op` is a parameter `unmarshal`, and `digest.FromBytes` is `fromBytes`. The
recursion of `rec` follows the inputs without a check for cycles; its depth is bounded by `fuel`,
and running out of it stands for the stack overflowing. `Load` gives it one more than the number
of entries, as many as a path of distinct digests can take. The vertex name (`llbOpName`) is left
out: of it only the dereference of the op is modelled.
-/

namespace Buildkit

namespace Llbsolver

/-- `solver.VertexOptions`, as `newVertex` sets it from the metadata. -/
structure VertexOptions where
  ignoreCache : Bool
  description : List (String × String)
  exportCache : Option Bool
  deriving DecidableEq, Repr

/-- `vertex`: its digest, its op, its options and its inputs, each an output index and the vertex
of the op that produces it (`solver.Edge`). -/
inductive Vertex where
  | mk (digest : Digest) (sys : Pb.Op) (options : VertexOptions) (inputs : List (Int × Vertex))

/-- `LoadOpt`: a check or an adjustment of the options of each op, which sees the op (nil for a
digest that names none), its metadata and the options so far. -/
abbrev LoadOpt := Option Pb.Op → Pb.OpMetadata → VertexOptions → Outcome VertexOptions

/-- The vertices loaded so far, by digest. -/
abbrev Cache := AList (fun _ : Digest => Vertex)

/-- The ops of a definition, by digest. -/
abbrev Ops := AList (fun _ : Digest => Pb.Op)

variable (fromBytes : String → Digest) (unmarshal : String → Except String Pb.Op)

/-- The first loop of `loadLLB`: each entry parsed and stored under the digest of its bytes,
and the digest of the last. -/
def parseOps (defs : List String) : Outcome (Ops × Digest) :=
  defs.foldlM (fun (acc : Ops × Digest) dt =>
    match unmarshal dt with
    | .error err => .error ("failed to parse llb proto op: " ++ err)
    | .ok op => .ok (acc.1.insert (fromBytes dt) op, fromBytes dt)) (∅, "")

/-- The options `newVertex` starts from. -/
def optionsOf (md : Pb.OpMetadata) : VertexOptions := ⟨md.ignoreCache, md.description, md.exportCache⟩

section rec

variable (allOps : Ops) (metadata : List (Digest × Pb.OpMetadata)) (opts : List LoadOpt)

/-- `rec` of `loadLLB`, with `fn` the closure of `Load`: a vertex loaded before is returned from
the cache; otherwise `newVertex` runs on the op under the digest (nil when there is none): the
options from the metadata, each `LoadOpt`, the op dereferenced, and its inputs loaded in order. -/
def rec : Nat → Digest → Cache → Outcome (Vertex × Cache)
  | 0, _, _ => .panic "runtime: goroutine stack exceeds limit"
  | fuel + 1, dgst, cache =>
    match cache.lookup dgst with
    | some v => .ok (v, cache)
    | none => do
      let op? := allOps.lookup dgst
      let md := ((metadata.lookup dgst).getD Pb.OpMetadata.zero)
      let opt ← opts.foldlM (fun opt fn => fn op? md opt) (optionsOf md)
      let op ← Outcome.deref op?
      let (inputs, cache) ← op.inputs.foldlM (fun (acc : List (Int × Vertex) × Cache) inp => do
        let (sub, cache) ← rec fuel inp.digest acc.2
        .ok (acc.1 ++ [(inp.index, sub)], cache)) ([], cache)
      let v := Vertex.mk dgst op opt inputs
      .ok (v, cache.insert dgst v)

end rec

/-- `Load`, which is `loadLLB` with the closure that calls `newVertex`: the loaded edge, an output
index and a vertex. -/
def load (d : Pb.Definition) (opts : List LoadOpt) : Outcome (Int × Vertex) :=
  if d.def.isEmpty then .error "invalid empty definition"
  else do
    let (allOps, dgst) ← parseOps fromBytes unmarshal d.def
    let lastOp ← Outcome.deref (allOps.lookup dgst)
    let allOps := allOps.erase dgst
    let inp ← Outcome.index lastOp.inputs 0
    let (v, _) ← rec allOps d.metadata opts (d.def.length + 1) inp.digest ∅
    .ok (inp.index, v)

/-! ## Parsing the entries -/

/-- The step of the parse loop. -/
def parseStep (acc : Ops × Digest) (dt : String) : Outcome (Ops × Digest) :=
  match unmarshal dt with
  | .error err => .error ("failed to parse llb proto op: " ++ err)
  | .ok op => .ok (acc.1.insert (fromBytes dt) op, fromBytes dt)

theorem parseOps_eq (defs : List String) :
    parseOps fromBytes unmarshal defs = defs.foldlM (parseStep fromBytes unmarshal) (∅, "") := rfl

/-- When every entry parses, the loop stores the op of the last entry under its digest. -/
theorem foldlM_parseStep_ok {defs : List String} (h : ∀ dt ∈ defs, ∃ op, unmarshal dt = .ok op)
    (acc : Ops × Digest) : ∃ allOps,
      defs.foldlM (parseStep fromBytes unmarshal) acc =
        .ok (allOps, (defs.getLast?.map fromBytes).getD acc.2) ∧
      (∀ dgst, dgst ∈ allOps ↔ dgst ∈ acc.1 ∨ ∃ dt ∈ defs, fromBytes dt = dgst) ∧
      ∀ dt ∈ defs.getLast?, ∀ op, unmarshal dt = .ok op → allOps.lookup (fromBytes dt) = some op := by
  induction defs generalizing acc with
  | nil => exact ⟨acc.1, rfl, fun _ => by simp, fun dt hdt => by cases hdt⟩
  | cons dt defs ih =>
    obtain ⟨op, hop⟩ := h dt List.mem_cons_self
    obtain ⟨allOps, hfold, hmem, hlast⟩ :=
      ih (fun dt' hdt' => h dt' (List.mem_cons_of_mem _ hdt')) (acc.1.insert (fromBytes dt) op,
        fromBytes dt)
    refine ⟨allOps, ?_, fun dgst => ?_, fun dt' hdt' op' hop' => ?_⟩
    · rw [List.foldlM_cons]
      simp only [parseStep, hop, Outcome.ok_bind, hfold]
      cases defs with
      | nil => rfl
      | cons a l =>
        rw [List.getLast?_cons_cons, List.getLast?_eq_some_getLast (List.cons_ne_nil a l)]
        rfl
    · rw [hmem, AList.mem_insert]
      constructor
      · rintro ((rfl | h) | ⟨dt'', hdt'', rfl⟩)
        · exact .inr ⟨dt, List.mem_cons_self, rfl⟩
        · exact .inl h
        · exact .inr ⟨dt'', List.mem_cons_of_mem _ hdt'', rfl⟩
      · rintro (h | ⟨dt'', hdt'', rfl⟩)
        · exact .inl (.inr h)
        · rcases List.mem_cons.mp hdt'' with rfl | hdt''
          · exact .inl (.inl rfl)
          · exact .inr ⟨dt'', hdt'', rfl⟩
    · cases defs with
      | nil =>
        -- the last entry is this one, and nothing is stored after it
        simp only [List.getLast?_singleton, Option.mem_def, Option.some.injEq] at hdt'
        subst hdt'
        rw [hop] at hop'
        cases hop'
        have hins : acc.1.insert (fromBytes dt) op = allOps := by simpa using hfold
        rw [← hins]
        exact AList.lookup_insert _
      | cons dt'' defs =>
        exact hlast dt' (by simpa using hdt') op' hop'

/-! ## What the loader checks, and where it panics -/

variable {fromBytes unmarshal}

/-- The parse of a definition whose entries all parse, with the last one `dt` parsing to `op`:
the ops of its entries, and `op` under the digest of `dt`. -/
theorem parseOps_of_last {defs : List String} {dt : String} {op : Pb.Op}
    (h : ∀ dt ∈ defs, ∃ op, unmarshal dt = .ok op) (hlast : defs.getLast? = some dt)
    (hop : unmarshal dt = .ok op) : ∃ allOps,
      parseOps fromBytes unmarshal defs = .ok (allOps, fromBytes dt) ∧
      (∀ dgst, dgst ∈ allOps ↔ ∃ dt ∈ defs, fromBytes dt = dgst) ∧
      allOps.lookup (fromBytes dt) = some op := by
  obtain ⟨allOps, hfold, hmem, hl⟩ := foldlM_parseStep_ok fromBytes unmarshal h (∅, "")
  refine ⟨allOps, ?_, fun dgst => by simpa using hmem dgst, hl dt (by simp [hlast]) op hop⟩
  rw [parseOps_eq, hfold, hlast]
  rfl

/-- A terminal op without inputs makes the load panic: `lastOp.Inputs[0]` is out of range. -/
theorem load_panics_of_no_inputs {d : Pb.Definition} (opts : List LoadOpt) {dt : String}
    {op : Pb.Op} (h : ∀ dt ∈ d.def, ∃ op, unmarshal dt = .ok op) (hlast : d.def.getLast? = some dt)
    (hop : unmarshal dt = .ok op) (hin : op.inputs = []) :
    load fromBytes unmarshal d opts = .panic "runtime error: index out of range" := by
  obtain ⟨allOps, hparse, -, hl⟩ := parseOps_of_last h hlast hop
  have hne : d.def.isEmpty = false := by
    cases hd : d.def with
    | nil => simp [hd] at hlast
    | cons _ _ => rfl
  rw [load, if_neg (by simp [hne]), hparse]
  simp [hl, hin]

/-- A definition of one empty entry, which decodes to the empty op, as protobuf decodes no bytes
to the message with every field unset. -/
theorem load_panics_empty_entry :
    load id (fun dt => if dt = "" then .ok ⟨[], .none⟩ else .error "unexpected EOF") ⟨[""], []⟩ [] =
      .panic "runtime error: index out of range" :=
  @load_panics_of_no_inputs _ _ _ [] _ ⟨[], .none⟩ (by simp) rfl (by simp) rfl

end Llbsolver

end Buildkit
