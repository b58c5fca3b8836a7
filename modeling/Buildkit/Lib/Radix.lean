import Mathlib.Data.List.Basic

/-!
# Immutable radix trees

The immutable radix tree of `go-immutable-radix`, in the fork that adds a `Seek` to its nodes.
Keys are byte strings. A node has an optional leaf (the whole key and its value), the bytes of
the key it consumes (`pre`, the Go field `prefix`) and its edges, in ascending order of their
labels, each the first byte of its child's `pre`.

A transaction copies the nodes it changes and changes its own copies in place later on; no one
outside the transaction sees a copy before the commit, so a transaction here is its current
root, and `insert` and `delete` return the new one.

The loops and recursions that walk down the tree consume the bytes of a child's `pre`, which is
never empty, at each round: they run on fuel of one round more than their key has bytes. A
`Seeker` is the stack of positions of the Go iterator, innermost first; one `next` pushes each
node below the stack at most once and pops each position at most once, so it runs on fuel of
twice the nodes on the stack and one.
-/

namespace Radix

/-- A key of the tree. -/
abbrev Key := List UInt8

/-- `Node`; `pre` is the Go field `prefix`. -/
structure Node (α : Type) where
  leaf : Option (Key × α)
  pre : Key
  edges : List (UInt8 × Node α)

/-- `longestPrefix`: how many leading bytes two keys share. -/
def longestPrefix : Key → Key → Nat
  | a :: k₁, b :: k₂ => if a = b then longestPrefix k₁ k₂ + 1 else 0
  | _, _ => 0

namespace Node

variable {α : Type}

/-- The root of `New`. -/
def empty : Node α := ⟨none, [], []⟩

def isLeaf (n : Node α) : Bool := n.leaf.isSome

/-- `sort.Search` over the ascending labels: the index of the first edge whose label is not
below `label`. -/
def searchEdge (edges : List (UInt8 × Node α)) (label : UInt8) : Nat :=
  edges.findIdx fun e => decide (label ≤ e.1)

/-- `getEdge`: the index and child of the edge labelled `label`. -/
def getEdge (n : Node α) (label : UInt8) : Option (Nat × Node α) :=
  let idx := searchEdge n.edges label
  match n.edges[idx]? with
  | some e => if e.1 = label then some (idx, e.2) else none
  | none => none

/-- `addEdge`: the edge put where its label keeps the order. -/
def addEdge (n : Node α) (e : UInt8 × Node α) : Node α :=
  { n with edges := n.edges.insertIdx (searchEdge n.edges e.1) e }

/-- `replaceEdge`. `insert` calls it only at a label `getEdge` has found, where it does not
panic. -/
def replaceEdge (n : Node α) (e : UInt8 × Node α) : Node α :=
  let idx := searchEdge n.edges e.1
  match n.edges[idx]? with
  | some e' => if e'.1 = e.1 then { n with edges := n.edges.set idx e } else n
  | none => n

/-- `delEdge`. -/
def delEdge (n : Node α) (label : UInt8) : Node α :=
  let idx := searchEdge n.edges label
  match n.edges[idx]? with
  | some e => if e.1 = label then { n with edges := n.edges.eraseIdx idx } else n
  | none => n

/-- `nc.edges[idx].node = child`. -/
def setEdgeNode (n : Node α) (idx : Nat) (child : Node α) : Node α :=
  { n with edges := n.edges.modify idx fun e => (e.1, child) }

/-- `mergeChild`: a node without a leaf and with one edge joined with its child. -/
def mergeChild (n : Node α) : Node α :=
  match n.edges with
  | (_, child) :: _ => ⟨child.leaf, n.pre ++ child.pre, child.edges⟩
  | [] => n

mutual

/-- `recursiveWalk` with a function that never stops it: the leaves below a node, its own
first and then its children's in the order of their labels. -/
def walk : Node α → List (Key × α)
  | ⟨leaf, _, edges⟩ => leaf.toList ++ walkEdges edges

/-- The leaves below some edges, in their order. -/
def walkEdges : List (UInt8 × Node α) → List (Key × α)
  | [] => []
  | (_, n) :: es => walk n ++ walkEdges es
end

mutual

/-- The number of nodes of a tree. -/
def size : Node α → Nat
  | ⟨_, _, edges⟩ => sizeEdges edges + 1

/-- The number of nodes below some edges. -/
def sizeEdges : List (UInt8 × Node α) → Nat
  | [] => 0
  | (_, n) :: es => size n + sizeEdges es
end

/-! ### Lookups -/

/-- The loop of `GetWatch`, at the node `n` with the bytes `search` of the key still to find. -/
def getLoop : Nat → Node α → Key → Option α
  | 0, _, _ => none
  | _ + 1, n, [] => n.leaf.map (·.2)
  | fuel + 1, n, b :: search =>
    match n.getEdge b with
    | none => none
    | some (_, child) =>
      if child.pre.isPrefixOf (b :: search) then
        getLoop fuel child ((b :: search).drop child.pre.length)
      else none

/-- `Get`. -/
def get (n : Node α) (k : Key) : Option α := getLoop (k.length + 1) n k

/-- The loop of `WalkPrefix`: the leaves it calls its function on. -/
def walkPrefixLoop : Nat → Node α → Key → List (Key × α)
  | 0, _, _ => []
  | _ + 1, n, [] => n.walk
  | fuel + 1, n, b :: search =>
    match n.getEdge b with
    | none => []
    | some (_, child) =>
      if child.pre.isPrefixOf (b :: search) then
        walkPrefixLoop fuel child ((b :: search).drop child.pre.length)
      else if (b :: search).isPrefixOf child.pre then child.walk
      else []

/-- `WalkPrefix`: the leaves whose keys start with `k`, in order. -/
def walkPrefix (n : Node α) (k : Key) : List (Key × α) := walkPrefixLoop (k.length + 1) n k

/-! ### Writes of a transaction -/

/-- `insert`, at the node `n` with the bytes `search` of the key `k` still to place. -/
def insertAt (k : Key) (v : α) : Nat → Node α → Key → Node α
  | 0, n, _ => n
  | _ + 1, n, [] => { n with leaf := some (k, v) }
  | fuel + 1, n, b :: search =>
    match n.getEdge b with
    | none => n.addEdge (b, ⟨some (k, v), b :: search, []⟩)
    | some (idx, child) =>
      let commonPrefix := longestPrefix (b :: search) child.pre
      if commonPrefix = child.pre.length then
        n.setEdgeNode idx (insertAt k v fuel child ((b :: search).drop commonPrefix))
      else
        -- split the child where the keys part: a new node holds the common bytes, with the
        -- child below it (its label is in range, as `commonPrefix < child.pre.length` here)
        let modChild : Node α := { child with pre := child.pre.drop commonPrefix }
        let splitNode : Node α :=
          (⟨none, (b :: search).take commonPrefix, []⟩ : Node α).addEdge
            (child.pre.getD commonPrefix 0, modChild)
        let splitNode : Node α :=
          match (b :: search).drop commonPrefix with
          | [] => { splitNode with leaf := some (k, v) }
          | c :: rest => splitNode.addEdge (c, ⟨some (k, v), c :: rest, []⟩)
        n.replaceEdge (b, splitNode)

/-- `Txn.Insert`: the new root. -/
def insert (root : Node α) (k : Key) (v : α) : Node α := insertAt k v (k.length + 1) root k

/-- `delete`, at the node `n` with the bytes `search` of the key still to find; `isRoot` tells
the root of the transaction, which is never merged with its child. `none` is Go's `nil, nil`:
the key is not there. -/
def deleteAt (isRoot : Bool) : Nat → Node α → Key → Option (Node α × Option (Key × α))
  | 0, _, _ => none
  | _ + 1, n, [] =>
    if !n.isLeaf then none
    else
      let nc : Node α := { n with leaf := none }
      some (if !isRoot ∧ nc.edges.length = 1 then nc.mergeChild else nc, n.leaf)
  | fuel + 1, n, b :: search =>
    match n.getEdge b with
    | none => none
    | some (idx, child) =>
      if !child.pre.isPrefixOf (b :: search) then none
      else
        match deleteAt false fuel child ((b :: search).drop child.pre.length) with
        | none => none
        | some (newChild, leaf) =>
          if newChild.leaf.isNone ∧ newChild.edges = [] then
            let nc := n.delEdge b
            some (if !isRoot ∧ nc.edges.length = 1 ∧ !nc.isLeaf then nc.mergeChild else nc, leaf)
          else some (n.setEdgeNode idx newChild, leaf)

/-- `Txn.Delete`: the new root, and the value the key had. -/
def delete (root : Node α) (k : Key) : Node α × Option α :=
  match deleteAt true (k.length + 1) root k with
  | some (r, leaf) => (r, leaf.map (·.2))
  | none => (root, none)

end Node

/-! ### Iteration from a key -/

/-- `pos`: a node, the index of its next edge, and whether the leaf of that edge's node has been
returned. -/
structure Pos (α : Type) where
  n : Node α
  current : Nat
  isLeaf : Bool

/-- `Seeker`: its positions, the innermost first. -/
abbrev Seeker (α : Type) := List (Pos α)

namespace Node

variable {α : Type}

/-- The loop of `Seek`, at the node `n` with the bytes `search` still to find, below the
positions `prev`. It goes down as long as a child's bytes begin the rest of the key and the
child has edges, and stops past the edge it looked at last. -/
def seekLoop : Nat → Node α → Key → Seeker α → Seeker α
  | 0, n, _, prev => ⟨n, 0, false⟩ :: prev
  | _ + 1, n, [], prev => ⟨n, 0, false⟩ :: prev
  | fuel + 1, n, b :: search, prev =>
    let idx := searchEdge n.edges b
    match n.edges[idx]? with
    | some (_, child) =>
      if child.pre.isPrefixOf (b :: search) ∧ child.edges ≠ [] then
        seekLoop fuel child ((b :: search).drop child.pre.length) (⟨n, idx + 1, false⟩ :: prev)
      else ⟨n, idx + 1, false⟩ :: prev
    | none => ⟨n, idx + 1, false⟩ :: prev

/-- `Seek`. -/
def seek (n : Node α) (k : Key) : Seeker α := seekLoop (k.length + 1) n k []

end Node

namespace Seeker

variable {α : Type}

/-- The recursion of `Seeker.Next`: the next leaf, and the positions after it. -/
def nextLoop : Nat → Seeker α → Option (Key × α) × Seeker α
  | 0, s => (none, s)
  | _ + 1, [] => (none, [])
  | fuel + 1, p :: prev =>
    match p.n.edges[p.current]? with
    | none =>
      -- past the last edge: up one position, unless this is the outermost
      match prev with
      | [] => (none, [p])
      | _ :: _ => nextLoop fuel prev
    | some (_, node) =>
      match node.leaf with
      | some leaf =>
        if !p.isLeaf then (some leaf, ⟨p.n, p.current, true⟩ :: prev)
        else nextLoop fuel (⟨node, 0, false⟩ :: ⟨p.n, p.current + 1, false⟩ :: prev)
      | none => nextLoop fuel (⟨node, 0, false⟩ :: ⟨p.n, p.current + 1, false⟩ :: prev)

/-- `Next`. -/
def next (s : Seeker α) : Option (Key × α) × Seeker α :=
  nextLoop (s.foldr (fun p fuel => fuel + 2 * p.n.size + 1) 1) s

end Seeker

end Radix
