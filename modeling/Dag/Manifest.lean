import Mathlib.Data.List.AList
import Mathlib.Data.String.Basic
import Dag.GoSort

namespace Dag

/-!
# Manifests and the walk that builds them

`NewManifest` walks a DAG from its root through a node getter and describes it as a flat list
of node ids and a list of links between their positions.  The walk is the recursive
`mstate.addNode`, which threads the `mstate` record and the caller's `*weight` counter; after
it, `makeManifest` sorts the nodes twice and re-expresses every link by node positions.

A node is what the getter returns for an id: the targets of its `Links()`, and the two results
of `Size()`.  The getter is content addressed, so a node's `Cid()` is the id it was fetched by.
Go maps are association lists; a read of a missing key gives the zero value, as in Go.

The recursion of `addNode` is bounded by a `fuel` argument, one unit per nesting level; a run
that exhausts it gives `none`, which Go has no counterpart of.  `Dag.ManifestFuel` shows that
enough fuel always exists when the reachable part of the graph is finite.
-/

/-- The parts of an `ipld.Node` that the dag package reads. -/
structure Node where
  /-- the target ids of `Links()`, in order -/
  links : List String
  /-- both results of `Size()`: the byte size and an error -/
  size : UInt64 × Option String
  deriving Repr, DecidableEq

/-- `ipld.NodeGetter.Get`: the node stored under an id, or the error of the fetch. -/
abbrev NodeGetter := String → Except String Node

/-- The link targets of the node the getter returns for `u`; none when the fetch fails. -/
def outLinks (ng : NodeGetter) (u : String) : List String :=
  match ng u with
  | .ok node => node.links
  | .error _ => []

/-- A link of a fetched node is among its `outLinks`. -/
theorem mem_outLinks {ng : NodeGetter} {u t : String} {node : Node} (fetched : ng u = .ok node)
    (member : t ∈ node.links) : t ∈ outLinks ng u := by
  rw [outLinks, fetched]
  exact member

/-- The ids reachable from `root` by following the links of the nodes the getter returns. -/
inductive Reachable (ng : NodeGetter) (root : String) : String → Prop where
  | root : Reachable ng root root
  | link {u t : String} {node : Node} :
      Reachable ng root u → ng u = .ok node → t ∈ node.links → Reachable ng root t

/-- A node getter over a table of ids and their links, every node of size 0; an id missing
from the table fails to fetch. -/
def tableGetter (table : List (String × List String)) : NodeGetter := fun id =>
  match table.lookup id with
  | some links => .ok ⟨links, (0, none)⟩
  | none => .error "not found"

/-- A root linking twice to `A` and once to `B`, a shared child `C`, and a link back to the
root. -/
def diamond : NodeGetter :=
  tableGetter [("R", ["A", "B", "A"]), ("A", ["C"]), ("B", ["C", "R"]), ("C", [])]

/-- A root whose second child fails to fetch. -/
def failingChild : NodeGetter :=
  tableGetter [("R", ["A", "B"]), ("A", [])]

/-- `Manifest`: node ids, and links as pairs of positions in `nodes`. -/
structure Manifest where
  links : List (Nat × Nat)
  nodes : List String
  deriving Repr, DecidableEq

/-- A Go map from ids. -/
abbrev IdMap (β : Type) := AList fun _ : String => β

/-- `m[id]` for a Go map: the zero value when `id` is missing. -/
def IdMap.read (m : IdMap Nat) (id : String) : Nat :=
  (m.lookup id).getD 0

/-- `mstate`, the state of one manifest build; `ctx` and `ng` are arguments of the walk. -/
structure MState where
  /-- ids already added, with their weight (later reused for their position) -/
  weights : IdMap Nat
  links : List (String × String)
  sizes : IdMap UInt64
  m : Manifest

/-- The fresh `mstate` of `NewManifest` and `NewInfo`. -/
def MState.init : MState where
  weights := ∅
  links := []
  sizes := ∅
  m := ⟨[], []⟩

/-- What a call of `addNode` leaves: its error, the caller's `*weight`, and the state. -/
structure Added where
  err : Option String
  weight : Nat
  ms : MState

/-- The `for _, link := range node.Links()` loop of `addNode` for the node `id`; `visit`
is the recursive `addNode`. -/
def addLinks (ng : NodeGetter) (visit : String → Node → Nat → MState → Option Added)
    (id : String) : List String → Nat → MState → Option Added
  | [], weight, ms => some ⟨none, weight, ms⟩
  | link :: rest, weight, ms =>
      match ng link with
      | .error err => some ⟨some err, weight + 1, ms⟩
      | .ok linkNode =>
          let ms := { ms with links := ms.links ++ [(id, link)] }
          match visit link linkNode 0 ms with
          | none => none
          | some ⟨some err, _, ms⟩ => some ⟨some err, weight + 1, ms⟩
          | some ⟨none, lWeight, ms⟩ => addLinks ng visit id rest (weight + 1 + lWeight) ms

/-- `addNode` places the node `id` and, recursively, the nodes it links to; it returns at once
when `id` is already placed. -/
def addNode (ng : NodeGetter) : Nat → String → Node → Nat → MState → Option Added
  | 0, _, _, _, _ => none
  | fuel + 1, id, node, weight, ms =>
      if id ∈ ms.sizes then
        some ⟨none, weight, ms⟩
      else
        let ms := { ms with m.nodes := ms.m.nodes ++ [id], sizes := ms.sizes.insert id node.size.1 }
        match node.size.2 with
        | some err => some ⟨some err, weight, ms⟩
        | none =>
            match addLinks ng (addNode ng fuel) id node.links weight ms with
            | some ⟨none, weight, ms⟩ =>
                some ⟨none, weight, { ms with weights := ms.weights.insert id weight }⟩
            | r => r

/-- `sort.StringSlice.Less`.  Go compares strings byte by byte, which on UTF-8 text is the
order of their characters. -/
def stringLess (x y : String) : Bool :=
  decide (x.toList < y.toList)

/-- `mstate.Less`: heavier nodes first. -/
def MState.less (ms : MState) (x y : String) : Bool :=
  decide (ms.weights.read y < ms.weights.read x)

/-- `mstate.Len`. -/
def MState.len (ms : MState) : Nat :=
  ms.sizes.keys.length

/-- `for i, id := range ms.m.Nodes { ms.weights[id] = i }`. -/
def setPositions : Nat → List String → IdMap Nat → IdMap Nat
  | _, [], weights => weights
  | i, id :: rest, weights => setPositions (i + 1) rest (weights.insert id i)

/-- The key of `sortableLinks.Less`. -/
def linkKey (link : Nat × Nat) : Nat :=
  1000 * (link.1 + 1) + link.2

/-- `sortableLinks.Less`. -/
def linkLess (x y : Nat × Nat) : Bool :=
  decide (linkKey x < linkKey y)

/-- The part of `makeManifest` after the walk: sort the nodes by id, then by weight, reuse
`weights` for the position of every node, and express the links by positions, sorted. -/
def MState.order (ms : MState) : MState :=
  let ms := { ms with m.nodes := GoSort.sort stringLess ms.m.nodes.length ms.m.nodes }
  let ms := { ms with m.nodes := GoSort.sort ms.less ms.len ms.m.nodes }
  let ms := { ms with weights := setPositions 0 ms.m.nodes ms.weights }
  let sl := ms.links.map fun link => (ms.weights.read link.1, ms.weights.read link.2)
  let sl := GoSort.sort linkLess sl.length sl
  { ms with m.links := sl }

/-- `makeManifest` walks the graph from `id`, then orders nodes and links. -/
def makeManifest (ng : NodeGetter) (fuel : Nat) (id : String) (ms : MState) :
    Option (Option String × MState) :=
  match ng id with
  | .error err => some (some err, ms)
  | .ok node =>
      match addNode ng fuel id node 0 ms with
      | none => none
      | some ⟨some err, _, ms⟩ => some (some err, ms)
      | some ⟨none, _, ms⟩ => some (none, ms.order)

/-- `NewManifest` returns the manifest of the state together with the error. -/
def newManifest (ng : NodeGetter) (fuel : Nat) (id : String) :
    Option (Manifest × Option String) :=
  (makeManifest ng fuel id MState.init).map fun result => (result.2.m, result.1)

/-- `Info`: a manifest with the size of every node; `Paths` is never set by the dag package. -/
structure Info where
  manifest : Manifest
  sizes : List UInt64
  deriving Repr, DecidableEq

/-- `NewInfo` returns no info on an error, and otherwise reads the sizes in node order. -/
def newInfo (ng : NodeGetter) (fuel : Nat) (id : String) : Option (Except String Info) :=
  (makeManifest ng fuel id MState.init).map fun result =>
    match result.1 with
    | some err => .error err
    | none =>
        .ok ⟨result.2.m, result.2.m.nodes.map fun id => (result.2.sizes.lookup id).getD 0⟩

end Dag
