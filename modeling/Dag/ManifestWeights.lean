import Mathlib.Algebra.Order.BigOperators.Group.Finset
import Mathlib.Data.Set.Card
import Dag.ManifestOrder

namespace Dag

open scoped List

/-!
# The weights of the walk

`addNode` counts into the caller's `*weight` one unit per link it follows and, through a fresh
`lWeight`, whatever the visit of the link's target counted; a call on a placed id counts nothing.
So a call adds to the counter exactly the number of link pairs it appends, and a first visit
stores the counter as the id's weight (`addNode_weight`).

On a graph whose reachable part is a tree, every link the walk follows leads to a node not yet
placed, so the call on a node walks exactly its subtree, and the weight it stores is the number
of its descendants (`newManifest_tree_weights`).  The tree facts the proof needs follow from
the in-degrees alone: a reachable node has one parent, no reachable node descends from itself,
and the subtrees of two children are apart.
-/

/-- A call of `addNode` that returns without error adds to the caller's counter exactly the
number of link pairs it appends to `ms.links`: none on an id already placed, and on a first
visit it stores the counter as the id's weight, above the weight of every node first visited
inside the call.  So the weight of the root is the number of links of the manifest. -/
theorem addNode_weight (ng : NodeGetter) :
    (∀ (fuel : Nat) (id : String) (node : Node) (weight : Nat) (ms : MState) (r : Added),
      ng id = .ok node → addNode ng fuel id node weight ms = some r → r.err = none →
        ∃ fresh appended, r.ms.m.nodes = ms.m.nodes ++ fresh ∧ (∀ x ∈ fresh, x ∉ ms.sizes) ∧
          r.ms.links = ms.links ++ appended ∧ r.weight = weight + appended.length ∧
          (id ∈ ms.sizes → fresh = [] ∧ appended = []) ∧
          (id ∉ ms.sizes → id ∈ fresh ∧ r.ms.weights.lookup id = some r.weight) ∧
          ∀ x ∈ fresh, x ≠ id → ∃ w, r.ms.weights.lookup x = some w ∧ w < r.weight) ∧
      ∀ (fuel : Nat) (root : String) (m : Manifest), newManifest ng fuel root = some (m, none) →
        ∃ node r, ng root = .ok node ∧ addNode ng fuel root node 0 MState.init = some r ∧
          r.err = none ∧ m = r.ms.order.m ∧ r.ms.weights.lookup root = some m.links.length := by
  refine ⟨fun fuel id node weight ms r fetched run ok => ?_, fun fuel root m built => ?_⟩
  · obtain ⟨fresh, appended, added⟩ := addNode_spec ng fuel id node weight ms r fetched run ok
    refine ⟨fresh, appended, added.grew.nodes, added.grew.freshNew, added.grew.links,
      added.counter, fun placed => ?_, fun new => ?_, fun x member other => ?_⟩
    · cases fuel with
      | zero =>
          simp [addNode] at run
      | succ fuel =>
          rcases addNode_succ_eq_some run with ⟨-, rfl⟩ | ⟨new, -⟩
          · exact ⟨List.append_right_eq_self.mp added.grew.nodes.symm,
              List.append_right_eq_self.mp added.grew.links.symm⟩
          · exact absurd placed new
    · have member : id ∈ fresh := ((added.grew.sizes id).mp added.placed).resolve_left new
      exact ⟨member, added.ownWeight member⟩
    · obtain ⟨w, stored, below⟩ := added.lighter x member other
      exact ⟨w, stored, by rw [added.counter]; omega⟩
  · obtain ⟨node, weight, walked, fetched, run, rfl⟩ := newManifest_eq_some_run built
    obtain ⟨fresh, appended, added⟩ :=
      addNode_spec ng fuel root node 0 MState.init _ fetched run rfl
    have rootFresh : root ∈ fresh :=
      ((added.grew.sizes root).mp added.placed).resolve_left (by simp [MState.init])
    have links : walked.links = appended := by simpa [MState.init] using added.grew.links
    refine ⟨node, _, fetched, run, rfl, rfl, ?_⟩
    rw [added.ownWeight rootFresh, added.counter,
      (walk_of_addNode fetched run).order_links_perm.length_eq, List.length_map, links,
      Nat.zero_add]

/-! ## Trees -/

/-- `y` descends from `x`: it is reachable from the target of a link of `x`. -/
def Descendant (ng : NodeGetter) (x y : String) : Prop :=
  ∃ t ∈ outLinks ng x, Reachable ng t y

/-- The descendants of `x`. -/
def descendants (ng : NodeGetter) (x : String) : Set String :=
  {y | Descendant ng x y}

/-- The part of the graph reachable from `root` is the finite set `reach`, and it is a tree:
among the links of the reachable nodes none targets the root, and exactly one targets each
other reachable node. -/
structure Tree (ng : NodeGetter) (root : String) (reach : Finset String) : Prop where
  reach_iff : ∀ x, x ∈ reach ↔ Reachable ng root x
  inDegree : ∀ x ∈ reach,
    (reach.sum fun u => (outLinks ng u).count x) = if x = root then 0 else 1

/-- What is reachable from `x` is `x` and its descendants. -/
theorem reachable_iff_descendant {ng : NodeGetter} {x y : String} :
    Reachable ng x y ↔ y = x ∨ Descendant ng x y := by
  constructor
  · intro path
    induction path with
    | root =>
        exact .inl rfl
    | link _ fetched member inductionHypothesis =>
        rcases inductionHypothesis with rfl | ⟨t, linked, path⟩
        · exact .inr ⟨_, mem_outLinks fetched member, .root⟩
        · exact .inr ⟨t, linked, .link path fetched member⟩
  · rintro (rfl | ⟨t, linked, path⟩)
    · exact .root
    · exact (Reachable.root.of_outLinks linked).trans path

/-- A descendant is reachable. -/
theorem Descendant.reachable {ng : NodeGetter} {x y : String} (below : Descendant ng x y) :
    Reachable ng x y :=
  reachable_iff_descendant.mpr (.inr below)

namespace Tree

variable {ng : NodeGetter} {root : String} {reach : Finset String} (tree : Tree ng root reach)
include tree

/-- What a reachable node reaches is reachable. -/
theorem mem_of_reachable {a y : String} (placed : a ∈ reach) (path : Reachable ng a y) :
    y ∈ reach :=
  (tree.reach_iff y).mpr (((tree.reach_iff a).mp placed).trans path)

/-- A link target of a reachable node is reachable. -/
theorem mem_of_linked {u t : String} (placed : u ∈ reach) (linked : t ∈ outLinks ng u) :
    t ∈ reach :=
  tree.mem_of_reachable placed (Reachable.root.of_outLinks linked)

/-- No reachable node links to a target more often than all reachable nodes together. -/
theorem count_le {u x : String} (placed : u ∈ reach) (target : x ∈ reach) :
    (outLinks ng u).count x ≤ if x = root then 0 else 1 := by
  rw [← tree.inDegree x target]
  exact Finset.single_le_sum (f := fun u => (outLinks ng u).count x)
    (fun _ _ => Nat.zero_le _) placed

/-- No reachable node links to the root. -/
theorem root_not_linked {u : String} (placed : u ∈ reach) : root ∉ outLinks ng u := by
  intro linked
  have bounded := tree.count_le placed (tree.mem_of_linked placed linked)
  rw [if_pos rfl] at bounded
  exact (List.count_pos_iff.mpr linked).ne' (Nat.le_zero.mp bounded)

/-- A reachable node links to each target at most once. -/
theorem links_nodup {u : String} (placed : u ∈ reach) : (outLinks ng u).Nodup := by
  refine List.nodup_iff_count_le_one.mpr fun x => ?_
  by_cases linked : x ∈ outLinks ng u
  · have bounded := tree.count_le placed (tree.mem_of_linked placed linked)
    split at bounded <;> omega
  · rw [List.count_eq_zero.mpr linked]
    exact Nat.zero_le 1

/-- Two reachable nodes that link to the same target are one node: the target's parent. -/
theorem parent_unique {u u' t : String} (placed : u ∈ reach) (placed' : u' ∈ reach)
    (linked : t ∈ outLinks ng u) (linked' : t ∈ outLinks ng u') : u = u' := by
  by_contra distinct
  have both : (outLinks ng u).count t + (outLinks ng u').count t ≤ if t = root then 0 else 1 := by
    rw [← tree.inDegree t (tree.mem_of_linked placed linked)]
    exact Finset.add_le_sum (f := fun v => (outLinks ng v).count t) (fun _ _ => Nat.zero_le _)
      placed placed' distinct
  have once := List.count_pos_iff.mpr linked
  have once' := List.count_pos_iff.mpr linked'
  split at both <;> omega

/-- A path from a reachable node to another node passes through that node's parent. -/
theorem reachable_parent {a y p : String} (placedA : a ∈ reach) (placedP : p ∈ reach)
    (linked : y ∈ outLinks ng p) (path : Reachable ng a y) : y = a ∨ Reachable ng a p := by
  cases path with
  | root =>
      exact .inl rfl
  | link prev fetched member =>
      rw [← tree.parent_unique (tree.mem_of_reachable placedA prev) placedP
        (mem_outLinks fetched member) linked]
      exact .inr prev

/-- No reachable node descends from itself. -/
theorem not_descendant_self {x : String} (path : Reachable ng root x) : ¬ Descendant ng x x := by
  have start : root ∈ reach := (tree.reach_iff root).mpr .root
  induction path with
  | root =>
      rintro ⟨t, linked, back⟩
      cases back with
      | root =>
          exact tree.root_not_linked start linked
      | link prev fetched member =>
          exact tree.root_not_linked (tree.mem_of_reachable (tree.mem_of_linked start linked) prev)
            (mem_outLinks fetched member)
  | @link u t node pathU fetched member inductionHypothesis =>
      rintro ⟨s, linked, back⟩
      have placedU := tree.mem_of_reachable start pathU
      have linkedU : t ∈ outLinks ng u := mem_outLinks fetched member
      have placedT := tree.mem_of_linked placedU linkedU
      refine inductionHypothesis ⟨t, linkedU, ?_⟩
      rcases tree.reachable_parent (tree.mem_of_linked placedT linked) placedU linkedU back with
        rfl | toU
      · rw [tree.parent_unique placedU placedT linkedU linked]
        exact .root
      · exact (Reachable.root.of_outLinks linked).trans toU

/-- Two reachable nodes from which one node is reachable lie on one path. -/
theorem reachable_chain {a b y : String} (placedA : a ∈ reach) (placedB : b ∈ reach)
    (fromA : Reachable ng a y) (fromB : Reachable ng b y) :
    Reachable ng a b ∨ Reachable ng b a := by
  induction fromA with
  | root =>
      exact .inr fromB
  | link pathU fetched member inductionHypothesis =>
      rcases tree.reachable_parent placedB (tree.mem_of_reachable placedA pathU)
        (mem_outLinks fetched member) fromB with rfl | fromB
      · exact .inl (.link pathU fetched member)
      · exact inductionHypothesis fromB

/-- The subtrees of two different children of a reachable node share no node. -/
theorem subtrees_disjoint {x t t' y : String} (placed : x ∈ reach) (linked : t ∈ outLinks ng x)
    (linked' : t' ∈ outLinks ng x) (distinct : t ≠ t') (fromT : Reachable ng t y) :
    ¬ Reachable ng t' y := by
  -- a path between two children passes through their parent, which then descends from itself
  have apart : ∀ {a b}, a ∈ outLinks ng x → b ∈ outLinks ng x → a ≠ b → ¬ Reachable ng a b :=
    fun linkedA linkedB differ path =>
      (tree.reachable_parent (tree.mem_of_linked placed linkedA) placed linkedB path).elim
        (fun same => differ same.symm) fun back =>
          tree.not_descendant_self ((tree.reach_iff x).mp placed) ⟨_, linkedA, back⟩
  intro fromT'
  rcases tree.reachable_chain (tree.mem_of_linked placed linked)
    (tree.mem_of_linked placed linked') fromT fromT' with forward | backward
  · exact apart linked linked' distinct forward
  · exact apart linked' linked (Ne.symm distinct) backward

/-- A reachable node has one descendant per child and per descendant of a child. -/
theorem ncard_descendants {x : String} (placed : x ∈ reach) :
    (descendants ng x).ncard =
      ((outLinks ng x).map fun t => 1 + (descendants ng t).ncard).sum := by
  classical
  have card : ∀ y ∈ reach, (descendants ng y).ncard = (reach.filter (Descendant ng y)).card := by
    intro y placedY
    rw [← Set.ncard_coe_Finset, Finset.coe_filter]
    congr 1
    ext z
    exact ⟨fun below => ⟨tree.mem_of_reachable placedY below.reachable, below⟩,
      fun below => below.2⟩
  have parts : reach.filter (Descendant ng x) =
      (outLinks ng x).toFinset.biUnion fun t => insert t (reach.filter (Descendant ng t)) := by
    ext z
    simp only [Finset.mem_filter, Finset.mem_biUnion, List.mem_toFinset, Finset.mem_insert]
    constructor
    · rintro ⟨placedZ, t, linked, path⟩
      exact ⟨t, linked, (reachable_iff_descendant.mp path).imp id fun below => ⟨placedZ, below⟩⟩
    · rintro ⟨t, linked, rfl | ⟨placedZ, below⟩⟩
      · exact ⟨tree.mem_of_linked placed linked, z, linked, .root⟩
      · exact ⟨placedZ, t, linked, below.reachable⟩
  have subtree : ∀ t z, z ∈ insert t (reach.filter (Descendant ng t)) → Reachable ng t z := by
    intro t z member
    rcases Finset.mem_insert.mp member with rfl | below
    · exact .root
    · exact (Finset.mem_filter.mp below).2.reachable
  rw [card x placed, parts, Finset.card_biUnion, List.sum_toFinset _ (tree.links_nodup placed)]
  · refine congrArg List.sum (List.map_congr_left fun t linked => ?_)
    have placedT := tree.mem_of_linked placed linked
    rw [Finset.card_insert_of_not_mem fun below => tree.not_descendant_self
      ((tree.reach_iff t).mp placedT) (Finset.mem_filter.mp below).2, card t placedT,
      Nat.add_comm]
  · intro t linked t' linked' distinct
    refine Finset.disjoint_left.mpr fun z inT inT' => ?_
    exact tree.subtrees_disjoint placed (List.mem_toFinset.mp linked)
      (List.mem_toFinset.mp linked') distinct (subtree t z inT) (subtree t' z inT')

/-- A child of a reachable node has fewer descendants than the node. -/
theorem ncard_descendants_lt {u t : String} (placed : u ∈ reach) (linked : t ∈ outLinks ng u) :
    (descendants ng t).ncard < (descendants ng u).ncard := by
  have finite : (descendants ng u).Finite :=
    reach.finite_toSet.subset fun y below => tree.mem_of_reachable placed below.reachable
  have child : t ∈ descendants ng u := ⟨t, linked, .root⟩
  refine Set.ncard_lt_ncard ⟨fun y ⟨s, linkedS, path⟩ => ?_, fun covered => ?_⟩ finite
  · exact ⟨t, linked, (Reachable.root.of_outLinks linkedS).trans path⟩
  · exact tree.not_descendant_self ((tree.reach_iff t).mp (tree.mem_of_linked placed linked))
      (covered child)

end Tree

/-! ## The walk of a tree -/

/-- What a successful loop of `addLinks` over links of a tree node does when nothing of their
subtrees is placed: it places exactly those subtrees, weighs every node of them by its number of
descendants, adds one plus that number per link to the counter, and leaves other weights. -/
structure TreeLoop (ng : NodeGetter) (links : List String) (weight : Nat) (ms : MState)
    (r : Added) : Prop where
  sizes : ∀ y, y ∈ r.ms.sizes ↔ y ∈ ms.sizes ∨ ∃ t ∈ links, Reachable ng t y
  weights : ∀ y, (∃ t ∈ links, Reachable ng t y) →
    r.ms.weights.lookup y = some (descendants ng y).ncard
  counter : r.weight = weight + (links.map fun t => 1 + (descendants ng t).ncard).sum
  others : ∀ y, (∀ t ∈ links, ¬ Reachable ng t y) →
    r.ms.weights.lookup y = ms.weights.lookup y

/-- What a successful call of `addNode` on a tree node does when nothing of its subtree is
placed: it places exactly the subtree, weighs the node with the counter, which grows by the
number of its descendants, weighs every other node of the subtree by its number of
descendants, and leaves other weights. -/
structure TreeNode (ng : NodeGetter) (x : String) (weight : Nat) (ms : MState) (r : Added) :
    Prop where
  sizes : ∀ y, y ∈ r.ms.sizes ↔ y ∈ ms.sizes ∨ Reachable ng x y
  weights : ∀ y, Reachable ng x y → y ≠ x → r.ms.weights.lookup y = some (descendants ng y).ncard
  own : r.ms.weights.lookup x = some r.weight
  counter : r.weight = weight + (descendants ng x).ncard
  others : ∀ y, ¬ Reachable ng x y → r.ms.weights.lookup y = ms.weights.lookup y

namespace Tree

variable {ng : NodeGetter} {root : String} {reach : Finset String} (tree : Tree ng root reach)
include tree

/-- The loop over distinct links of a reachable node meets `TreeLoop` when every visit of a
target with an unplaced subtree meets `TreeNode`. -/
theorem addLinks_tree {visit : String → Node → Nat → MState → Option Added}
    (visitTree : ∀ t linkNode ms r, t ∈ reach → ng t = .ok linkNode →
      (∀ y, Reachable ng t y → y ∉ ms.sizes) → visit t linkNode 0 ms = some r → r.err = none →
        TreeNode ng t 0 ms r)
    {x : String} (placed : x ∈ reach) :
    ∀ (links : List String) (weight : Nat) (ms : MState) (r : Added),
      (∀ t ∈ links, t ∈ outLinks ng x) → links.Nodup →
      (∀ t ∈ links, ∀ y, Reachable ng t y → y ∉ ms.sizes) →
      addLinks ng visit x links weight ms = some r → r.err = none → TreeLoop ng links weight ms r
  | [], weight, ms, r, _, _, _, run, _ => by
      simp only [addLinks, Option.some.injEq] at run
      subst run
      exact ⟨by simp, by simp, by simp, fun _ _ => rfl⟩
  | t :: rest, weight, ms, r, linked, distinct, unplaced, run, ok => by
      rcases addLinks_cons_eq_some run with ⟨err, -, rfl⟩ |
        ⟨linkNode, err₁, lWeight, ms₁, fetched, visited, failed, succeeded⟩
      · simp at ok
      cases err₁ with
      | some err =>
          simp [failed err rfl] at ok
      | none =>
          obtain ⟨linkedT, linkedRest⟩ := List.forall_mem_cons.mp linked
          obtain ⟨freshT, distinctRest⟩ := List.nodup_cons.mp distinct
          obtain ⟨unplacedT, unplacedRest⟩ := List.forall_mem_cons.mp unplaced
          have node := visitTree t linkNode { ms with links := ms.links ++ [(x, t)] } _
            (tree.mem_of_linked placed linkedT) fetched unplacedT visited rfl
          have apart : ∀ t' ∈ rest, ∀ y, Reachable ng t' y → ¬ Reachable ng t y :=
            fun t' later _ => tree.subtrees_disjoint placed (linkedRest t' later) linkedT
              fun same => freshT (same ▸ later)
          have loop := addLinks_tree visitTree placed rest _ _ r linkedRest distinctRest
            (fun t' later y path placedY => ((node.sizes y).mp placedY).elim
              (unplacedRest t' later y path) (apart t' later y path))
            (succeeded rfl) ok
          have counted : lWeight = 0 + (descendants ng t).ncard := node.counter
          refine ⟨fun y => ?_, fun y reached => ?_, ?_, fun y away => ?_⟩
          · rw [loop.sizes, node.sizes, List.exists_mem_cons_iff, or_assoc]
          · rcases (List.exists_mem_cons_iff _ t rest).mp reached with fromT | ⟨t', later, fromT'⟩
            · rw [loop.others y fun t' later path => apart t' later y path fromT]
              by_cases same : y = t
              · rw [same, node.own, counted, Nat.zero_add]
              · exact node.weights y fromT same
            · exact loop.weights y ⟨t', later, fromT'⟩
          · rw [loop.counter, List.map_cons, List.sum_cons]
            omega
          · rw [loop.others y (List.forall_mem_cons.mp away).2,
              node.others y (List.forall_mem_cons.mp away).1]

/-- A successful call of `addNode` on a reachable node whose subtree is unplaced meets
`TreeNode`. -/
theorem addNode_tree (fuel : Nat) :
    ∀ (x : String) (node : Node) (weight : Nat) (ms : MState) (r : Added), x ∈ reach →
      ng x = .ok node → (∀ y, Reachable ng x y → y ∉ ms.sizes) →
        addNode ng fuel x node weight ms = some r → r.err = none → TreeNode ng x weight ms r := by
  induction fuel with
  | zero =>
      intro x node weight ms r _ _ _ run
      simp [addNode] at run
  | succ fuel inductionHypothesis =>
      intro x node weight ms r placed fetched unplaced run ok
      rcases addNode_succ_eq_some run with ⟨placedX, -⟩ | ⟨new, ⟨err, -, rfl⟩ |
        ⟨-, err₁, weight₁, ms₁, looped, failed, succeeded⟩⟩
      · exact absurd placedX (unplaced x .root)
      · simp at ok
      cases err₁ with
      | some err =>
          simp [failed err rfl] at ok
      | none =>
          obtain rfl := succeeded rfl
          have links : outLinks ng x = node.links := by rw [outLinks, fetched]
          have pathX := (tree.reach_iff x).mp placed
          have loop := tree.addLinks_tree
            (fun t linkNode ms r => inductionHypothesis t linkNode 0 ms r) placed node.links weight
            _ _ (fun t member => links ▸ member) (links ▸ tree.links_nodup placed)
            (fun t member y path placedY => ?_) looped rfl
          · have descends : ∀ y, Descendant ng x y ↔ ∃ t ∈ node.links, Reachable ng t y :=
              fun y => by rw [Descendant, links]
            refine ⟨fun y => ?_, fun y reached other => ?_, AList.lookup_insert _, ?_,
              fun y away => ?_⟩
            · rw [loop.sizes, AList.mem_insert, reachable_iff_descendant, descends]
              exact or_assoc.trans or_left_comm
            · rw [AList.lookup_insert_ne other]
              exact loop.weights y ((descends y).mp
                ((reachable_iff_descendant.mp reached).resolve_left other))
            · rw [loop.counter, tree.ncard_descendants placed, links]
            · have other : y ≠ x := fun same => away (same ▸ .root)
              rw [AList.lookup_insert_ne other, loop.others y fun t member path =>
                away ((descends y).mpr ⟨t, member, path⟩).reachable]
          · rcases (AList.mem_insert _).mp placedY with rfl | before
            · exact tree.not_descendant_self pathX ⟨t, links ▸ member, path⟩
            · exact unplaced y (Descendant.reachable ⟨t, links ▸ member, path⟩) before

/-- On a tree, the successful walk from the root weighs every reachable node by its number of
descendants. -/
theorem walk_weights {fuel : Nat} {node : Node} {weight : Nat} {walked : MState}
    (fetched : ng root = .ok node)
    (run : addNode ng fuel root node 0 MState.init = some ⟨none, weight, walked⟩) :
    ∀ x, Reachable ng root x → walked.weights.read x = (descendants ng x).ncard := by
  have walkedTree := tree.addNode_tree fuel root node 0 MState.init _
    ((tree.reach_iff root).mpr .root) fetched (fun y _ placed => by simp [MState.init] at placed)
    run rfl
  intro x path
  by_cases isRoot : x = root
  · rw [isRoot, IdMap.read, walkedTree.own, walkedTree.counter, Nat.zero_add]
    rfl
  · rw [IdMap.read, walkedTree.weights x path isRoot]
    rfl

end Tree

/-- On a finite graph whose reachable part is a tree, `NewManifest` without error comes from a
walk in which `addNode` weighs every reachable node with its number of descendants, so the
manifest lists the nodes by non-increasing number of descendants. -/
theorem newManifest_tree_weights (ng : NodeGetter) (fuel : Nat) (root : String) (m : Manifest)
    (reach : Finset String) (tree : Tree ng root reach)
    (built : newManifest ng fuel root = some (m, none)) :
    ∃ node r, ng root = .ok node ∧ addNode ng fuel root node 0 MState.init = some r ∧
      r.err = none ∧ m = r.ms.order.m ∧
      (∀ x, Reachable ng root x → r.ms.weights.lookup x = some (descendants ng x).ncard) ∧
      ∀ (i j : Nat) (x y : String), i ≤ j → m.nodes[i]? = some x → m.nodes[j]? = some y →
        (descendants ng y).ncard ≤ (descendants ng x).ncard := by
  obtain ⟨node, weight, walked, fetched, run, rfl⟩ := newManifest_eq_some_run built
  have walked' := tree.addNode_tree fuel root node 0 MState.init _ ((tree.reach_iff root).mpr .root)
    fetched (fun y _ placed => by simp [MState.init] at placed) run rfl
  have weights : ∀ x, Reachable ng root x →
      walked.weights.lookup x = some (descendants ng x).ncard := by
    intro x path
    by_cases isRoot : x = root
    · rw [isRoot, walked'.own, walked'.counter, Nat.zero_add]
    · exact walked'.weights x path isRoot
  refine ⟨node, _, fetched, run, rfl, rfl, weights, fun i j x y ordered atI atJ => ?_⟩
  have walk := walk_of_addNode fetched run
  have read : ∀ z ∈ walked.order.m.nodes, walked.weights.read z = (descendants ng z).ncard :=
    fun z member => by
      rw [IdMap.read, weights z ((walk.reachable z).mp (walk.order_nodes_perm.subset member))]
      rfl
  have sorted := OrderDual.toDual_le_toDual.mp (walk.order_nodes_sorted.getElem? ordered atI atJ)
  rwa [read x (List.getElem?_mem atI), read y (List.getElem?_mem atJ)] at sorted

/-- A root with two children, the first with two children of its own. -/
def branching : NodeGetter :=
  tableGetter [("R", ["A", "B"]), ("A", ["C", "D"]), ("B", []), ("C", []), ("D", [])]

/-- The reachable part of `branching` is a tree of five nodes. -/
theorem tree_branching : Tree branching "R" {"R", "A", "B", "C", "D"} where
  reach_iff x := by
    refine ⟨fun member => ?_, Reachable.mem_of_closed (by decide) (by decide)⟩
    have toA : Reachable branching "R" "A" := .link .root rfl (by decide)
    simp only [Finset.mem_insert, Finset.mem_singleton] at member
    rcases member with rfl | rfl | rfl | rfl | rfl
    · exact .root
    · exact toA
    · exact .link .root rfl (by decide)
    · exact .link toA rfl (by decide)
    · exact .link toA rfl (by decide)
  inDegree := by decide

set_option maxRecDepth 100000 in
/-- The manifest of `branching`. -/
theorem newManifest_branching :
    newManifest branching 6 "R" =
      some (⟨[(0, 1), (0, 2), (1, 3), (1, 4)], ["R", "A", "B", "C", "D"]⟩, none) := by
  rfl

/-- The build of `branching` weighs its nodes by their numbers of descendants and lists the root,
then `A`, then the leaves. -/
theorem newManifest_tree_weights_branching :
    Tree branching "R" {"R", "A", "B", "C", "D"} ∧
      newManifest branching 6 "R" =
        some (⟨[(0, 1), (0, 2), (1, 3), (1, 4)], ["R", "A", "B", "C", "D"]⟩, none) ∧
      ∃ node r, branching "R" = .ok node ∧ addNode branching 6 "R" node 0 MState.init = some r ∧
        r.err = none ∧
        ⟨[(0, 1), (0, 2), (1, 3), (1, 4)], ["R", "A", "B", "C", "D"]⟩ = r.ms.order.m ∧
        (∀ x, Reachable branching "R" x →
          r.ms.weights.lookup x = some (descendants branching x).ncard) ∧
        ∀ (i j : Nat) (x y : String), i ≤ j →
          (["R", "A", "B", "C", "D"] : List String)[i]? = some x →
          (["R", "A", "B", "C", "D"] : List String)[j]? = some y →
            (descendants branching y).ncard ≤ (descendants branching x).ncard :=
  ⟨tree_branching, newManifest_branching,
    newManifest_tree_weights branching 6 "R" _ _ tree_branching newManifest_branching⟩

/-- On a finite graph whose reachable part is a tree, `NewManifest` without error lists every
node before each of its children: every link `(from, to)` has `from < to`. -/
theorem newManifest_tree_links_forward (ng : NodeGetter) (fuel : Nat) (root : String)
    (m : Manifest) (reach : Finset String) (tree : Tree ng root reach)
    (built : newManifest ng fuel root = some (m, none)) :
    ∀ link ∈ m.links, link.1 < link.2 := by
  obtain ⟨node, weight, walked, fetched, run, rfl⟩ := newManifest_eq_some_run built
  have walk := walk_of_addNode fetched run
  have weights := tree.walk_weights fetched run
  intro link member
  obtain ⟨u, t, placed, linked, rfl⟩ := walk.of_mem_order_links member
  have pathU := (walk.reachable u).mp placed
  have pathT := pathU.of_outLinks linked
  have lighter := tree.ncard_descendants_lt ((tree.reach_iff u).mpr pathU) linked
  refine lt_of_not_le fun backward => ?_
  have sorted := walk.order_nodes_sorted.getElem? backward
    (List.getElem?_indexOf (walk.mem_order_nodes pathT))
    (List.getElem?_indexOf (walk.mem_order_nodes pathU))
  rw [weights u pathU, weights t pathT] at sorted
  exact absurd (OrderDual.toDual_le_toDual.mp sorted) (not_le.mpr lighter)

/-- Every link of `branching`'s manifest points forward. -/
theorem newManifest_tree_links_forward_branching :
    Tree branching "R" {"R", "A", "B", "C", "D"} ∧
      newManifest branching 6 "R" =
        some (⟨[(0, 1), (0, 2), (1, 3), (1, 4)], ["R", "A", "B", "C", "D"]⟩, none) ∧
      ∀ link ∈ [(0, 1), (0, 2), (1, 3), (1, 4)], link.1 < link.2 :=
  ⟨tree_branching, newManifest_branching,
    newManifest_tree_links_forward branching 6 "R" _ _ tree_branching newManifest_branching⟩

end Dag
