import Dag.GoSortPerm
import Dag.ManifestWalk

namespace Dag

open scoped List

/-!
# The nodes and links of a built manifest

A successful build is a successful walk from the root followed by `MState.order`.  The walk
leaves the reachable ids, each once, and the link pairs of each (`Walk`); the order step only
permutes the nodes, and `setPositions` turns the weights into positions, so the manifest lists
exactly the reachable ids and one position pair per link occurrence.
-/

/-- What the walk of a successful build leaves in the state: the reachable ids, each once, as
both the node list and the keys of `sizes`, the link pairs of every node, and the root strictly
heavier than every other node. -/
structure Walk (ng : NodeGetter) (root : String) (ms : MState) : Prop where
  nodup : ms.m.nodes.Nodup
  reachable : ∀ x, x ∈ ms.m.nodes ↔ Reachable ng root x
  sizes : ∀ x, x ∈ ms.sizes ↔ x ∈ ms.m.nodes
  links : ms.links ~ ms.m.nodes.flatMap (linkPairs ng)
  heaviest : ∀ x ∈ ms.m.nodes, x ≠ root → ms.weights.read x < ms.weights.read root

/-- A successful walk from the fresh state is a `Walk`. -/
theorem walk_of_addNode {ng : NodeGetter} {fuel : Nat} {root : String} {node : Node}
    {weight : Nat} {walked : MState} (fetched : ng root = .ok node)
    (run : addNode ng fuel root node 0 MState.init = some ⟨none, weight, walked⟩) :
    Walk ng root walked := by
  obtain ⟨fresh, appended, added⟩ := addNode_spec ng fuel root node 0 MState.init _ fetched run rfl
  have nodes : walked.m.nodes = fresh := by simpa [MState.init] using added.grew.nodes
  have sizes : ∀ x, x ∈ walked.sizes ↔ x ∈ fresh := fun x => by
    simpa [MState.init] using added.grew.sizes x
  have rootFresh : root ∈ fresh := (sizes root).mp added.placed
  have rootWeight : walked.weights.read root = appended.length := by
    have counter : weight = 0 + appended.length := added.counter
    simp [IdMap.read, added.ownWeight rootFresh, counter]
  refine ⟨nodes ▸ added.grew.freshNodup, fun x => ⟨fun member => ?_, fun path => ?_⟩,
    fun x => nodes ▸ sizes x, ?_, fun x member other => ?_⟩
  · exact added.reachable x (nodes ▸ member)
  · rw [nodes]
    induction path with
    | root =>
        exact rootFresh
    | link _ fetchedU target inductionHypothesis =>
        apply (sizes _).mp
        exact added.grew.closed _ inductionHypothesis _ (mem_outLinks fetchedU target)
  · have links : walked.links = appended := by simpa [MState.init] using added.grew.links
    rw [links, nodes]
    exact added.pairs
  · obtain ⟨w, stored, below⟩ := added.lighter x (nodes ▸ member) other
    rw [rootWeight, IdMap.read, stored]
    exact below

/-- A successful build is a successful walk from the root, then `MState.order`. -/
theorem makeManifest_eq_some {ng : NodeGetter} {fuel : Nat} {root : String} {ms : MState}
    (built : makeManifest ng fuel root MState.init = some (none, ms)) :
    ∃ node weight walked, ng root = .ok node ∧
      addNode ng fuel root node 0 MState.init = some ⟨none, weight, walked⟩ ∧
      ms = walked.order := by
  unfold makeManifest at built
  cases fetched : ng root with
  | error err =>
      simp [fetched] at built
  | ok node =>
      simp only [fetched] at built
      cases run : addNode ng fuel root node 0 MState.init with
      | none =>
          simp [run] at built
      | some added =>
          obtain ⟨err, weight, walked⟩ := added
          cases err with
          | some err =>
              simp [run] at built
          | none =>
              simp only [run, Option.some.injEq, Prod.mk.injEq, true_and] at built
              exact ⟨node, weight, walked, rfl, run, built.symm⟩

/-! ## Positions -/

/-- `setPositions` leaves the ids it does not visit alone. -/
theorem lookup_setPositions_of_not_mem {x : String} :
    ∀ (i : Nat) (ids : List String) (weights : IdMap Nat), x ∉ ids →
      (setPositions i ids weights).lookup x = weights.lookup x
  | _, [], _, _ => rfl
  | i, id :: rest, weights, absent => by
      rw [setPositions, lookup_setPositions_of_not_mem (i + 1) rest _ (fun member =>
        absent (List.mem_cons_of_mem id member))]
      exact AList.lookup_insert_ne fun same => absent (same ▸ List.mem_cons_self id rest)

/-- On distinct ids, `setPositions i` stores `i` plus the position of every id. -/
theorem lookup_setPositions {x : String} :
    ∀ (i : Nat) (ids : List String) (weights : IdMap Nat), ids.Nodup → x ∈ ids →
      (setPositions i ids weights).lookup x = some (i + ids.indexOf x)
  | _, [], _, _, member => absurd member (List.not_mem_nil x)
  | i, id :: rest, weights, distinct, member => by
      rw [setPositions]
      by_cases here : x = id
      · subst here
        rw [lookup_setPositions_of_not_mem (i + 1) rest _ (List.nodup_cons.mp distinct).1,
          AList.lookup_insert, List.indexOf_cons_self]
        rfl
      · rw [lookup_setPositions (i + 1) rest _ (List.nodup_cons.mp distinct).2
          ((List.mem_cons.mp member).resolve_left here), List.indexOf_cons_ne rest (Ne.symm here)]
        congr 1
        omega

/-! ## The order step -/

section Order

variable {ng : NodeGetter} {root : String} {ms : MState}

/-- The `Len()` of the weight sort is the number of walked nodes. -/
theorem Walk.len_eq (walk : Walk ng root ms) : ms.len = ms.m.nodes.length := by
  have keys : ms.sizes.keys ~ ms.m.nodes :=
    (List.perm_ext_iff_of_nodup ms.sizes.keys_nodup walk.nodup).mpr fun x => walk.sizes x
  exact keys.length_eq

/-- The order step permutes the nodes. -/
theorem Walk.order_nodes_perm (walk : Walk ng root ms) : ms.order.m.nodes ~ ms.m.nodes := by
  have byId := GoSort.sort_perm stringLess ms.m.nodes
  have len : ms.len = (GoSort.sort stringLess ms.m.nodes.length ms.m.nodes).length := by
    rw [walk.len_eq, byId.length_eq]
  exact (len ▸ GoSort.sort_perm ms.less _).trans byId

/-- After the order step every node's weight is its position. -/
theorem Walk.read_order_weights (walk : Walk ng root ms) {x : String}
    (member : x ∈ ms.order.m.nodes) :
    ms.order.weights.read x = ms.order.m.nodes.indexOf x := by
  have distinct := walk.order_nodes_perm.nodup_iff.mpr walk.nodup
  simp only [IdMap.read]
  rw [show ms.order.weights = setPositions 0 ms.order.m.nodes ms.weights from rfl,
    lookup_setPositions 0 _ _ distinct member]
  simp

/-- Both ends of a walked link pair are reachable. -/
theorem Walk.reachable_of_mem_links (walk : Walk ng root ms) {link : String × String}
    (member : link ∈ ms.links) : Reachable ng root link.1 ∧ Reachable ng root link.2 := by
  have pair := walk.links.subset member
  simp only [List.mem_flatMap, linkPairs, List.mem_map] at pair
  obtain ⟨u, placed, t, target, rfl⟩ := pair
  have reachU := (walk.reachable u).mp placed
  exact ⟨reachU, reachU.of_outLinks target⟩

/-- A reachable id is a node after the order step. -/
theorem Walk.mem_order_nodes (walk : Walk ng root ms) {x : String}
    (path : Reachable ng root x) : x ∈ ms.order.m.nodes :=
  walk.order_nodes_perm.mem_iff.mpr ((walk.reachable x).mpr path)

/-- After the order step the links are the walk's link pairs, by position. -/
theorem Walk.order_links_perm (walk : Walk ng root ms) :
    ms.order.m.links ~ ms.links.map fun link =>
      (ms.order.m.nodes.indexOf link.1, ms.order.m.nodes.indexOf link.2) := by
  refine (GoSort.sort_perm linkLess _).trans (List.Perm.of_eq (List.map_congr_left ?_))
  intro link member
  obtain ⟨reachFrom, reachTo⟩ := walk.reachable_of_mem_links member
  exact Prod.ext (walk.read_order_weights (walk.mem_order_nodes reachFrom))
    (walk.read_order_weights (walk.mem_order_nodes reachTo))

/-- After the order step every link of a placed node is there, by the positions of its ends. -/
theorem Walk.mem_order_links (walk : Walk ng root ms) {u t : String} (placed : u ∈ ms.m.nodes)
    (linked : t ∈ outLinks ng u) :
    (ms.order.m.nodes.indexOf u, ms.order.m.nodes.indexOf t) ∈ ms.order.m.links :=
  walk.order_links_perm.mem_iff.mpr (List.mem_map_of_mem _
    (walk.links.mem_iff.mpr (List.mem_flatMap.mpr ⟨u, placed, List.mem_map_of_mem _ linked⟩)))

/-- Every link after the order step is a link of a placed node, by the positions of its ends. -/
theorem Walk.of_mem_order_links (walk : Walk ng root ms) {link : Nat × Nat}
    (member : link ∈ ms.order.m.links) :
    ∃ u t, u ∈ ms.m.nodes ∧ t ∈ outLinks ng u ∧
      link = (ms.order.m.nodes.indexOf u, ms.order.m.nodes.indexOf t) := by
  obtain ⟨pair, walkedPair, rfl⟩ := List.mem_map.mp (walk.order_links_perm.subset member)
  obtain ⟨u, placed, paired⟩ := List.mem_flatMap.mp (walk.links.subset walkedPair)
  obtain ⟨t, linked, rfl⟩ := List.mem_map.mp paired
  exact ⟨u, t, placed, linked, rfl⟩

/-- After the order step both positions of every link are positions of the nodes. -/
theorem Walk.order_links_lt (walk : Walk ng root ms) {link : Nat × Nat}
    (member : link ∈ ms.order.m.links) :
    link.1 < ms.order.m.nodes.length ∧ link.2 < ms.order.m.nodes.length := by
  obtain ⟨pair, walkedPair, rfl⟩ := List.mem_map.mp (walk.order_links_perm.subset member)
  obtain ⟨reachFrom, reachTo⟩ := walk.reachable_of_mem_links walkedPair
  exact ⟨List.indexOf_lt_length.mpr (walk.mem_order_nodes reachFrom),
    List.indexOf_lt_length.mpr (walk.mem_order_nodes reachTo)⟩

end Order

/-- `NewManifest` without error is a successful walk from the fetched root, then the order
step. -/
theorem newManifest_eq_some_run {ng : NodeGetter} {fuel : Nat} {root : String} {m : Manifest}
    (built : newManifest ng fuel root = some (m, none)) :
    ∃ node weight walked, ng root = .ok node ∧
      addNode ng fuel root node 0 MState.init = some ⟨none, weight, walked⟩ ∧
      m = walked.order.m := by
  unfold newManifest at built
  obtain ⟨⟨err, ms⟩, run, result⟩ := Option.map_eq_some'.mp built
  simp only [Prod.mk.injEq] at result
  obtain ⟨rfl, rfl⟩ := result
  obtain ⟨node, weight, walked, fetched, walkRun, rfl⟩ := makeManifest_eq_some run
  exact ⟨node, weight, walked, fetched, walkRun, rfl⟩

/-- The manifest of a successful build is the order step applied to a walk from the root. -/
theorem newManifest_eq_some {ng : NodeGetter} {fuel : Nat} {root : String} {m : Manifest}
    (built : newManifest ng fuel root = some (m, none)) :
    ∃ walked, Walk ng root walked ∧ m = walked.order.m := by
  obtain ⟨node, weight, walked, fetched, walkRun, rfl⟩ := newManifest_eq_some_run built
  exact ⟨walked, walk_of_addNode fetched walkRun, rfl⟩

/-- `NewManifest` without error lists every id reachable from the root through `Links()`
exactly once, and no other id. -/
theorem newManifest_nodes (ng : NodeGetter) (fuel : Nat) (root : String) (m : Manifest)
    (built : newManifest ng fuel root = some (m, none)) :
    m.nodes.Nodup ∧ ∀ x, x ∈ m.nodes ↔ Reachable ng root x := by
  obtain ⟨walked, walk, rfl⟩ := newManifest_eq_some built
  exact ⟨walk.order_nodes_perm.nodup_iff.mpr walk.nodup, fun x =>
    walk.order_nodes_perm.mem_iff.trans (walk.reachable x)⟩

set_option maxRecDepth 100000 in
/-- The manifest of `diamond`: the root, then `B`, which weighs 2 for its links to the placed `C`
and `R`, then `A`, which weighs 1, then `C`. -/
theorem newManifest_diamond :
    newManifest diamond 5 "R" =
      some (⟨[(0, 1), (0, 2), (0, 2), (1, 0), (1, 3), (2, 3)], ["R", "B", "A", "C"]⟩, none) := by
  decide

/-- The manifest of `diamond` lists its four nodes once each. -/
theorem newManifest_nodes_diamond :
    newManifest diamond 5 "R" =
        some (⟨[(0, 1), (0, 2), (0, 2), (1, 0), (1, 3), (2, 3)], ["R", "B", "A", "C"]⟩, none) ∧
      (["R", "B", "A", "C"].Nodup ∧ ∀ x, x ∈ ["R", "B", "A", "C"] ↔ Reachable diamond "R" x) :=
  ⟨newManifest_diamond, newManifest_nodes diamond 5 "R"
    ⟨[(0, 1), (0, 2), (0, 2), (1, 0), (1, 3), (2, 3)], ["R", "B", "A", "C"]⟩ newManifest_diamond⟩

/-- `NewManifest` without error has a position pair for every link occurrence of every
reachable node, whatever enumeration of the reachable ids is used, and no other pair; every
position is a position of `Nodes`. -/
theorem newManifest_links (ng : NodeGetter) (fuel : Nat) (root : String) (m : Manifest)
    (built : newManifest ng fuel root = some (m, none)) :
    (∀ link ∈ m.links, link.1 < m.nodes.length ∧ link.2 < m.nodes.length) ∧
      ∀ reach : List String, reach.Nodup → (∀ x, x ∈ reach ↔ Reachable ng root x) →
        m.links ~ reach.flatMap fun u =>
          (outLinks ng u).map fun t => (m.nodes.indexOf u, m.nodes.indexOf t) := by
  obtain ⟨walked, walk, rfl⟩ := newManifest_eq_some built
  refine ⟨fun link member => walk.order_links_lt member, fun reach distinct enumerates => ?_⟩
  · have sameIds : walked.m.nodes ~ reach :=
      (List.perm_ext_iff_of_nodup walk.nodup distinct).mpr fun x =>
        (walk.reachable x).trans (enumerates x).symm
    refine walk.order_links_perm.trans ((walk.links.map _).trans ?_)
    rw [List.map_flatMap]
    refine List.Perm.of_eq (List.flatMap_congr fun u _ => ?_) |>.trans
      (sameIds.flatMap_right _)
    simp [linkPairs]

/-- The links of `diamond`'s manifest: the repeated link twice, the cycle once. -/
theorem newManifest_links_diamond :
    newManifest diamond 5 "R" =
        some (⟨[(0, 1), (0, 2), (0, 2), (1, 0), (1, 3), (2, 3)], ["R", "B", "A", "C"]⟩, none) ∧
      ((∀ link ∈ [(0, 1), (0, 2), (0, 2), (1, 0), (1, 3), (2, 3)],
          link.1 < ["R", "B", "A", "C"].length ∧ link.2 < ["R", "B", "A", "C"].length) ∧
        ∀ reach : List String, reach.Nodup → (∀ x, x ∈ reach ↔ Reachable diamond "R" x) →
          [(0, 1), (0, 2), (0, 2), (1, 0), (1, 3), (2, 3)] ~ reach.flatMap fun u =>
            (outLinks diamond u).map fun t =>
              (["R", "B", "A", "C"].indexOf u, ["R", "B", "A", "C"].indexOf t)) :=
  ⟨newManifest_diamond, newManifest_links diamond 5 "R"
    ⟨[(0, 1), (0, 2), (0, 2), (1, 0), (1, 3), (2, 3)], ["R", "B", "A", "C"]⟩ newManifest_diamond⟩

end Dag
