import Dag.ManifestNodes

namespace Dag

open scoped List

/-!
# The state of the walk over every call

The walk changes its state in three ways only: `addNode` places an id, appending it to the
nodes and storing its size; the loop records a link pair; and a finished call stores a weight.
A property that these three updates keep holds after every call of `addNode`, successful or
failing, from a state where it held (`WalkInvariant.addNode`).  Two such properties matter to
the rest of `makeManifest`.  The nodes are distinct and are the keys of `sizes` (`Placed`), so
the `Len()` that `sort.Sort(ms)` takes from `sizes` is the length of the node list it sorts.
And every stored size is the one the getter's node reports (`SizesRead`), so the sizes
`NewInfo` reads in node order belong to the nodes they stand beside.
-/

/-- A property of the walk's state kept by each of its three updates. -/
structure WalkInvariant (ng : NodeGetter) (P : MState → Prop) : Prop where
  /-- placing a fresh id fetched from the getter -/
  place : ∀ (ms : MState) (id : String) (node : Node), P ms → id ∉ ms.sizes →
    ng id = .ok node →
      P { ms with m.nodes := ms.m.nodes ++ [id], sizes := ms.sizes.insert id node.size.1 }
  /-- recording a link pair -/
  record : ∀ (ms : MState) (pair : String × String), P ms →
    P { ms with links := ms.links ++ [pair] }
  /-- storing a weight -/
  weigh : ∀ (ms : MState) (id : String) (weight : Nat), P ms →
    P { ms with weights := ms.weights.insert id weight }

namespace WalkInvariant

variable {ng : NodeGetter} {P : MState → Prop}

/-- The loop of `addLinks` keeps the property, whatever its outcome, when every visit of a
fetched target does. -/
theorem addLinks (invariant : WalkInvariant ng P)
    {visit : String → Node → Nat → MState → Option Added}
    (visitKeeps : ∀ t linkNode ms r, ng t = .ok linkNode → P ms →
      visit t linkNode 0 ms = some r → P r.ms)
    (id : String) (links : List String) :
    ∀ (weight : Nat) (ms : MState) (r : Added), P ms →
      Dag.addLinks ng visit id links weight ms = some r → P r.ms := by
  induction links with
  | nil =>
      intro weight ms r holds run
      simp only [Dag.addLinks, Option.some.injEq] at run
      exact run ▸ holds
  | cons t rest inductionHypothesis =>
      intro weight ms r holds run
      rcases addLinks_cons_eq_some run with ⟨err, -, rfl⟩ |
        ⟨linkNode, err₁, lWeight, ms₁, fetched, visited, failed, succeeded⟩
      · exact holds
      have visitedHolds := visitKeeps _ _ _ _ fetched (invariant.record ms (id, t) holds) visited
      cases err₁ with
      | some err =>
          exact (failed err rfl) ▸ visitedHolds
      | none =>
          exact inductionHypothesis _ _ r visitedHolds (succeeded rfl)

/-- Every call of `addNode` on a fetched node keeps the property, whatever its outcome. -/
theorem addNode (invariant : WalkInvariant ng P) (fuel : Nat) :
    ∀ (id : String) (node : Node) (weight : Nat) (ms : MState) (r : Added),
      ng id = .ok node → P ms → Dag.addNode ng fuel id node weight ms = some r → P r.ms := by
  induction fuel with
  | zero =>
      intro id node weight ms r _ _ run
      simp [Dag.addNode] at run
  | succ fuel inductionHypothesis =>
      intro id node weight ms r fetched holds run
      rcases addNode_succ_eq_some run with ⟨-, rfl⟩ | ⟨new, ⟨err, -, rfl⟩ |
        ⟨-, err₁, weight₁, ms₁, looped, failed, succeeded⟩⟩
      · exact holds
      · exact invariant.place ms id node holds new fetched
      have loop := invariant.addLinks (fun t linkNode ms r => inductionHypothesis t linkNode 0 ms r)
        id node.links weight _ _ (invariant.place ms id node holds new fetched) looped
      cases err₁ with
      | some err =>
          exact (failed err rfl) ▸ loop
      | none =>
          exact (succeeded rfl) ▸ invariant.weigh _ id weight₁ loop

end WalkInvariant

/-! ## Nodes and sizes agree -/

/-- The node list has no duplicates and holds exactly the keys of `sizes`. -/
structure Placed (ms : MState) : Prop where
  nodup : ms.m.nodes.Nodup
  mem_iff : ∀ x, x ∈ ms.m.nodes ↔ x ∈ ms.sizes

/-- The walk keeps the node list and the keys of `sizes` in step. -/
theorem placed_walkInvariant (ng : NodeGetter) : WalkInvariant ng Placed where
  place ms id node placed new _ := by
    refine ⟨List.nodup_append.mpr ⟨placed.nodup, List.nodup_singleton id, ?_⟩, fun x => ?_⟩
    · exact List.disjoint_singleton.mpr fun member => new ((placed.mem_iff id).mp member)
    · simp only [List.mem_append, List.mem_singleton, AList.mem_insert, placed.mem_iff]
      exact or_comm
  record _ _ placed := ⟨placed.nodup, placed.mem_iff⟩
  weigh _ _ _ placed := ⟨placed.nodup, placed.mem_iff⟩

/-- With its nodes in step with `sizes`, the state's `Len()`, read from `sizes`, counts any
rearrangement of its nodes, and every index below it names a node. -/
theorem Placed.len_eq {ms : MState} (placed : Placed ms) {nodes : List String}
    (perm : nodes ~ ms.m.nodes) :
    ms.len = nodes.length ∧ ∀ i, i < ms.len → ∃ x, nodes[i]? = some x := by
  have keys : ms.sizes.keys ~ nodes := ((List.perm_ext_iff_of_nodup ms.sizes.keys_nodup
    placed.nodup).mpr fun x => (placed.mem_iff x).symm).trans perm.symm
  have len : ms.len = nodes.length := keys.length_eq
  exact ⟨len, fun i below => ⟨nodes[i], List.getElem?_eq_getElem (len ▸ below)⟩⟩

/-- Throughout the walk, after every call of `addNode`, successful or failing, the nodes are
distinct and are the keys of `sizes`.  So when `makeManifest` runs `sort.Sort(ms)` on the
nodes the alphabetical sort returned, `Len()`, the number of sizes, is the number of those
nodes, and every index below `Len()`, the only ones `sort.Sort` passes to `Less` and `Swap`,
names a node. -/
theorem addNode_placed (ng : NodeGetter) :
    Placed MState.init ∧
      (∀ (fuel : Nat) (id : String) (node : Node) (weight : Nat) (ms : MState) (r : Added),
        ng id = .ok node → Placed ms → addNode ng fuel id node weight ms = some r →
          Placed r.ms) ∧
      ∀ (fuel : Nat) (root : String) (node : Node) (r : Added), ng root = .ok node →
        addNode ng fuel root node 0 MState.init = some r →
          r.ms.len = (GoSort.sort stringLess r.ms.m.nodes.length r.ms.m.nodes).length ∧
            ∀ i, i < r.ms.len →
              ∃ x, (GoSort.sort stringLess r.ms.m.nodes.length r.ms.m.nodes)[i]? = some x := by
  have init : Placed MState.init := ⟨List.nodup_nil, fun x => by simp [MState.init]⟩
  have keeps := (placed_walkInvariant ng).addNode
  refine ⟨init, keeps, fun fuel root node r fetched run => ?_⟩
  exact (keeps fuel root node 0 _ r fetched init run).len_eq (GoSort.sort_perm stringLess _)

/-! ## Stored sizes -/

/-- Every size stored in the state is the one the getter's node for that id reports. -/
def SizesRead (ng : NodeGetter) (ms : MState) : Prop :=
  ∀ x s, ms.sizes.lookup x = some s → ∃ node, ng x = .ok node ∧ node.size.1 = s

/-- The walk stores only sizes read from the getter's nodes. -/
theorem sizesRead_walkInvariant (ng : NodeGetter) : WalkInvariant ng (SizesRead ng) where
  place ms id node read _ fetched x s stored := by
    by_cases same : x = id
    · subst same
      rw [AList.lookup_insert, Option.some.injEq] at stored
      exact ⟨node, fetched, stored⟩
    · rw [AList.lookup_insert_ne same] at stored
      exact read x s stored
  record _ _ read := read
  weigh _ _ _ read := read

/-- `NewInfo` without error lists one size per node, in node order after both sorts: the size
that the getter's node for that id reports. -/
theorem newInfo_sizes (ng : NodeGetter) (fuel : Nat) (root : String) (info : Info)
    (built : newInfo ng fuel root = some (.ok info)) :
    info.sizes.length = info.manifest.nodes.length ∧
      ∀ (i : Nat) (x : String), info.manifest.nodes[i]? = some x →
        ∃ node, ng x = .ok node ∧ info.sizes[i]? = some node.size.1 := by
  unfold newInfo at built
  obtain ⟨⟨err, ms⟩, run, result⟩ := Option.map_eq_some'.mp built
  obtain rfl : err = none := by cases err <;> simp at result ⊢
  simp only [Except.ok.injEq] at result
  subst result
  obtain ⟨node, weight, walked, fetched, walkRun, rfl⟩ := makeManifest_eq_some run
  have walk := walk_of_addNode fetched walkRun
  have read := (sizesRead_walkInvariant ng).addNode fuel root node 0 MState.init _ fetched
    (fun x s stored => by simp [MState.init] at stored) walkRun
  refine ⟨List.length_map _ _, fun i x atI => ?_⟩
  have placed : x ∈ walked.sizes := (walk.sizes x).mpr
    (walk.order_nodes_perm.subset (List.getElem?_mem atI))
  obtain ⟨s, stored⟩ := Option.isSome_iff_exists.mp (AList.lookup_isSome.mpr placed)
  obtain ⟨readNode, fetchedX, reported⟩ := read x s stored
  have kept : walked.order.sizes = walked.sizes := rfl
  refine ⟨readNode, fetchedX, ?_⟩
  rw [List.getElem?_map, atI, Option.map_some', kept, stored, reported]
  rfl

/-- `diamond` with a distinct size for every node, so that each entry of `Sizes` names the node
it was read from. -/
def sizedDiamond : NodeGetter := fun id =>
  match [("R", (["A", "B", "A"], 10)), ("A", (["C"], 20)), ("B", (["C", "R"], 30)),
      ("C", ([], 40))].lookup id with
  | some (links, size) => .ok ⟨links, (size, none)⟩
  | none => .error "not found"

set_option maxRecDepth 100000 in
/-- `NewInfo` on `sizedDiamond` lists the sizes in the order of the sorted nodes, not in the
order the walk reached them. -/
theorem newInfo_sizes_diamond :
    newInfo sizedDiamond 5 "R" = some (.ok ⟨⟨[(0, 1), (0, 2), (0, 2), (1, 0), (1, 3), (2, 3)],
      ["R", "B", "A", "C"]⟩, [10, 30, 20, 40]⟩) ∧
    ([10, 30, 20, 40] : List UInt64).length = (["R", "B", "A", "C"] : List String).length ∧
      ∀ (i : Nat) (x : String), (["R", "B", "A", "C"] : List String)[i]? = some x →
        ∃ node, sizedDiamond x = .ok node ∧
          ([10, 30, 20, 40] : List UInt64)[i]? = some node.size.1 := by
  have built : newInfo sizedDiamond 5 "R" = some (.ok ⟨⟨[(0, 1), (0, 2), (0, 2), (1, 0),
      (1, 3), (2, 3)], ["R", "B", "A", "C"]⟩, [10, 30, 20, 40]⟩) := by
    rfl
  exact ⟨built, newInfo_sizes sizedDiamond 5 "R" _ built⟩

end Dag
