import Mathlib.Data.Prod.Lex
import Dag.GoSortQuick
import Dag.ManifestFuel
import Dag.ManifestNodes

namespace Dag

open scoped List

/-!
# The order of a manifest's nodes and links

After the walk, `makeManifest` sorts the nodes by id, then by weight with `sort.Sort(ms)`, and
sorts the links with `sort.Sort(sl)`.  The second and third sorts compare keys
(`GoSort.keyLess`): the weights read in reverse, and `linkKey`.  So `GoSort.sortedOn_sort`
applies to both.  The nodes come out heaviest first, which puts the root first, since the walk
weighs it above every other node; the links come out in the order of `linkKey`, which is the
order of their positions while every position is below 1000.

Three things do not follow, and each fails on a concrete graph below.  `sort.Sort` does not keep
the id order of the first sort among nodes of equal weight once there are more than twelve
nodes; up to twelve it is one stable insertion sort, and it does.  A node's weight does not
count a descendant placed earlier through another parent, so a link can point to an earlier
position.  And in `linkKey` a position of 1000 or more carries into the key of the next `from`.
-/

/-- `mstate.Less` compares the weights in reverse. -/
theorem MState.less_eq_keyLess (ms : MState) :
    ms.less = GoSort.keyLess fun x => OrderDual.toDual (ms.weights.read x) :=
  rfl

/-- `sortableLinks.Less` compares `linkKey`. -/
theorem linkLess_eq_keyLess : linkLess = GoSort.keyLess linkKey :=
  rfl

/-- A sorted list read at two ordered positions. -/
theorem GoSort.SortedOn.getElem? {α β : Type} [Inhabited α] [LinearOrder β] {key : α → β}
    {data : List α} (sorted : GoSort.SortedOn key 0 data.length data) {i j : Nat} {x y : α}
    (ordered : i ≤ j) (atI : data[i]? = some x) (atJ : data[j]? = some y) : key x ≤ key y := by
  obtain ⟨inside, rfl⟩ := List.getElem?_eq_some_iff.mp atJ
  have readI : GoSort.get data i = x := by simp [GoSort.get, atI]
  have readJ : GoSort.get data j = data[j] := by simp [GoSort.get, inside]
  exact readI ▸ readJ ▸ sorted i j (Nat.zero_le i) ordered inside

/-- `sort.Sort` with a comparison of keys sorts the whole slice. -/
theorem GoSort.sortedOn_sort_self {α β : Type} [Inhabited α] [LinearOrder β] (key : α → β)
    (data : List α) :
    GoSort.SortedOn key 0 (GoSort.sort (GoSort.keyLess key) data.length data).length
      (GoSort.sort (GoSort.keyLess key) data.length data) := by
  rw [(GoSort.sort_perm _ data).length_eq]
  exact GoSort.sortedOn_sort key le_rfl

/-! ## Nodes -/

section Nodes

variable {ng : NodeGetter} {root : String} {ms : MState}

/-- After the order step the nodes are sorted heaviest first, by the weights of the walk. -/
theorem Walk.order_nodes_sorted (walk : Walk ng root ms) :
    GoSort.SortedOn (fun x => OrderDual.toDual (ms.weights.read x)) 0 ms.order.m.nodes.length
      ms.order.m.nodes := by
  have byId := GoSort.sort_perm stringLess ms.m.nodes
  have len : ms.order.m.nodes.length = ms.len := by
    rw [walk.order_nodes_perm.length_eq, walk.len_eq]
  rw [len]
  exact GoSort.sortedOn_sort _ (by rw [byId.length_eq, walk.len_eq])

/-- After the order step the root is the first node. -/
theorem Walk.order_head (walk : Walk ng root ms) : ms.order.m.nodes[0]? = some root := by
  have member := walk.mem_order_nodes .root
  have first : 0 < ms.order.m.nodes.length := List.length_pos_of_mem member
  rw [List.getElem?_eq_getElem first, Option.some.injEq]
  by_contra other
  have lighter := walk.heaviest _ (walk.order_nodes_perm.subset (List.getElem_mem first)) other
  have heavier := walk.order_nodes_sorted.getElem? (Nat.zero_le _)
    (List.getElem?_eq_getElem first) (List.getElem?_indexOf member)
  exact absurd (OrderDual.toDual_le_toDual.mp heavier) (not_le.mpr lighter)

end Nodes

/-- `NewManifest` without error lists the root first. -/
theorem newManifest_root_first (ng : NodeGetter) (fuel : Nat) (root : String) (m : Manifest)
    (built : newManifest ng fuel root = some (m, none)) : m.nodes[0]? = some root := by
  obtain ⟨walked, walk, rfl⟩ := newManifest_eq_some built
  exact walk.order_head

/-- The manifest of `diamond` starts with its root. -/
theorem newManifest_root_first_diamond :
    newManifest diamond 5 "R" =
        some (⟨[(0, 1), (0, 2), (0, 2), (1, 0), (1, 3), (2, 3)], ["R", "B", "A", "C"]⟩, none) ∧
      ["R", "B", "A", "C"][0]? = some "R" :=
  ⟨newManifest_diamond, newManifest_root_first diamond 5 "R"
    ⟨[(0, 1), (0, 2), (0, 2), (1, 0), (1, 3), (2, 3)], ["R", "B", "A", "C"]⟩ newManifest_diamond⟩

/-- `NewManifest` without error lists the nodes in non-increasing order of the weights that
`addNode` records in the walk from the root, and that walk weighs the root above every other
node. -/
theorem newManifest_nodes_by_weight (ng : NodeGetter) (fuel : Nat) (root : String) (m : Manifest)
    (built : newManifest ng fuel root = some (m, none)) :
    ∃ node weight walked, ng root = .ok node ∧
      addNode ng fuel root node 0 MState.init = some ⟨none, weight, walked⟩ ∧ m = walked.order.m ∧
        (∀ x ∈ m.nodes, x ≠ root → walked.weights.read x < walked.weights.read root) ∧
        ∀ (i j : Nat) (x y : String), i ≤ j → m.nodes[i]? = some x → m.nodes[j]? = some y →
          walked.weights.read y ≤ walked.weights.read x := by
  obtain ⟨node, weight, walked, fetched, run, rfl⟩ := newManifest_eq_some_run built
  have walk := walk_of_addNode fetched run
  refine ⟨node, weight, walked, fetched, run, rfl, fun x member other =>
    walk.heaviest x (walk.order_nodes_perm.subset member) other,
    fun i j x y ordered atI atJ => ?_⟩
  exact OrderDual.toDual_le_toDual.mp (walk.order_nodes_sorted.getElem? ordered atI atJ)

/-- In the manifest of `diamond` the weights of the walk do not increase along the nodes. -/
theorem newManifest_nodes_by_weight_diamond :
    newManifest diamond 5 "R" =
        some (⟨[(0, 1), (0, 2), (0, 2), (1, 0), (1, 3), (2, 3)], ["R", "B", "A", "C"]⟩, none) ∧
      ∃ node weight walked, diamond "R" = .ok node ∧
        addNode diamond 5 "R" node 0 MState.init = some ⟨none, weight, walked⟩ ∧
          (⟨[(0, 1), (0, 2), (0, 2), (1, 0), (1, 3), (2, 3)], ["R", "B", "A", "C"]⟩ : Manifest) =
            walked.order.m ∧
          (∀ x ∈ ["R", "B", "A", "C"], x ≠ "R" →
            walked.weights.read x < walked.weights.read "R") ∧
          ∀ (i j : Nat) (x y : String), i ≤ j →
            ["R", "B", "A", "C"][i]? = some x → ["R", "B", "A", "C"][j]? = some y →
              walked.weights.read y ≤ walked.weights.read x :=
  ⟨newManifest_diamond, newManifest_nodes_by_weight diamond 5 "R"
    ⟨[(0, 1), (0, 2), (0, 2), (1, 0), (1, 3), (2, 3)], ["R", "B", "A", "C"]⟩ newManifest_diamond⟩

/-- A root linking to thirteen leaves, all of weight 0. -/
def star : NodeGetter :=
  tableGetter (("R", ["A", "B", "C", "D", "E", "F", "G", "H", "I", "J", "K", "L", "M"]) ::
    ["A", "B", "C", "D", "E", "F", "G", "H", "I", "J", "K", "L", "M"].map fun leaf => (leaf, []))

set_option maxRecDepth 100000 in
/-- The walk of `star` weighs the leaves `G` and `A` alike, and the manifest lists `G` before
`A`. -/
theorem newManifest_star :
    (addNode star 2 "R"
        ⟨["A", "B", "C", "D", "E", "F", "G", "H", "I", "J", "K", "L", "M"], (0, none)⟩ 0
        MState.init).map (fun r => (r.err, r.ms.weights.read "G", r.ms.weights.read "A")) =
      some (none, 0, 0) ∧
    newManifest star 2 "R" = some (⟨[(0, 1), (0, 2), (0, 3), (0, 4), (0, 5), (0, 6), (0, 7),
      (0, 8), (0, 9), (0, 10), (0, 11), (0, 12), (0, 13)],
      ["R", "G", "C", "D", "E", "F", "A", "H", "I", "J", "K", "L", "M", "B"]⟩, none) :=
  ⟨by decide, by decide⟩

/-- `R` links to `A` and `B`, both link to `T`, and `T` links to three leaves: a DAG in which
`B` reaches `T` after `A` placed it. -/
def shared : NodeGetter :=
  tableGetter [("R", ["A", "B"]), ("A", ["T"]), ("T", ["X", "Y", "Z"]), ("B", ["T"]), ("X", []),
    ("Y", []), ("Z", [])]

set_option maxRecDepth 100000 in
/-- The walk of `shared` weighs `B` 1 and its child `T` 3, and the manifest has the link
`(3, 2)` from `B` back to `T`. -/
theorem newManifest_shared :
    (addNode shared 4 "R" ⟨["A", "B"], (0, none)⟩ 0 MState.init).map
        (fun r => (r.err, r.ms.weights.read "B", r.ms.weights.read "T")) = some (none, 1, 3) ∧
      newManifest shared 4 "R" = some (⟨[(0, 1), (0, 3), (1, 2), (2, 4), (2, 5), (2, 6), (3, 2)],
        ["R", "A", "T", "B", "X", "Y", "Z"]⟩, none) :=
  ⟨by decide, by decide⟩

/-! ## Short manifests

On at most `maxInsertion` nodes, `sort.Sort(ms)` is one insertion sort, which is stable.  It gets
the nodes in id order from the first sort, distinct, so among nodes of equal weight it keeps
the id order: the order the `Manifest` documentation asks for holds on every graph of at most
twelve reachable nodes, the case `star` just exceeds.
-/

/-- The order the `Manifest` documentation asks for: heavier first, then by id. -/
def MState.docKey (ms : MState) (x : String) : Lex (Natᵒᵈ × List Char) :=
  toLex (OrderDual.toDual (ms.weights.read x), x.toList)

section Short

variable {ng : NodeGetter} {root : String} {ms : MState}

/-- The first sort of the order step lists the nodes in strictly increasing id order. -/
theorem Walk.byId_lt (walk : Walk ng root ms) {k i : Nat} (before : k < i)
    (upper : i < ms.m.nodes.length) :
    (GoSort.get (GoSort.sort stringLess ms.m.nodes.length ms.m.nodes) k).toList <
      (GoSort.get (GoSort.sort stringLess ms.m.nodes.length ms.m.nodes) i).toList := by
  have perm := GoSort.sort_perm stringLess ms.m.nodes
  have sorted : GoSort.SortedOn String.toList 0 ms.m.nodes.length
      (GoSort.sort stringLess ms.m.nodes.length ms.m.nodes) :=
    GoSort.sortedOn_sort String.toList le_rfl
  have distinct := perm.nodup_iff.mpr walk.nodup
  refine lt_of_le_of_ne (sorted k i (Nat.zero_le k) before.le upper) fun same => ?_
  have inside : i < (GoSort.sort stringLess ms.m.nodes.length ms.m.nodes).length := by
    rwa [perm.length_eq]
  simp only [GoSort.get, List.getD_eq_getElem?_getD, List.getElem?_eq_getElem inside,
    List.getElem?_eq_getElem (before.trans inside), Option.getD_some] at same
  exact before.ne ((List.Nodup.getElem_inj_iff distinct).mp (String.ext same))

/-- On at most `maxInsertion` nodes the order step lists the nodes heavier first, then by id. -/
theorem Walk.order_nodes_short_sorted (walk : Walk ng root ms)
    (short : ms.m.nodes.length ≤ GoSort.maxInsertion) :
    GoSort.SortedOn ms.docKey 0 ms.order.m.nodes.length ms.order.m.nodes := by
  have perm := GoSort.sort_perm stringLess ms.m.nodes
  have len : ms.len = (GoSort.sort stringLess ms.m.nodes.length ms.m.nodes).length := by
    rw [perm.length_eq, walk.len_eq]
  have stable : ms.order.m.nodes = GoSort.insertionSort (GoSort.keyLess ms.docKey)
      (GoSort.sort stringLess ms.m.nodes.length ms.m.nodes) 0 ms.len := by
    show GoSort.sort ms.less ms.len _ = _
    rw [GoSort.sort_eq_insertionSort _ _ (walk.len_eq ▸ short)]
    refine GoSort.insertionSort_congr len.le fun k i _ before upper => ?_
    have ordered := walk.byId_lt before (by rwa [walk.len_eq] at upper)
    simp only [MState.less, GoSort.keyLess, MState.docKey, Prod.Lex.lt_iff,
      OrderDual.toDual_lt_toDual, EmbeddingLike.apply_eq_iff_eq]
    exact decide_eq_decide.mpr (or_iff_left fun tie => lt_asymm ordered tie.2).symm
  rw [stable, (GoSort.permOn_insertionSort _ len.le).1, ← len]
  exact GoSort.sortedOn_insertionSort ms.docKey len.le

end Short

/-- `NewManifest` without error on a graph of at most twelve reachable nodes lists the nodes
heavier first, by the weights `addNode` records, and nodes of equal weight in increasing
byte-wise order of their ids. -/
theorem newManifest_short_nodes_order (ng : NodeGetter) (fuel : Nat) (root : String)
    (m : Manifest) (built : newManifest ng fuel root = some (m, none))
    (short : m.nodes.length ≤ 12) :
    ∃ node weight walked, ng root = .ok node ∧
      addNode ng fuel root node 0 MState.init = some ⟨none, weight, walked⟩ ∧ m = walked.order.m ∧
        ∀ (i j : Nat) (x y : String), i < j → m.nodes[i]? = some x → m.nodes[j]? = some y →
          walked.weights.read y < walked.weights.read x ∨
            walked.weights.read y = walked.weights.read x ∧ stringLess x y = true := by
  obtain ⟨node, weight, walked, fetched, run, rfl⟩ := newManifest_eq_some_run built
  have walk := walk_of_addNode fetched run
  refine ⟨node, weight, walked, fetched, run, rfl, fun i j x y before atI atJ => ?_⟩
  have sorted := walk.order_nodes_short_sorted (walk.order_nodes_perm.length_eq ▸ short)
  have distinct : x ≠ y := by
    rintro rfl
    obtain ⟨insideI, rfl⟩ := List.getElem?_eq_some_iff.mp atI
    obtain ⟨insideJ, same⟩ := List.getElem?_eq_some_iff.mp atJ
    exact before.ne ((List.Nodup.getElem_inj_iff
      (walk.order_nodes_perm.nodup_iff.mpr walk.nodup)).mp same.symm)
  have strict := lt_of_le_of_ne (sorted.getElem? before.le atI atJ) fun same =>
    distinct (String.ext (congrArg (fun key => (ofLex key).2) same))
  simp only [MState.docKey, Prod.Lex.lt_iff, OrderDual.toDual_lt_toDual,
    EmbeddingLike.apply_eq_iff_eq] at strict
  simpa [stringLess, eq_comm] using strict

/-- A root linking to three leaves, listed out of id order. -/
def smallStar : NodeGetter :=
  tableGetter [("R", ["C", "A", "B"]), ("C", []), ("A", []), ("B", [])]

/-- The manifest of `smallStar` lists its three leaves of weight 0 in id order. -/
theorem newManifest_short_nodes_order_smallStar :
    newManifest smallStar 5 "R" =
        some (⟨[(0, 1), (0, 2), (0, 3)], ["R", "A", "B", "C"]⟩, none) ∧
      ["R", "A", "B", "C"].length ≤ 12 ∧
      ∃ node weight walked, smallStar "R" = .ok node ∧
        addNode smallStar 5 "R" node 0 MState.init = some ⟨none, weight, walked⟩ ∧
        (⟨[(0, 1), (0, 2), (0, 3)], ["R", "A", "B", "C"]⟩ : Manifest) = walked.order.m ∧
        ∀ (i j : Nat) (x y : String), i < j →
          ["R", "A", "B", "C"][i]? = some x → ["R", "A", "B", "C"][j]? = some y →
            walked.weights.read y < walked.weights.read x ∨
              walked.weights.read y = walked.weights.read x ∧ stringLess x y = true := by
  have built : newManifest smallStar 5 "R" =
      some (⟨[(0, 1), (0, 2), (0, 3)], ["R", "A", "B", "C"]⟩, none) := by
    decide
  exact ⟨built, by decide, newManifest_short_nodes_order smallStar 5 "R" _ built (by decide)⟩

/-! ## Links -/

/-- After the order step the links are sorted by `linkKey`. -/
theorem MState.order_links_sorted (ms : MState) :
    GoSort.SortedOn linkKey 0 ms.order.m.links.length ms.order.m.links :=
  GoSort.sortedOn_sort_self linkKey _

/-- `NewManifest` without error lists the links in non-decreasing order of `linkKey`. -/
theorem newManifest_links_by_key (ng : NodeGetter) (fuel : Nat) (root : String) (m : Manifest)
    (built : newManifest ng fuel root = some (m, none)) :
    ∀ (i j : Nat) (x y : Nat × Nat), i ≤ j → m.links[i]? = some x → m.links[j]? = some y →
      linkKey x ≤ linkKey y := by
  obtain ⟨walked, -, rfl⟩ := newManifest_eq_some built
  exact fun i j x y ordered atI atJ => walked.order_links_sorted.getElem? ordered atI atJ

/-- The links of `diamond`'s manifest are in the order of their keys. -/
theorem newManifest_links_by_key_diamond :
    newManifest diamond 5 "R" =
        some (⟨[(0, 1), (0, 2), (0, 2), (1, 0), (1, 3), (2, 3)], ["R", "B", "A", "C"]⟩, none) ∧
      ∀ (i j : Nat) (x y : Nat × Nat), i ≤ j →
        [(0, 1), (0, 2), (0, 2), (1, 0), (1, 3), (2, 3)][i]? = some x →
          [(0, 1), (0, 2), (0, 2), (1, 0), (1, 3), (2, 3)][j]? = some y → linkKey x ≤ linkKey y :=
  ⟨newManifest_diamond, newManifest_links_by_key diamond 5 "R"
    ⟨[(0, 1), (0, 2), (0, 2), (1, 0), (1, 3), (2, 3)], ["R", "B", "A", "C"]⟩ newManifest_diamond⟩

/-- `NewManifest` without error on a graph of at most 1000 nodes lists the links in
lexicographic order of their positions. -/
theorem newManifest_links_lex (ng : NodeGetter) (fuel : Nat) (root : String) (m : Manifest)
    (built : newManifest ng fuel root = some (m, none)) (small : m.nodes.length ≤ 1000) :
    ∀ (i j : Nat) (x y : Nat × Nat), i ≤ j → m.links[i]? = some x → m.links[j]? = some y →
      x.1 < y.1 ∨ x.1 = y.1 ∧ x.2 ≤ y.2 := by
  obtain ⟨walked, walk, rfl⟩ := newManifest_eq_some built
  intro i j x y ordered atI atJ
  have keyOrder := walked.order_links_sorted.getElem? ordered atI atJ
  have boundX := walk.order_links_lt (List.getElem?_mem atI)
  have boundY := walk.order_links_lt (List.getElem?_mem atJ)
  simp only [linkKey] at keyOrder
  omega

/-- The links of `diamond`'s manifest are in lexicographic order. -/
theorem newManifest_links_lex_diamond :
    newManifest diamond 5 "R" =
        some (⟨[(0, 1), (0, 2), (0, 2), (1, 0), (1, 3), (2, 3)], ["R", "B", "A", "C"]⟩, none) ∧
      ["R", "B", "A", "C"].length ≤ 1000 ∧
      ∀ (i j : Nat) (x y : Nat × Nat), i ≤ j →
        [(0, 1), (0, 2), (0, 2), (1, 0), (1, 3), (2, 3)][i]? = some x →
          [(0, 1), (0, 2), (0, 2), (1, 0), (1, 3), (2, 3)][j]? = some y →
            x.1 < y.1 ∨ x.1 = y.1 ∧ x.2 ≤ y.2 :=
  ⟨newManifest_diamond, by decide, newManifest_links_lex diamond 5 "R"
    ⟨[(0, 1), (0, 2), (0, 2), (1, 0), (1, 3), (2, 3)], ["R", "B", "A", "C"]⟩ newManifest_diamond
    (by decide)⟩

/-! ## A manifest of more than 1000 nodes -/

/-- The id of the child `i` of `fan`: `i + 1` letters `x`. -/
def fanChild (i : Nat) : String :=
  String.mk (List.replicate (i + 1) 'x')

/-- A root `R` linking to `n` children, each linking back to `R`. -/
def fan (n : Nat) : NodeGetter := fun id =>
  if id = "R" then .ok ⟨(List.range n).map fanChild, (0, none)⟩ else .ok ⟨["R"], (0, none)⟩

/-- No child of `fan` is its root. -/
theorem fanChild_ne_root (i : Nat) : fanChild i ≠ "R" := fun same => by
  have first := congrArg (fun s : String => s.data.head?) same
  simp [fanChild, List.replicate_succ] at first

/-- The children of `fan` are distinct. -/
theorem fanChild_injective : Function.Injective fanChild := fun i j same => by
  have lengths := congrArg String.length same
  simpa [fanChild, String.length] using lengths

section Fan

variable {n : Nat}

/-- Every fetch of `fan` succeeds. -/
theorem healthy_fan : Healthy (fan n) "R" := by
  intro id _
  unfold fan
  split <;> exact ⟨_, rfl, rfl⟩

/-- The root of `fan` links to every child, and every other id links to the root. -/
theorem outLinks_fan (x : String) :
    outLinks (fan n) x = if x = "R" then (List.range n).map fanChild else ["R"] := by
  by_cases root : x = "R" <;> simp [outLinks, fan, root]

/-- The ids reachable in `fan` are the root and its children. -/
theorem reachable_fan_iff {x : String} :
    Reachable (fan n) "R" x ↔ x ∈ "R" :: (List.range n).map fanChild := by
  constructor
  · intro path
    cases path with
    | root =>
        exact List.mem_cons_self _ _
    | link _ fetched target =>
        have linked := mem_outLinks fetched target
        rw [outLinks_fan] at linked
        split at linked
        · exact List.mem_cons_of_mem _ linked
        · rw [List.mem_singleton.mp linked]
          exact List.mem_cons_self _ _
  · intro member
    rcases List.mem_cons.mp member with rfl | child
    · exact .root
    · exact @Reachable.link _ _ "R" x ⟨(List.range n).map fanChild, (0, none)⟩ .root
        (by simp [fan]) child

variable {ms : MState} (walk : Walk (fan n) "R" ms)
include walk

/-- After the order step `fan` has one node more than children. -/
theorem Walk.fan_length : ms.order.m.nodes.length = n + 1 := by
  have distinct : ("R" :: (List.range n).map fanChild).Nodup :=
    List.nodup_cons.mpr ⟨fun member => by
      obtain ⟨i, -, same⟩ := List.mem_map.mp member
      exact fanChild_ne_root i same, (List.nodup_range n).map fanChild_injective⟩
  have same : ms.order.m.nodes ~ "R" :: (List.range n).map fanChild :=
    (List.perm_ext_iff_of_nodup (walk.order_nodes_perm.nodup_iff.mpr walk.nodup) distinct).mpr
      fun x => (walk.order_nodes_perm.mem_iff.trans (walk.reachable x)).trans reachable_fan_iff
  simp [same.length_eq]

/-- After the order step `fan` has the links `(0, k)` and `(k, 0)` for every position `k` of a
child. -/
theorem Walk.fan_links {k : Nat} (positive : 0 < k) (inside : k ≤ n) :
    (0, k) ∈ ms.order.m.links ∧ (k, 0) ∈ ms.order.m.links := by
  have distinct := walk.order_nodes_perm.nodup_iff.mpr walk.nodup
  have length := walk.fan_length
  have rootAt : ms.order.m.nodes[0]? = some "R" := walk.order_head
  obtain ⟨first, rootFirst⟩ := List.getElem?_eq_some_iff.mp rootAt
  have childAt : k < ms.order.m.nodes.length := by omega
  have child : ms.order.m.nodes[k] ≠ "R" := fun same => by
    have := (distinct.getElem_inj_iff.mp (same.trans rootFirst.symm) : k = 0)
    omega
  have member := List.getElem_mem childAt
  have reached := (walk.reachable _).mp (walk.order_nodes_perm.subset member)
  have toChild : ms.order.m.nodes[k] ∈ outLinks (fan n) "R" := by
    rw [outLinks_fan, if_pos rfl]
    exact (List.mem_cons.mp (reachable_fan_iff.mp reached)).resolve_left child
  have toRoot : "R" ∈ outLinks (fan n) ms.order.m.nodes[k] := by
    rw [outLinks_fan, if_neg child]
    exact List.mem_singleton_self _
  have positionK := List.indexOf_getElem distinct k childAt
  have position0 : ms.order.m.nodes.indexOf "R" = 0 := by
    rw [← rootFirst]
    exact List.indexOf_getElem distinct 0 first
  have rootPlaced := (walk.reachable "R").mpr .root
  have childPlaced := walk.order_nodes_perm.subset member
  constructor
  · simpa only [position0, positionK] using walk.mem_order_links rootPlaced toChild
  · simpa only [position0, positionK] using walk.mem_order_links childPlaced toRoot

omit walk

/-- With more than 1000 children the manifest of `fan` lists the link `(1, 0)` before the link
`(0, n)`, against the lexicographic order. -/
theorem newManifest_fan (large : 1000 < n) :
    ∃ m, newManifest (fan n) (n + 2) "R" = some (m, none) ∧
      ∃ i j : Nat, i < j ∧ m.links[i]? = some (1, 0) ∧ m.links[j]? = some (0, n) := by
  have finite : ∀ x, Reachable (fan n) "R" x → x ∈ ("R" :: (List.range n).map fanChild).toFinset :=
    fun x path => List.mem_toFinset.mpr (reachable_fan_iff.mp path)
  have enough : ("R" :: (List.range n).map fanChild).toFinset.card < n + 2 :=
    (List.toFinset_card_le _).trans_lt (by simp)
  obtain ⟨built, run⟩ := makeManifest_healthy finite healthy_fan enough
  obtain ⟨node, weight, walked, fetched, walkRun, rfl⟩ := makeManifest_eq_some run
  have walk := walk_of_addNode fetched walkRun
  refine ⟨walked.order.m, by simp [newManifest, run], ?_⟩
  have back := (walk.fan_links (k := 1) (by omega) (by omega)).2
  have out := (walk.fan_links (k := n) (by omega) le_rfl).1
  refine ⟨_, _, ?_, List.getElem?_indexOf back, List.getElem?_indexOf out⟩
  by_contra notBefore
  have keyOrder := walked.order_links_sorted.getElem? (not_lt.mp notBefore)
    (List.getElem?_indexOf out) (List.getElem?_indexOf back)
  simp only [linkKey] at keyOrder
  omega

end Fan

/-- The manifest of `fan 1001` lists the link `(1, 0)` before the link `(0, 1001)`. -/
theorem newManifest_fan_unsorted :
    ∃ m, newManifest (fan 1001) 1003 "R" = some (m, none) ∧
      ∃ i j : Nat, i < j ∧ m.links[i]? = some (1, 0) ∧ m.links[j]? = some (0, 1001) :=
  newManifest_fan (by decide)

end Dag
