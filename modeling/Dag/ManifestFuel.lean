import Mathlib.Data.Finset.Card
import Dag.ManifestWalk

namespace Dag

/-!
# Enough fuel for the walk

`addNode` carries a fuel argument where Go has unbounded recursion.  Fuel is only a bound:
a call that returns with some fuel returns the same with more (`addNode_mono`).  And a bound
always exists when the reachable ids lie in a finite set: every call that goes on to recurse
first places its id, so the number of ids of that set not yet placed drops at every level of
nesting (`addNode_isSome`).  Over a getter that fetches every reachable node with its size, no
call fails either (`addNode_no_error`), so that `NewManifest` then returns no error.
-/

/-- The loop of `addLinks` gives the same answer with a `visit` that answers whenever the first
one does, and the same. -/
theorem addLinks_mono (ng : NodeGetter) {visit visit' : String → Node → Nat → MState → Option Added}
    (extends' : ∀ t linkNode ms r, visit t linkNode 0 ms = some r → visit' t linkNode 0 ms = some r)
    (id : String) (links : List String) :
    ∀ (weight : Nat) (ms : MState) (r : Added), addLinks ng visit id links weight ms = some r →
      addLinks ng visit' id links weight ms = some r := by
  induction links with
  | nil =>
      exact fun _ _ _ run => run
  | cons t rest inductionHypothesis =>
      intro weight ms r run
      rw [addLinks]
      rcases addLinks_cons_eq_some run with ⟨err, fetch, rfl⟩ |
        ⟨linkNode, err₁, lWeight, ms₁, fetch, visited, failed, succeeded⟩
      · simp [fetch]
      simp only [fetch, extends' _ _ _ _ visited]
      cases err₁ with
      | some err =>
          simp [failed err rfl]
      | none =>
          exact inductionHypothesis _ _ r (succeeded rfl)

/-- One more unit of fuel changes no answer of `addNode`. -/
theorem addNode_succ (ng : NodeGetter) :
    ∀ (fuel : Nat) (id : String) (node : Node) (weight : Nat) (ms : MState) (r : Added),
      addNode ng fuel id node weight ms = some r → addNode ng (fuel + 1) id node weight ms = some r
  | 0, _, _, _, _, _, run => by simp [addNode] at run
  | fuel + 1, id, node, weight, ms, r, run => by
      rcases addNode_succ_eq_some run with ⟨placed, rfl⟩ | ⟨placed, ⟨err, sized, rfl⟩ |
        ⟨sized, err₁, weight₁, ms₁, looped, failed, succeeded⟩⟩
      · simp [addNode, placed]
      · simp [addNode, placed, sized]
      have loop := addLinks_mono ng (fun t linkNode ms r => addNode_succ ng fuel t linkNode 0 ms r)
        id node.links weight _ _ looped
      rw [addNode, if_neg placed]
      simp only [sized, loop]
      cases err₁ with
      | some err =>
          simp [failed err rfl]
      | none =>
          simp [succeeded rfl]

/-- More fuel changes no answer of `addNode`. -/
theorem addNode_mono {ng : NodeGetter} {fuel fuel' : Nat} (more : fuel ≤ fuel') {id : String}
    {node : Node} {weight : Nat} {ms : MState} {r : Added}
    (run : addNode ng fuel id node weight ms = some r) :
    addNode ng fuel' id node weight ms = some r := by
  induction more with
  | refl =>
      exact run
  | step _ inductionHypothesis =>
      exact addNode_succ ng _ _ _ _ _ _ inductionHypothesis

/-! ## Getters that never fail -/

/-- A getter that fetches every id reachable from `root`, each node reporting its size without
error. -/
def Healthy (ng : NodeGetter) (root : String) : Prop :=
  ∀ id, Reachable ng root id → ∃ node, ng id = .ok node ∧ node.size.2 = none

/-- Over a healthy getter the loop of `addLinks` over reachable targets ends without error when
every `visit` of a reachable id does. -/
theorem addLinks_no_error {ng : NodeGetter} {root : String} (healthy : Healthy ng root)
    {visit : String → Node → Nat → MState → Option Added}
    (visitOk : ∀ t linkNode ms r, Reachable ng root t → ng t = .ok linkNode →
      visit t linkNode 0 ms = some r → r.err = none)
    (id : String) (links : List String) (targets : ∀ t ∈ links, Reachable ng root t) :
    ∀ (weight : Nat) (ms : MState) (r : Added), addLinks ng visit id links weight ms = some r →
      r.err = none := by
  induction links with
  | nil =>
      intro weight ms r run
      simp only [addLinks, Option.some.injEq] at run
      rw [← run]
  | cons t rest inductionHypothesis =>
      intro weight ms r run
      have reached := targets t (List.mem_cons_self t rest)
      obtain ⟨linkNode, fetched, -⟩ := healthy t reached
      rcases addLinks_cons_eq_some run with ⟨err, failed, -⟩ |
        ⟨linkNode, err₁, lWeight, ms₁, fetch, visited, -, succeeded⟩
      · rw [fetched] at failed
        cases failed
      obtain rfl : err₁ = none := visitOk _ _ _ _ reached fetch visited
      exact inductionHypothesis (fun u member => targets u (List.mem_cons_of_mem t member))
        _ _ _ (succeeded rfl)

/-- Over a healthy getter `addNode` on a reachable id never ends with an error. -/
theorem addNode_no_error {ng : NodeGetter} {root : String} (healthy : Healthy ng root) :
    ∀ (fuel : Nat) (id : String) (node : Node) (weight : Nat) (ms : MState) (r : Added),
      Reachable ng root id → ng id = .ok node → addNode ng fuel id node weight ms = some r →
        r.err = none
  | 0, _, _, _, _, _, _, _, run => by simp [addNode] at run
  | fuel + 1, id, node, weight, ms, r, path, fetched, run => by
      obtain ⟨node', fetched', sized⟩ := healthy id path
      obtain rfl : node' = node := Except.ok.inj (fetched'.symm.trans fetched)
      rcases addNode_succ_eq_some run with ⟨-, rfl⟩ | ⟨-, ⟨err, failed, -⟩ |
        ⟨-, err₁, weight₁, ms₁, looped, -, succeeded⟩⟩
      · rfl
      · rw [sized] at failed
        cases failed
      obtain rfl : err₁ = none := addLinks_no_error healthy
        (fun t linkNode ms r => addNode_no_error healthy fuel t linkNode 0 ms r) id _
        (fun _ member => .link path fetched member) _ _ _ looped
      rw [succeeded rfl]

section Enough

variable {ng : NodeGetter} {root : String} {reach : Finset String}

/-- The ids of `reach` that the state has not placed yet. -/
def unplaced (reach : Finset String) (ms : MState) : Finset String :=
  reach.filter fun x => x ∉ ms.sizes

/-- Placing more ids leaves fewer unplaced. -/
theorem card_unplaced_le {ms ms' : MState} (grown : ∀ x, x ∈ ms.sizes → x ∈ ms'.sizes) :
    (unplaced reach ms').card ≤ (unplaced reach ms).card :=
  Finset.card_le_card fun x member => by
    simp only [unplaced, Finset.mem_filter] at member ⊢
    exact ⟨member.1, fun placed => member.2 (grown x placed)⟩

/-- Placing an unplaced id of `reach` leaves strictly fewer unplaced. -/
theorem card_unplaced_insert_lt {ms : MState} {id : String} (size : UInt64)
    (target : id ∈ reach) (absent : id ∉ ms.sizes) :
    (unplaced reach
        { ms with m.nodes := ms.m.nodes ++ [id], sizes := ms.sizes.insert id size }).card
      < (unplaced reach ms).card := by
  refine Finset.card_lt_card ((Finset.ssubset_iff_of_subset fun x member => ?_).mpr
    ⟨id, Finset.mem_filter.mpr ⟨target, absent⟩, ?_⟩)
  · simp only [unplaced, Finset.mem_filter, AList.mem_insert, not_or] at member ⊢
    exact ⟨member.1, member.2.2⟩
  · simp [unplaced]

/-- The loop of `addLinks` over reachable targets answers from a state with fewer than `fuel`
unplaced ids, when every visit of a reachable id from such a state answers and every successful
visit only places more ids. -/
theorem addLinks_isSome {visit : String → Node → Nat → MState → Option Added} {fuel : Nat}
    (visitSome : ∀ t linkNode ms, Reachable ng root t → ng t = .ok linkNode →
      (unplaced reach ms).card < fuel → (visit t linkNode 0 ms).isSome)
    (visitGrows : ∀ t linkNode ms r, ng t = .ok linkNode → visit t linkNode 0 ms = some r →
      r.err = none → ∀ x, x ∈ ms.sizes → x ∈ r.ms.sizes)
    (id : String) (links : List String) :
    ∀ (weight : Nat) (ms : MState), (∀ t ∈ links, Reachable ng root t) →
      (unplaced reach ms).card < fuel → (addLinks ng visit id links weight ms).isSome := by
  induction links with
  | nil =>
      intro weight ms _ _
      rfl
  | cons t rest inductionHypothesis =>
      intro weight ms targets enough
      rw [addLinks]
      cases fetch : ng t with
      | error err =>
          rfl
      | ok linkNode =>
          have answered := visitSome t linkNode { ms with links := ms.links ++ [(id, t)] }
            (targets t (List.mem_cons_self t rest)) fetch enough
          simp only
          cases visited : visit t linkNode 0 { ms with links := ms.links ++ [(id, t)] } with
          | none =>
              simp [visited] at answered
          | some r₁ =>
              obtain ⟨err₁, lWeight, ms₁⟩ := r₁
              cases err₁ with
              | some err =>
                  rfl
              | none =>
                  exact inductionHypothesis _ ms₁
                    (fun u member => targets u (List.mem_cons_of_mem t member))
                    (lt_of_le_of_lt (card_unplaced_le (visitGrows _ _ _ _ fetch visited rfl))
                      enough)

variable (finite : ∀ x, Reachable ng root x → x ∈ reach)
include finite

/-- With more fuel than unplaced ids of a finite set holding every reachable id, `addNode`
on a reachable fetched node answers. -/
theorem addNode_isSome :
    ∀ (fuel : Nat) (id : String) (node : Node) (weight : Nat) (ms : MState),
      ng id = .ok node → Reachable ng root id → (unplaced reach ms).card < fuel →
        (addNode ng fuel id node weight ms).isSome
  | 0, _, _, _, _, _, _, enough => absurd enough (Nat.not_lt_zero _)
  | fuel + 1, id, node, weight, ms, fetched, path, enough => by
      rw [addNode]
      split
      · rfl
      next absent =>
      have fewer := card_unplaced_insert_lt node.size.1 (finite id path) absent
      generalize { ms with m.nodes := ms.m.nodes ++ [id], sizes := ms.sizes.insert id node.size.1 }
        = ms₁ at fewer ⊢
      cases node.size.2 with
      | some err =>
          rfl
      | none =>
          have answered := addLinks_isSome
            (fun t linkNode ms reached fetch enough =>
              addNode_isSome fuel t linkNode 0 ms fetch reached enough)
            (fun t linkNode ms r fetch visited ok x placed => by
              obtain ⟨fresh, appended, added⟩ :=
                addNode_spec ng fuel t linkNode 0 ms r fetch visited ok
              exact added.grew.mem_sizes placed)
            id node.links weight ms₁ (fun t member => .link path fetched member) (by omega)
          simp only
          split <;> simp_all

/-- Over a healthy getter whose reachable ids lie in a finite set, `makeManifest` from the fresh
state succeeds with any fuel above the size of that set. -/
theorem makeManifest_healthy (healthy : Healthy ng root) {fuel : Nat}
    (enough : reach.card < fuel) :
    ∃ ms, makeManifest ng fuel root MState.init = some (none, ms) := by
  obtain ⟨node, fetched, -⟩ := healthy root .root
  have answered := addNode_isSome finite fuel root node 0 MState.init fetched .root
    (by simpa [unplaced, MState.init] using enough)
  obtain ⟨⟨err, weight, walked⟩, run⟩ := Option.isSome_iff_exists.mp answered
  obtain rfl : err = none :=
    addNode_no_error healthy fuel root node 0 MState.init _ .root fetched run
  exact ⟨walked.order, by simp [makeManifest, fetched, run]⟩

end Enough

/-- Every id reachable from `root` lies in a set that holds `root` and the link targets of its
members. -/
theorem Reachable.mem_of_closed {ng : NodeGetter} {root : String} {reach : Finset String}
    (start : root ∈ reach) (closed : ∀ u ∈ reach, ∀ t ∈ outLinks ng u, t ∈ reach) {x : String}
    (path : Reachable ng root x) : x ∈ reach := by
  induction path with
  | root =>
      exact start
  | link _ fetched target inductionHypothesis =>
      exact closed _ inductionHypothesis _ (mem_outLinks fetched target)

/-- When every id reachable from the root lies in a finite set `reach`, `makeManifest` from the
fresh state answers, and gives the same answer, with any fuel above the size of `reach`. -/
theorem makeManifest_terminates (ng : NodeGetter) (root : String) (reach : Finset String)
    (finite : ∀ x, Reachable ng root x → x ∈ reach) :
    ∃ result, ∀ fuel, reach.card < fuel → makeManifest ng fuel root MState.init = some result := by
  cases fetched : ng root with
  | error err =>
      exact ⟨(some err, MState.init), fun fuel _ => by simp [makeManifest, fetched]⟩
  | ok node =>
      have answered := addNode_isSome finite (reach.card + 1) root node 0 MState.init fetched .root
        (by simp [unplaced, MState.init])
      obtain ⟨⟨err, weight, walked⟩, run⟩ := Option.isSome_iff_exists.mp answered
      refine ⟨match err with
        | some err => (some err, walked)
        | none => (none, walked.order), fun fuel enough => ?_⟩
      have same := addNode_mono (by omega : reach.card + 1 ≤ fuel) run
      cases err <;> simp [makeManifest, fetched, same]

/-- The ids reachable in `diamond` are its four nodes. -/
theorem reachable_diamond {x : String} (path : Reachable diamond "R" x) :
    x ∈ ({"R", "A", "B", "C"} : Finset String) :=
  Reachable.mem_of_closed (by decide) (by decide) path

/-- The build of `diamond` ends with any fuel above 4. -/
theorem makeManifest_terminates_diamond :
    (∀ x, Reachable diamond "R" x → x ∈ ({"R", "A", "B", "C"} : Finset String)) ∧
      ∃ result, ∀ fuel, ({"R", "A", "B", "C"} : Finset String).card < fuel →
        makeManifest diamond fuel "R" MState.init = some result :=
  ⟨fun _ path => reachable_diamond path,
    makeManifest_terminates diamond "R" _ fun _ path => reachable_diamond path⟩

/-- `NewManifest` over a getter healthy on a finite reachable part returns no error when given
more fuel than the size of a finite set holding every reachable id. -/
theorem newManifest_healthy (ng : NodeGetter) (root : String) (reach : Finset String)
    (finite : ∀ x, Reachable ng root x → x ∈ reach) (healthy : Healthy ng root) (fuel : Nat)
    (enough : reach.card < fuel) : ∃ m, newManifest ng fuel root = some (m, none) := by
  obtain ⟨ms, built⟩ := makeManifest_healthy finite healthy enough
  exact ⟨ms.m, by simp [newManifest, built]⟩

/-- Every id reachable in `diamond` fetches, with its size. -/
theorem healthy_diamond : Healthy diamond "R" := fun id path => by
  have member := reachable_diamond path
  simp only [Finset.mem_insert, Finset.mem_singleton] at member
  rcases member with rfl | rfl | rfl | rfl <;> exact ⟨_, rfl, rfl⟩

/-- The build of `diamond` ends without error with fuel 5. -/
theorem newManifest_healthy_diamond :
    (∀ x, Reachable diamond "R" x → x ∈ ({"R", "A", "B", "C"} : Finset String)) ∧
      Healthy diamond "R" ∧ ({"R", "A", "B", "C"} : Finset String).card < 5 ∧
        ∃ m, newManifest diamond 5 "R" = some (m, none) :=
  ⟨fun _ path => reachable_diamond path, healthy_diamond, by decide,
    newManifest_healthy diamond "R" _ (fun _ path => reachable_diamond path) healthy_diamond 5
      (by decide)⟩

/-! ## What the walk reads

The walk fetches only the link targets of nodes it fetched, so it reads the getter only at ids
reachable from the root: two getters that agree there give the same build. -/

section Reads

variable {ng ng' : NodeGetter}

/-- The loop of `addLinks` reads the getter only at its link targets and visits only them. -/
theorem addLinks_congr {visit visit' : String → Node → Nat → MState → Option Added}
    (id : String) :
    ∀ (links : List String) (weight : Nat) (ms : MState), (∀ t ∈ links, ng' t = ng t) →
      (∀ t ∈ links, ∀ linkNode ms, ng t = .ok linkNode →
        visit' t linkNode 0 ms = visit t linkNode 0 ms) →
      addLinks ng' visit' id links weight ms = addLinks ng visit id links weight ms
  | [], _, _, _, _ => rfl
  | t :: rest, weight, ms, agree, visits => by
      rw [addLinks, addLinks, agree t (List.mem_cons_self t rest)]
      cases fetched : ng t with
      | error err =>
          rfl
      | ok linkNode =>
          dsimp only
          rw [visits t (List.mem_cons_self t rest) linkNode _ fetched]
          generalize visit t linkNode 0 { ms with links := ms.links ++ [(id, t)] } = result
          rcases result with _ | ⟨_ | err, lWeight, ms₁⟩
          · rfl
          · exact addLinks_congr id rest _ _
              (fun t' later => agree t' (List.mem_cons_of_mem t later))
              (fun t' later => visits t' (List.mem_cons_of_mem t later))
          · rfl

/-- `addNode` on a reachable id reads the getter only at reachable ids. -/
theorem addNode_congr {root : String} (agree : ∀ x, Reachable ng root x → ng' x = ng x) :
    ∀ (fuel : Nat) (id : String) (node : Node) (weight : Nat) (ms : MState),
      Reachable ng root id → ng id = .ok node →
        addNode ng' fuel id node weight ms = addNode ng fuel id node weight ms
  | 0, _, _, _, _, _, _ => rfl
  | fuel + 1, id, node, weight, ms, reached, fetched => by
      rw [addNode, addNode]
      dsimp only
      rw [addLinks_congr id node.links weight _
        (fun t member => agree t (.link reached fetched member))
        (fun t member linkNode ms fetch =>
          addNode_congr agree fuel t linkNode 0 ms (.link reached fetched member) fetch)]

/-- `makeManifest` from a root reads the getter only at ids reachable from it. -/
theorem makeManifest_congr {root : String} (fuel : Nat) (ms : MState)
    (agree : ∀ x, Reachable ng root x → ng' x = ng x) :
    makeManifest ng' fuel root ms = makeManifest ng fuel root ms := by
  unfold makeManifest
  rw [agree root .root]
  cases fetched : ng root with
  | error err =>
      rfl
  | ok node =>
      dsimp only
      rw [addNode_congr agree fuel root node 0 ms .root fetched]

/-- `NewManifest` and `NewInfo` read the node getter only at ids reachable from the root: two
getters that agree there give the same manifest, info and error. -/
theorem newManifest_congr {root : String} (fuel : Nat)
    (agree : ∀ x, Reachable ng root x → ng' x = ng x) :
    newManifest ng' fuel root = newManifest ng fuel root ∧
      newInfo ng' fuel root = newInfo ng fuel root := by
  unfold newManifest newInfo
  rw [makeManifest_congr fuel MState.init agree]
  exact ⟨rfl, rfl⟩

end Reads

/-- `diamond` with one more node, `Z`, which links to the root but which the root does not
reach. -/
def diamondWithOrphan : NodeGetter :=
  tableGetter [("R", ["A", "B", "A"]), ("A", ["C"]), ("B", ["C", "R"]), ("C", []), ("Z", ["R"])]

/-- `diamondWithOrphan` agrees with `diamond` on the ids the root of `diamond` reaches. -/
theorem diamondWithOrphan_agree (x : String) (path : Reachable diamond "R" x) :
    diamondWithOrphan x = diamond x := by
  have member := reachable_diamond path
  simp only [Finset.mem_insert, Finset.mem_singleton] at member
  rcases member with rfl | rfl | rfl | rfl <;> rfl

/-- The node `Z` that the root does not reach changes nothing in the build of `diamond`. -/
theorem newManifest_congr_diamondWithOrphan :
    (∀ x, Reachable diamond "R" x → diamondWithOrphan x = diamond x) ∧
      newManifest diamondWithOrphan 5 "R" = newManifest diamond 5 "R" ∧
        newInfo diamondWithOrphan 5 "R" = newInfo diamond 5 "R" :=
  ⟨diamondWithOrphan_agree, newManifest_congr 5 diamondWithOrphan_agree⟩

end Dag
