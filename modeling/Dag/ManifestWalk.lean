import Dag.Manifest

namespace Dag

open scoped List

/-!
# What the walk of `addNode` does

A successful call of `addNode` on an id places, each exactly once, the ids it meets for the
first time (its *fresh* ids), and appends one link pair for every link of every fresh node.
`Grew` records that effect on the state; it composes along the loop of `addLinks`.
`AddedLinks` and `AddedNode` add the weight each fresh node receives; each has one lemma per
way the code can succeed (`nil`/`cons` for the loop, `visited`/`place` for the call), and the
two spec lemmas `addLinks_spec` and `addNode_spec` assemble them by induction.  At the top of
the walk the fresh ids are all the ids reachable from the root, every one of them closed under
its links.
-/

/-- Reachability composes. -/
theorem Reachable.trans {ng : NodeGetter} {root middle target : String}
    (first : Reachable ng root middle) (second : Reachable ng middle target) :
    Reachable ng root target := by
  induction second with
  | root =>
      exact first
  | link _ fetched member inductionHypothesis =>
      exact .link inductionHypothesis fetched member

/-- A link target of a reachable node is reachable. -/
theorem Reachable.of_link {ng : NodeGetter} {root t : String} {node : Node}
    (fetched : ng root = .ok node) (member : t ∈ node.links) : Reachable ng root t :=
  .link .root fetched member

/-- Following a link of a reachable node stays reachable. -/
theorem Reachable.of_outLinks {ng : NodeGetter} {root u t : String} (path : Reachable ng root u)
    (linked : t ∈ outLinks ng u) : Reachable ng root t := by
  unfold outLinks at linked
  split at linked
  · next node fetched => exact .link path fetched linked
  · exact absurd linked (List.not_mem_nil t)

/-- The links `addNode` appends for the node `x`: one pair for every link of `x`. -/
def linkPairs (ng : NodeGetter) (x : String) : List (String × String) :=
  (outLinks ng x).map fun t => (x, t)

/-! ## One step of the walk -/

section Steps

variable {ng : NodeGetter} {id : String} {weight : Nat} {ms : MState} {r : Added}

/-- One link of the `addLinks` loop: a failed fetch ends the loop; otherwise the pair is
recorded and the target visited, and the loop ends with the visit's error or goes on after a
successful visit. -/
theorem addLinks_cons_eq_some {visit : String → Node → Nat → MState → Option Added} {t : String}
    {rest : List String} (run : addLinks ng visit id (t :: rest) weight ms = some r) :
    (∃ err, ng t = .error err ∧ r = ⟨some err, weight + 1, ms⟩) ∨
      ∃ linkNode err₁ lWeight ms₁, ng t = .ok linkNode ∧
        visit t linkNode 0 { ms with links := ms.links ++ [(id, t)] } =
          some ⟨err₁, lWeight, ms₁⟩ ∧
        (∀ err, err₁ = some err → r = ⟨some err, weight + 1, ms₁⟩) ∧
        (err₁ = none → addLinks ng visit id rest (weight + 1 + lWeight) ms₁ = some r) := by
  rw [addLinks] at run
  cases fetch : ng t with
  | error err =>
      simp only [fetch, Option.some.injEq] at run
      exact .inl ⟨err, rfl, run.symm⟩
  | ok linkNode =>
      simp only [fetch] at run
      cases visited : visit t linkNode 0 { ms with links := ms.links ++ [(id, t)] } with
      | none =>
          simp [visited] at run
      | some r₁ =>
          obtain ⟨err₁, lWeight, ms₁⟩ := r₁
          refine .inr ⟨linkNode, err₁, lWeight, ms₁, rfl, visited,
            fun err failed => ?_, fun ok => ?_⟩
          · subst failed
            simpa [visited] using run.symm
          · subst ok
            simpa [visited] using run

/-- One call of `addNode` with fuel: it returns at once on a placed id; otherwise it places the
id, and ends with the error of `Size()` or runs the loop over the links, storing the counter as
the id's weight when the loop succeeds. -/
theorem addNode_succ_eq_some {fuel : Nat} {node : Node}
    (run : addNode ng (fuel + 1) id node weight ms = some r) :
    (id ∈ ms.sizes ∧ r = ⟨none, weight, ms⟩) ∨
      id ∉ ms.sizes ∧
        ((∃ err, node.size.2 = some err ∧ r = ⟨some err, weight,
            { ms with m.nodes := ms.m.nodes ++ [id], sizes := ms.sizes.insert id node.size.1 }⟩) ∨
          node.size.2 = none ∧ ∃ err₁ weight₁ ms₁,
            addLinks ng (addNode ng fuel) id node.links weight
                { ms with m.nodes := ms.m.nodes ++ [id], sizes := ms.sizes.insert id node.size.1 } =
              some ⟨err₁, weight₁, ms₁⟩ ∧
            (∀ err, err₁ = some err → r = ⟨some err, weight₁, ms₁⟩) ∧
            (err₁ = none →
              r = ⟨none, weight₁, { ms₁ with weights := ms₁.weights.insert id weight₁ }⟩)) := by
  rw [addNode] at run
  by_cases placed : id ∈ ms.sizes
  · simp only [placed, ↓reduceIte, Option.some.injEq] at run
    exact .inl ⟨placed, run.symm⟩
  · simp only [placed, ↓reduceIte] at run
    refine .inr ⟨placed, ?_⟩
    cases sized : node.size.2 with
    | some err =>
        simp only [sized, Option.some.injEq] at run
        exact .inl ⟨err, rfl, run.symm⟩
    | none =>
        simp only [sized] at run
        cases looped : addLinks ng (addNode ng fuel) id node.links weight
            { ms with m.nodes := ms.m.nodes ++ [id], sizes := ms.sizes.insert id node.size.1 } with
        | none =>
            simp [looped] at run
        | some r₁ =>
            obtain ⟨err₁, weight₁, ms₁⟩ := r₁
            refine .inr ⟨rfl, err₁, weight₁, ms₁, rfl, fun err failed => ?_, fun ok => ?_⟩
            · subst failed
              simpa [looped] using run.symm
            · subst ok
              simpa [looped] using run.symm

end Steps

/-- The effect of a successful part of the walk from `ms` to `ms'`: it placed the ids `fresh`,
each once and none placed before, recorded the link pairs `appended`, fetched every fresh node
without error, closed every fresh node under its links, and gave weights to fresh ids only. -/
structure Grew (ng : NodeGetter) (ms ms' : MState) (fresh : List String)
    (appended : List (String × String)) : Prop where
  nodes : ms'.m.nodes = ms.m.nodes ++ fresh
  links : ms'.links = ms.links ++ appended
  sizes : ∀ x, x ∈ ms'.sizes ↔ x ∈ ms.sizes ∨ x ∈ fresh
  freshNodup : fresh.Nodup
  freshNew : ∀ x ∈ fresh, x ∉ ms.sizes
  fetched : ∀ x ∈ fresh, ∃ node, ng x = .ok node ∧ node.size.2 = none
  closed : ∀ x ∈ fresh, ∀ t ∈ outLinks ng x, t ∈ ms'.sizes
  weightsOther : ∀ x, x ∉ fresh → ms'.weights.lookup x = ms.weights.lookup x
  manifestLinks : ms'.m.links = ms.m.links

namespace Grew

variable {ng : NodeGetter} {ms ms₁ ms₂ : MState} {fresh fresh₁ fresh₂ : List String}
  {appended appended₁ appended₂ : List (String × String)}

/-- Doing nothing is a walk. -/
theorem refl (ng : NodeGetter) (ms : MState) : Grew ng ms ms [] [] where
  nodes := by simp
  links := by simp
  sizes := by simp
  freshNodup := .nil
  freshNew := by simp
  fetched := by simp
  closed := by simp
  weightsOther := fun _ _ => rfl
  manifestLinks := rfl

/-- A placed id stays placed. -/
theorem mem_sizes (grew : Grew ng ms ms₁ fresh appended) {x : String} (placed : x ∈ ms.sizes) :
    x ∈ ms₁.sizes :=
  (grew.sizes x).mpr (.inl placed)

/-- A fresh id is placed afterwards. -/
theorem mem_sizes_of_fresh (grew : Grew ng ms ms₁ fresh appended) {x : String}
    (member : x ∈ fresh) : x ∈ ms₁.sizes :=
  (grew.sizes x).mpr (.inr member)

/-- The weight of an id placed before the walk is left alone. -/
theorem lookup_of_mem (grew : Grew ng ms ms₁ fresh appended) {x : String}
    (placed : x ∈ ms.sizes) : ms₁.weights.lookup x = ms.weights.lookup x :=
  grew.weightsOther x fun member => grew.freshNew x member placed

/-- Two walks in a row are a walk. -/
theorem trans (first : Grew ng ms ms₁ fresh₁ appended₁)
    (second : Grew ng ms₁ ms₂ fresh₂ appended₂) :
    Grew ng ms ms₂ (fresh₁ ++ fresh₂) (appended₁ ++ appended₂) where
  nodes := by rw [second.nodes, first.nodes, List.append_assoc]
  links := by rw [second.links, first.links, List.append_assoc]
  sizes x := by
    rw [second.sizes, first.sizes, List.mem_append, or_assoc]
  freshNodup := by
    refine List.nodup_append.mpr ⟨first.freshNodup, second.freshNodup, ?_⟩
    intro x member₁ member₂
    exact second.freshNew x member₂ (first.mem_sizes_of_fresh member₁)
  freshNew x member := by
    rcases List.mem_append.mp member with member₁ | member₂
    · exact first.freshNew x member₁
    · exact fun placed => second.freshNew x member₂ (first.mem_sizes placed)
  fetched x member := by
    rcases List.mem_append.mp member with member₁ | member₂
    · exact first.fetched x member₁
    · exact second.fetched x member₂
  closed x member t target := by
    rcases List.mem_append.mp member with member₁ | member₂
    · exact second.mem_sizes (first.closed x member₁ t target)
    · exact second.closed x member₂ t target
  weightsOther x absent := by
    rw [List.mem_append, not_or] at absent
    rw [second.weightsOther x absent.2, first.weightsOther x absent.1]
  manifestLinks := second.manifestLinks.trans first.manifestLinks

/-- Recording a link pair is a walk that places nothing. -/
theorem record (ng : NodeGetter) (ms : MState) (pair : String × String) :
    Grew ng ms { ms with links := ms.links ++ [pair] } [] [pair] where
  nodes := by simp
  links := rfl
  sizes := by simp
  freshNodup := .nil
  freshNew := by simp
  fetched := by simp
  closed := by simp
  weightsOther := fun _ _ => rfl
  manifestLinks := rfl

/-- Storing the weight of a fresh id keeps the walk a walk. -/
theorem setWeight (grew : Grew ng ms ms₁ fresh appended) {id : String} (member : id ∈ fresh)
    (weight : Nat) :
    Grew ng ms { ms₁ with weights := ms₁.weights.insert id weight } fresh appended where
  nodes := grew.nodes
  links := grew.links
  sizes := grew.sizes
  freshNodup := grew.freshNodup
  freshNew := grew.freshNew
  fetched := grew.fetched
  closed := grew.closed
  weightsOther x absent := by
    have : x ≠ id := fun same => absent (same ▸ member)
    rw [AList.lookup_insert_ne this, grew.weightsOther x absent]
  manifestLinks := grew.manifestLinks

/-- Placing a fresh node whose links all end up placed, before a walk from the placed state,
is a walk that adds the node in front. -/
theorem place {ms₁ : MState} {id : String} {node : Node}
    (grew : Grew ng
      { ms with m.nodes := ms.m.nodes ++ [id], sizes := ms.sizes.insert id node.size.1 }
      ms₁ fresh appended)
    (new : id ∉ ms.sizes) (fetched : ng id = .ok node) (sized : node.size.2 = none)
    (closedId : ∀ t ∈ node.links, t ∈ ms₁.sizes) :
    Grew ng ms ms₁ (id :: fresh) appended where
  nodes := by rw [grew.nodes]; simp
  links := grew.links
  sizes x := by
    rw [grew.sizes, AList.mem_insert, List.mem_cons]
    exact or_assoc.trans or_left_comm
  freshNodup := by
    refine List.nodup_cons.mpr ⟨fun member => ?_, grew.freshNodup⟩
    exact grew.freshNew id member ((AList.mem_insert _).mpr (.inl rfl))
  freshNew x member := by
    rcases List.mem_cons.mp member with rfl | later
    · exact new
    · exact fun placed => grew.freshNew x later ((AList.mem_insert _).mpr (.inr placed))
  fetched x member := by
    rcases List.mem_cons.mp member with rfl | later
    · exact ⟨node, fetched, sized⟩
    · exact grew.fetched x later
  closed x member t target := by
    rcases List.mem_cons.mp member with rfl | later
    · rw [outLinks, fetched] at target
      exact closedId t target
    · exact grew.closed x later t target
  weightsOther x absent := grew.weightsOther x fun later => absent (List.mem_cons_of_mem id later)
  manifestLinks := grew.manifestLinks

end Grew

/-- What a successful `addNode` call on `id`, entered with the caller's counter at `weight`,
did: a walk whose fresh ids are reachable from `id`, which appended the link pairs of its fresh
nodes and added their number to the counter, and left `id` placed, a fresh `id` weighted with
the final counter and every other fresh id weighted below the number of pairs. -/
structure AddedNode (ng : NodeGetter) (id : String) (weight : Nat) (ms : MState) (r : Added)
    (fresh : List String) (appended : List (String × String)) : Prop where
  grew : Grew ng ms r.ms fresh appended
  pairs : appended ~ fresh.flatMap (linkPairs ng)
  counter : r.weight = weight + appended.length
  placed : id ∈ r.ms.sizes
  reachable : ∀ x ∈ fresh, Reachable ng id x
  ownWeight : id ∈ fresh → r.ms.weights.lookup id = some r.weight
  lighter : ∀ x ∈ fresh, x ≠ id → ∃ w, r.ms.weights.lookup x = some w ∧ w < appended.length

/-- What a successful loop of `addLinks` over `links` of the node `id` did: a walk that appended
the pairs of `links` and of its fresh nodes and added their number to the counter, placed every
link target, and weighted every fresh id, reachable from some target, below that number. -/
structure AddedLinks (ng : NodeGetter) (id : String) (links : List String) (weight : Nat)
    (ms : MState) (r : Added) (fresh : List String) (appended : List (String × String)) :
    Prop where
  grew : Grew ng ms r.ms fresh appended
  pairs : appended ~ links.map (fun t => (id, t)) ++ fresh.flatMap (linkPairs ng)
  counter : r.weight = weight + appended.length
  placed : ∀ t ∈ links, t ∈ r.ms.sizes
  reachable : ∀ x ∈ fresh, ∃ t ∈ links, Reachable ng t x
  lighter : ∀ x ∈ fresh, ∃ w, r.ms.weights.lookup x = some w ∧ w < appended.length

namespace AddedLinks

variable {ng : NodeGetter} {id : String}

/-- The loop over no links does nothing. -/
theorem nil (weight : Nat) (ms : MState) : AddedLinks ng id [] weight ms ⟨none, weight, ms⟩ [] [] :=
  ⟨Grew.refl ng ms, by simp, by simp, by simp, by simp, by simp⟩

/-- One round of the loop: the pair of the link to `t` is recorded, `t` is visited, and the loop
goes on with the remaining links. -/
theorem cons {t : String} {rest : List String} {weight lWeight : Nat} {ms ms₁ : MState}
    {r : Added} {fresh₁ fresh₂ : List String} {appended₁ appended₂ : List (String × String)}
    (node : AddedNode ng t 0 { ms with links := ms.links ++ [(id, t)] } ⟨none, lWeight, ms₁⟩
      fresh₁ appended₁)
    (loop : AddedLinks ng id rest (weight + 1 + lWeight) ms₁ r fresh₂ appended₂) :
    AddedLinks ng id (t :: rest) weight ms r (fresh₁ ++ fresh₂)
      ((id, t) :: (appended₁ ++ appended₂)) where
  grew := by simpa using ((Grew.record ng ms (id, t)).trans node.grew).trans loop.grew
  pairs := by
    simpa using (node.pairs.append loop.pairs).trans (List.perm_append_comm_assoc _ _ _)
  counter := by
    have own : lWeight = appended₁.length := by simpa using node.counter
    rw [loop.counter, own]
    simp
    omega
  placed target member := by
    rcases List.mem_cons.mp member with rfl | later
    · exact loop.grew.mem_sizes node.placed
    · exact loop.placed target later
  reachable x member := by
    rcases List.mem_append.mp member with member₁ | member₂
    · exact ⟨t, List.mem_cons_self t rest, node.reachable x member₁⟩
    · obtain ⟨target, later, path⟩ := loop.reachable x member₂
      exact ⟨target, List.mem_cons_of_mem t later, path⟩
  lighter x member := by
    rcases List.mem_append.mp member with member₁ | member₂
    · rw [loop.grew.lookup_of_mem (node.grew.mem_sizes_of_fresh member₁)]
      by_cases own : x = t
      · subst own
        have counted : lWeight = appended₁.length := by simpa using node.counter
        exact ⟨lWeight, node.ownWeight member₁, by simp; omega⟩
      · obtain ⟨w, stored, below⟩ := node.lighter x member₁ own
        exact ⟨w, stored, by simp; omega⟩
    · obtain ⟨w, stored, below⟩ := loop.lighter x member₂
      exact ⟨w, stored, by simp; omega⟩

end AddedLinks

/-- The loop of `addLinks` meets its spec whenever every successful `visit` does. -/
theorem addLinks_spec {ng : NodeGetter} {visit : String → Node → Nat → MState → Option Added}
    (visitSpec : ∀ t linkNode ms r, ng t = .ok linkNode → visit t linkNode 0 ms = some r →
      r.err = none → ∃ fresh appended, AddedNode ng t 0 ms r fresh appended)
    (id : String) (links : List String) :
    ∀ (weight : Nat) (ms : MState) (r : Added),
      addLinks ng visit id links weight ms = some r → r.err = none →
        ∃ fresh appended, AddedLinks ng id links weight ms r fresh appended := by
  induction links with
  | nil =>
      intro weight ms r run _
      simp only [addLinks, Option.some.injEq] at run
      subst run
      exact ⟨[], [], .nil weight ms⟩
  | cons t rest inductionHypothesis =>
      intro weight ms r run ok
      rcases addLinks_cons_eq_some run with ⟨err, -, rfl⟩ |
        ⟨linkNode, err₁, lWeight, ms₁, fetch, visited, failed, succeeded⟩
      · simp at ok
      cases err₁ with
      | some err =>
          simp [failed err rfl] at ok
      | none =>
          obtain ⟨fresh₁, appended₁, node⟩ := visitSpec t linkNode _ _ fetch visited rfl
          obtain ⟨fresh₂, appended₂, loop⟩ := inductionHypothesis _ _ r (succeeded rfl) ok
          exact ⟨_, _, .cons node loop⟩

namespace AddedNode

variable {ng : NodeGetter} {id : String} {weight : Nat} {ms : MState}

/-- A call on a placed id returns at once. -/
theorem visited (placed : id ∈ ms.sizes) : AddedNode ng id weight ms ⟨none, weight, ms⟩ [] [] :=
  ⟨Grew.refl ng ms, by simp, by simp, placed, by simp, by simp, by simp⟩

/-- A call on a fresh id places it, runs the loop over its links, and weights it with the
counter the loop leaves. -/
theorem place {node : Node} {weight₁ : Nat} {ms₁ : MState} {fresh : List String}
    {appended : List (String × String)} (new : id ∉ ms.sizes) (fetched : ng id = .ok node)
    (sized : node.size.2 = none)
    (loop : AddedLinks ng id node.links weight
      { ms with m.nodes := ms.m.nodes ++ [id], sizes := ms.sizes.insert id node.size.1 }
      ⟨none, weight₁, ms₁⟩ fresh appended) :
    AddedNode ng id weight ms
      ⟨none, weight₁, { ms₁ with weights := ms₁.weights.insert id weight₁ }⟩
      (id :: fresh) appended where
  grew := (loop.grew.place new fetched sized loop.placed).setWeight
    (List.mem_cons_self id fresh) weight₁
  pairs := by simpa [linkPairs, outLinks, fetched] using loop.pairs
  counter := loop.counter
  placed := loop.grew.mem_sizes ((AList.mem_insert _).mpr (.inl rfl))
  reachable x member := by
    rcases List.mem_cons.mp member with rfl | later
    · exact .root
    · obtain ⟨t, target, path⟩ := loop.reachable x later
      exact (Reachable.of_link fetched target).trans path
  ownWeight _ := AList.lookup_insert _
  lighter x member other := by
    obtain ⟨w, stored, below⟩ := loop.lighter x ((List.mem_cons.mp member).resolve_left other)
    exact ⟨w, by rw [AList.lookup_insert_ne other]; exact stored, below⟩

end AddedNode

/-- Every successful call of `addNode` on a fetched node meets its spec. -/
theorem addNode_spec (ng : NodeGetter) (fuel : Nat) :
    ∀ (id : String) (node : Node) (weight : Nat) (ms : MState) (r : Added),
      ng id = .ok node → addNode ng fuel id node weight ms = some r → r.err = none →
        ∃ fresh appended, AddedNode ng id weight ms r fresh appended := by
  induction fuel with
  | zero =>
      intro id node weight ms r _ run
      simp [addNode] at run
  | succ fuel inductionHypothesis =>
      intro id node weight ms r fetched run ok
      rcases addNode_succ_eq_some run with ⟨placed, rfl⟩ | ⟨new, ⟨err, -, rfl⟩ |
        ⟨sized, err₁, weight₁, ms₁, looped, failed, succeeded⟩⟩
      · exact ⟨[], [], .visited placed⟩
      · simp at ok
      cases err₁ with
      | some err =>
          simp [failed err rfl] at ok
      | none =>
          obtain rfl := succeeded rfl
          obtain ⟨fresh, appended, loop⟩ := addLinks_spec
            (fun t linkNode ms r => inductionHypothesis t linkNode 0 ms r) id node.links
            weight _ _ looped rfl
          exact ⟨_, _, .place new fetched sized loop⟩

/-! ## Failed walks -/

/-- `NewManifest` on `failingChild` returns the error together with a manifest listing the two
nodes placed before it. -/
theorem newManifest_failingChild :
    newManifest failingChild 3 "R" = some (⟨[], ["R", "A"]⟩, some "not found") := by
  decide

end Dag
