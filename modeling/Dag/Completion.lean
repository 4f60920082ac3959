import Dag.Manifest

namespace Dag

open scoped List

/-!
# Completion: which blocks of a manifest are local

A `Completion` holds one progress value per node of a reference manifest: 0 for a block that
is missing, 100 for one that is local.  `NewCompletion` derives it from the reference manifest
and a manifest of the missing nodes with one forward scan and a cursor into the missing list.
The scan is right when the missing nodes are an ordered sublist of the reference nodes and the
reference nodes are distinct; otherwise it silently marks the wrong blocks.
-/

/-- `Completion`: a progress value from 0 to 100 for every node of a manifest. -/
abbrev Completion := List UInt16

/-- The loop of `NewCompletion`.  The second list is `missing.Nodes` from the cursor `m` on:
a node equal to the one under the cursor is missing and moves the cursor, any other is local. -/
def newCompletionScan : List String → List String → Completion
  | [], _ => []
  | _ :: rest, [] => 100 :: newCompletionScan rest []
  | hash :: rest, next :: missing =>
      if hash = next then
        0 :: newCompletionScan rest missing
      else
        100 :: newCompletionScan rest (next :: missing)

/-- `NewCompletion`. -/
def newCompletion (mfst missing : Manifest) : Completion :=
  newCompletionScan mfst.nodes missing.nodes

/-- `Completion.CompletedBlocks`: the number of entries equal to 100. -/
def Completion.completedBlocks : Completion → Nat
  | [] => 0
  | bl :: rest => (if bl = 100 then 1 else 0) + completedBlocks rest

/-- `Completion.Complete`: no entry differs from 100. -/
def Completion.complete : Completion → Bool
  | [] => true
  | bl :: rest => if bl ≠ 100 then false else complete rest

/-- `Complete` holds exactly when every entry is 100. -/
theorem Completion.complete_iff (p : Completion) : p.complete = true ↔ ∀ bl ∈ p, bl = 100 := by
  induction p with
  | nil =>
      simp [complete]
  | cons bl rest inductionHypothesis =>
      by_cases full : bl = 100 <;> simp [complete, full, inductionHypothesis]

/-- `CompletedBlocks` counts at most every entry. -/
theorem Completion.completedBlocks_le_length (p : Completion) : p.completedBlocks ≤ p.length := by
  induction p with
  | nil =>
      simp [completedBlocks]
  | cons bl rest inductionHypothesis =>
      simp only [completedBlocks, List.length_cons]
      split <;> omega

/-- `CompletedBlocks` counts every entry exactly when every entry is 100. -/
theorem Completion.completedBlocks_eq_length_iff (p : Completion) :
    p.completedBlocks = p.length ↔ ∀ bl ∈ p, bl = 100 := by
  induction p with
  | nil =>
      simp [completedBlocks]
  | cons bl rest inductionHypothesis =>
      have bounded := completedBlocks_le_length rest
      by_cases full : bl = 100
      · simp only [completedBlocks, full, if_true, List.length_cons, List.mem_cons,
          forall_eq_or_imp, true_and, ← inductionHypothesis]
        omega
      · simp only [completedBlocks, full, if_false, List.length_cons, List.mem_cons,
          forall_eq_or_imp, false_and, iff_false]
        omega

/-- The two loops of `Completion` agree: `Complete` holds exactly when `CompletedBlocks` counts
every entry, on every vector, entries above 100 and the empty vector included. -/
theorem Completion.complete_iff_completedBlocks_eq_length (p : Completion) :
    p.complete = true ↔ p.completedBlocks = p.length := by
  rw [complete_iff, completedBlocks_eq_length_iff]

example : Completion.complete [100, 250] = false ∧ Completion.completedBlocks [100, 250] = 1 := by
  decide

/-- The scan marks every node by whether it is in the rest of the missing list, provided that
rest is an ordered sublist of the remaining nodes and the nodes are distinct. -/
theorem newCompletionScan_eq_map {nodes missing : List String}
    (distinct : nodes.Nodup) (ordered : missing <+ nodes) :
    newCompletionScan nodes missing = nodes.map fun h => if h ∈ missing then 0 else 100 := by
  induction nodes generalizing missing with
  | nil =>
      rfl
  | cons hash rest inductionHypothesis =>
      have freshHead : hash ∉ rest := (List.nodup_cons.mp distinct).1
      have restDistinct : rest.Nodup := (List.nodup_cons.mp distinct).2
      have onRest : ∀ {missing : List String}, missing <+ rest →
          rest.map (fun h => if h ∈ missing then (0 : UInt16) else 100) =
            rest.map fun h => if h ∈ hash :: missing then 0 else 100 := by
        intro missing _
        refine List.map_congr_left fun h member => ?_
        have : h ≠ hash := fun same => freshHead (same ▸ member)
        simp [this]
      cases missing with
      | nil =>
          simp [newCompletionScan, inductionHypothesis restDistinct (List.nil_sublist rest)]
      | cons next missing =>
          by_cases matched : hash = next
          · subst matched
            have tail : missing <+ rest := (List.cons_sublist_cons.mp ordered)
            simp [newCompletionScan, inductionHypothesis restDistinct tail, onRest tail]
          · have tail : next :: missing <+ rest := by
              cases ordered with
              | cons _ sub => exact sub
              | cons₂ _ sub => exact absurd rfl matched
            have absent : hash ∉ missing := fun member =>
              freshHead (tail.subset (List.mem_cons_of_mem next member))
            simp [newCompletionScan, matched, absent, inductionHypothesis restDistinct tail]

/-- Along an ordered sublist, the scan leaves as many blocks incomplete as there are missing
nodes. -/
theorem completedBlocks_newCompletionScan {nodes missing : List String}
    (ordered : missing <+ nodes) :
    (newCompletionScan nodes missing).completedBlocks + missing.length = nodes.length := by
  induction nodes generalizing missing with
  | nil =>
      simp [List.sublist_nil.mp ordered, newCompletionScan, Completion.completedBlocks]
  | cons hash rest inductionHypothesis =>
      cases missing with
      | nil =>
          have := inductionHypothesis (List.nil_sublist rest)
          simp only [List.length_nil, Nat.add_zero] at this
          simp [newCompletionScan, Completion.completedBlocks]
          omega
      | cons next missing =>
          by_cases matched : hash = next
          · subst matched
            have := inductionHypothesis (List.cons_sublist_cons.mp ordered)
            simp [newCompletionScan, Completion.completedBlocks]
            omega
          · have tail : next :: missing <+ rest := by
              cases ordered with
              | cons _ sub => exact sub
              | cons₂ _ sub => exact absurd rfl matched
            have := inductionHypothesis tail
            simp only [List.length_cons] at this
            simp [newCompletionScan, matched, Completion.completedBlocks]
            omega

/-- For a reference manifest with distinct nodes and a missing manifest whose nodes are an
ordered sublist of them, `NewCompletion` marks exactly the missing nodes with 0 and the others
with 100, and counts as completed all nodes but the missing ones. -/
theorem newCompletion_marks_missing (mfst missing : Manifest)
    (distinct : mfst.nodes.Nodup) (ordered : missing.nodes <+ mfst.nodes) :
    newCompletion mfst missing =
        mfst.nodes.map (fun h => if h ∈ missing.nodes then 0 else 100) ∧
      (newCompletion mfst missing).completedBlocks =
        mfst.nodes.length - missing.nodes.length := by
  refine ⟨newCompletionScan_eq_map distinct ordered, ?_⟩
  have := completedBlocks_newCompletionScan ordered
  unfold newCompletion
  omega

/-- The manifest of four nodes with the second and fourth missing. -/
theorem newCompletion_marks_missing_QmBQmD :
    (["QmA", "QmB", "QmC", "QmD"] : List String).Nodup ∧
      (["QmB", "QmD"] : List String) <+ ["QmA", "QmB", "QmC", "QmD"] ∧
      (newCompletion ⟨[], ["QmA", "QmB", "QmC", "QmD"]⟩ ⟨[], ["QmB", "QmD"]⟩ =
          (["QmA", "QmB", "QmC", "QmD"] : List String).map
            (fun h => if h ∈ (["QmB", "QmD"] : List String) then 0 else 100) ∧
        (newCompletion ⟨[], ["QmA", "QmB", "QmC", "QmD"]⟩ ⟨[], ["QmB", "QmD"]⟩).completedBlocks =
          4 - 2) :=
  ⟨by decide, by decide, newCompletion_marks_missing ⟨[], ["QmA", "QmB", "QmC", "QmD"]⟩
    ⟨[], ["QmB", "QmD"]⟩ (by decide) (by decide)⟩

/-! ## The scan on any pair of manifests

Without the ordered-sublist precondition the scan still has a precise meaning: it matches the
missing list against the reference nodes greedily, from the front, and never looks back.  The
blocks it marks 0, read in node order, are the longest prefix of the missing list that is an
ordered sublist of the reference nodes; every missing node after the first one it fails to find
in order is silently marked complete.
-/

/-- The nodes a completion marks with 0, in node order. -/
def markedMissing (nodes : List String) (prog : Completion) : List String :=
  ((nodes.zip prog).filter fun entry => entry.2 = 0).map Prod.fst

@[simp] theorem markedMissing_cons (hash : String) (rest : List String) (bl : UInt16)
    (prog : Completion) :
    markedMissing (hash :: rest) (bl :: prog) =
      if bl = 0 then hash :: markedMissing rest prog else markedMissing rest prog := by
  by_cases zero : bl = 0 <;> simp [markedMissing, List.filter_cons, zero]

@[simp] theorem markedMissing_nil (prog : Completion) : markedMissing [] prog = [] :=
  rfl

/-- The marked nodes are nodes, in node order. -/
theorem markedMissing_sublist : ∀ (nodes : List String) (prog : Completion),
    markedMissing nodes prog <+ nodes
  | [], _ => List.nil_sublist []
  | _ :: _, [] => by simp [markedMissing]
  | hash :: rest, bl :: prog => by
      rw [markedMissing_cons]
      split
      · exact (markedMissing_sublist rest prog).cons_cons hash
      · exact (markedMissing_sublist rest prog).cons hash

/-- The scan writes one entry per node. -/
theorem length_newCompletionScan (nodes missing : List String) :
    (newCompletionScan nodes missing).length = nodes.length := by
  induction nodes, missing using newCompletionScan.induct <;>
    simp [newCompletionScan, *]

/-- The scan writes only 0 and 100. -/
theorem newCompletionScan_entries (nodes missing : List String) :
    ∀ bl ∈ newCompletionScan nodes missing, bl = 0 ∨ bl = 100 := by
  induction nodes, missing using newCompletionScan.induct <;>
    simp_all [newCompletionScan]

/-- The two marks differ. -/
theorem hundred_ne_zero : (100 : UInt16) ≠ 0 := by
  decide

/-- Every block the scan leaves out of `CompletedBlocks` is one it marks missing. -/
theorem completedBlocks_add_markedMissing (nodes missing : List String) :
    (newCompletionScan nodes missing).completedBlocks +
      (markedMissing nodes (newCompletionScan nodes missing)).length = nodes.length := by
  induction nodes, missing using newCompletionScan.induct <;>
    simp_all [newCompletionScan, Completion.completedBlocks, hundred_ne_zero,
      hundred_ne_zero.symm] <;>
    omega

/-- The marked nodes are a prefix of the missing list: the scan matches it from the front. -/
theorem markedMissing_front (nodes missing : List String) :
    markedMissing nodes (newCompletionScan nodes missing) <+: missing := by
  induction nodes, missing using newCompletionScan.induct <;>
    simp_all [newCompletionScan, hundred_ne_zero]

/-- The match is greedy: no longer prefix of the missing list is an ordered sublist of the
nodes. -/
theorem le_length_markedMissing (nodes missing : List String) :
    ∀ k ≤ missing.length, missing.take k <+ nodes →
      k ≤ (markedMissing nodes (newCompletionScan nodes missing)).length := by
  induction nodes, missing using newCompletionScan.induct with
  | case1 missing =>
      intro k bounded sub
      have empty := congrArg List.length (List.sublist_nil.mp sub)
      rw [List.length_take, List.length_nil] at empty
      omega
  | case2 hash rest inductionHypothesis =>
      intro k bounded _
      simp only [List.length_nil, Nat.le_zero] at bounded
      omega
  | case3 rest next missing inductionHypothesis =>
      rintro (_ | k) bounded sub
      · exact Nat.zero_le _
      · rw [List.take_succ_cons, List.cons_sublist_cons] at sub
        simpa [newCompletionScan] using inductionHypothesis k (by simpa using bounded) sub
  | case4 hash rest next missing unmatched inductionHypothesis =>
      rintro (_ | k) bounded sub
      · exact Nat.zero_le _
      rw [List.take_succ_cons, List.sublist_cons_iff] at sub
      rcases sub with skipped | ⟨_, same, _⟩
      · simpa [newCompletionScan, unmatched, hundred_ne_zero] using
          inductionHypothesis (k + 1) bounded (by rwa [List.take_succ_cons])
      · exact absurd (List.cons.inj same).1.symm unmatched

/-- On any pair of manifests, `NewCompletion` writes one entry per reference node, each 0 or
100.  The nodes it marks 0, in node order, are the longest prefix of `missing.Nodes` that is an
ordered sublist of `mfst.Nodes`; they are all of `missing.Nodes` exactly when `missing.Nodes` is
an ordered sublist of `mfst.Nodes`; and `CompletedBlocks` counts every other node. -/
theorem newCompletion_marks_greedy (mfst missing : Manifest) :
    (newCompletion mfst missing).length = mfst.nodes.length ∧
      (∀ bl ∈ newCompletion mfst missing, bl = 0 ∨ bl = 100) ∧
      markedMissing mfst.nodes (newCompletion mfst missing) <+: missing.nodes ∧
      (∀ k ≤ missing.nodes.length, missing.nodes.take k <+ mfst.nodes →
        k ≤ (markedMissing mfst.nodes (newCompletion mfst missing)).length) ∧
      (markedMissing mfst.nodes (newCompletion mfst missing) = missing.nodes ↔
        missing.nodes <+ mfst.nodes) ∧
      (newCompletion mfst missing).completedBlocks =
        mfst.nodes.length - (markedMissing mfst.nodes (newCompletion mfst missing)).length := by
  have front := markedMissing_front mfst.nodes missing.nodes
  have greedy := le_length_markedMissing mfst.nodes missing.nodes
  have counted := completedBlocks_add_markedMissing mfst.nodes missing.nodes
  refine ⟨length_newCompletionScan _ _, newCompletionScan_entries _ _, front, greedy,
    ⟨fun all => all ▸ markedMissing_sublist _ _, fun ordered => ?_⟩, by
      unfold newCompletion; omega⟩
  have longest := greedy _ le_rfl (by rwa [List.take_length])
  exact front.eq_of_length (Nat.le_antisymm front.length_le longest)

/-- A missing list out of node order: the scan finds `C`, then never finds `A` behind it. -/
example : newCompletion ⟨[], ["A", "B", "C"]⟩ ⟨[], ["C", "A"]⟩ = [100, 100, 0] := by
  decide

end Dag
