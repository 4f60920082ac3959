import Dag.ManifestNodes
import Dag.Session

namespace Dag

/-!
# Transferring a whole DAG

The sender describes a DAG with `NewManifest`; the receiver opens a session on that manifest
with `newSession` and stores the blocks it is sent with `ReceiveBlock`.  The two parts meet on
the node list: the walk puts every reachable node in it once, and the session marks a node once
a block stored under its hash has that hash as its CID.  So the receiver reports the transfer
complete exactly when it holds every block of the DAG, whatever the order of the blocks, the
failed writes and the mismatched blocks in between.
-/

/-- After any run of `ReceiveBlock` calls on the session of a manifest that `NewManifest`
built without error, the session is complete exactly when, for every node reachable from the
root, some call stored a block whose CID is that node's id under that id. -/
theorem newManifest_session_complete (ng : NodeGetter) (fuel : Nat) (root : String)
    (m : Manifest) (built : newManifest ng fuel root = some (m, none)) (pin : Bool)
    (calls : List (String × Except String String)) :
    ((newSession m pin).receiveAll calls).2.complete = true ↔
      ∀ x, Reachable ng root x → (x, .ok x) ∈ calls := by
  obtain ⟨walked, walk, rfl⟩ := newManifest_eq_some built
  obtain ⟨answers, -, -, -⟩ := receiveAll_spec (newSession walked.order.m pin) calls
  rw [Session.complete, (marks_receiveAll_newSession walked.order.m pin calls).complete_iff]
  constructor
  · intro accepted x path
    exact (accepted_iff_mem answers x).mp (accepted x (walk.mem_order_nodes path))
  · intro stored x member
    exact (accepted_iff_mem answers x).mpr
      (stored x ((walk.reachable x).mp (walk.order_nodes_perm.subset member)))

/-- The blocks of `diamond` out of order, with a failed write and a mismatched block. -/
def diamondTransfer : List (String × Except String String) :=
  [("C", .error "timeout"), ("C", .ok "C"), ("A", .ok "B"), ("A", .ok "A"), ("B", .ok "B"),
    ("R", .ok "R")]

/-- The session of `diamond`'s manifest is complete after `diamondTransfer` exactly when that
transfer stored every reachable block. -/
theorem newManifest_session_complete_diamond :
    newManifest diamond 5 "R" =
        some (⟨[(0, 1), (0, 2), (0, 2), (1, 0), (1, 3), (2, 3)], ["R", "B", "A", "C"]⟩, none) ∧
      (((newSession ⟨[(0, 1), (0, 2), (0, 2), (1, 0), (1, 3), (2, 3)], ["R", "B", "A", "C"]⟩
          false).receiveAll diamondTransfer).2.complete = true ↔
        ∀ x, Reachable diamond "R" x → (x, .ok x) ∈ diamondTransfer) :=
  ⟨newManifest_diamond, newManifest_session_complete diamond 5 "R" _ newManifest_diamond false _⟩

end Dag
