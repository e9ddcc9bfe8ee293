import Rewind.Proofs.Garbage

/-!
# Releasing one tree

A tree is released from its root downwards.  A node is gone before the search for its children
begins, and they are gone before the search for theirs, so that what is still to be done is always a
list of trees which the releases so far have left alone.  What is released in this way is what can
be reached from the root, each node of it once (`freeTree_exact`).
-/

namespace Rewind

namespace Forest

variable {f : Forest} {id : NodeId} {ids owned : List NodeId} {shapes : List Shape}

/-- Trees are made of what can be reached from their roots. -/
lemma mem_owned_iff (h : Trees (Pool.get? f) ids owned shapes) (hnodup : owned.Nodup)
    (j : NodeId) : j ∈ owned ↔ Reachable (Pool.get? f) (· ∈ ids) j := by
  obtain ⟨order, hperm, hfree⟩ := freeAll_vacates h hnodup
  constructor
  · intro hj
    apply (swept_freeAll hfree).only j (h.live j hj)
    rw [Pool.get?_vacateAll, if_pos (hperm.mem_iff.2 hj)]
  · exact Reachable.mem_of_trees h

/-- Releasing a node whose children and ignored tokens make a tree comes to an end.  It releases the
nodes of the tree in some order, each of them once: exactly those that can be reached from the root.
They are gone, every other slot holds what it held, and there are as many live nodes fewer as the
tree has. -/
theorem freeTree_exact (h : Trees (Pool.get? f) [id] owned shapes) (hnodup : owned.Nodup) :
    ∃ g order, f.freeTree id = .ok g ∧ order.Perm owned ∧ g = Pool.vacateAll f order ∧
      (∀ j, j ∈ owned ↔ Reachable (Pool.get? f) (· = id) j) ∧
      (∀ j ∈ owned, Pool.get? g j = none) ∧ (∀ j, j ∉ owned → Pool.get? g j = Pool.get? f j) ∧
      Pool.released g = order.reverse ++ Pool.released f ∧
      Pool.live g + owned.length = Pool.live f := by
  obtain ⟨order, hperm, hfree⟩ := freeAll_vacates h hnodup
  have hlive : ∀ j ∈ order, (Pool.get? f j).isSome := fun j hj => h.live j (hperm.mem_iff.1 hj)
  refine ⟨_, order, hfree, hperm, rfl, fun j => ?_, fun j hj => ?_, fun j hj => ?_,
    Pool.released_vacateAll f order, ?_⟩
  · simpa using mem_owned_iff h hnodup j
  · rw [Pool.get?_vacateAll, if_pos (hperm.mem_iff.2 hj)]
  · rw [Pool.get?_vacateAll, if_neg fun hmem => hj (hperm.mem_iff.1 hmem)]
  · rw [← hperm.length_eq]
    exact Pool.live_vacateAll (hperm.nodup_iff.2 hnodup) hlive

/-- A tree with two children, the second of which carries an ignored token, and in front of the tree
another node: slots 0 to 3 and slot 4. -/
def grove : Forest :=
  { (Pool.empty 8 8 : Forest) with
    slots := #[some { element := 2, production := some 0, child := some 1, next := some 4 },
      some { element := 1, text := [97], next := some 2 },
      some { element := 1, text := [98], ignored := some 3 },
      some { element := 0, text := [32] },
      some { element := 1, text := [99] }] }

/-- The tree goes, and the node it is linked to stays. -/
theorem freeTree_exact_grove :
    (∃ shapes, Trees (Pool.get? grove) [0] [0, 1, 2, 3] shapes) ∧ [0, 1, 2, 3].Nodup ∧
      ∃ g, grove.freeTree 0 = .ok g ∧ Pool.live g = 1 ∧
        Pool.get? g 4 = Pool.get? grove 4 ∧ Pool.get? g 3 = none := by
  have hnone : Linked (Pool.get? grove) none [] none := .nil none
  have hspace : Trees (Pool.get? grove) [3] [3] _ := .cons rfl hnone .nil hnone .nil .nil
  have hsecond : Trees (Pool.get? grove) [2] [2, 3] _ :=
    .cons rfl hnone .nil (.cons rfl hnone) hspace .nil
  have hkids : Trees (Pool.get? grove) [1, 2] [1, 2, 3] _ :=
    .cons rfl hnone .nil hnone .nil hsecond
  have htree : Trees (Pool.get? grove) [0] [0, 1, 2, 3] _ :=
    .cons rfl (.cons rfl (.cons rfl hnone)) hkids hnone .nil .nil
  have hnodup : [0, 1, 2, 3].Nodup := by decide
  obtain ⟨g, order, hfree, -, -, -, hgone, hkept, -, hlive⟩ := freeTree_exact htree hnodup
  refine ⟨⟨_, htree⟩, hnodup, g, hfree, ?_, hkept 4 (by decide), hgone 3 (by decide)⟩
  have hbefore : Pool.live grove = 5 := by decide
  have hlength : [0, 1, 2, 3].length = 4 := rfl
  omega

end Forest

end Rewind
