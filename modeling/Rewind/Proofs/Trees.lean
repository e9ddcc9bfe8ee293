import Rewind.Proofs.View
import Rewind.Shape

/-!
# Trees written out

`Trees nodes ids owned shapes` says that the nodes `ids` are the roots of trees of these shapes, and
that the trees are made of the nodes `owned`.  Trees whose nodes are distinct share nothing, so that
each of them keeps its shape whatever happens to the others.  The link of a root is not part of its
tree: a root may leave its chain for another one.
-/

namespace Rewind

/-- A node written out, with the trees below it. -/
def Node.shape (n : Node) (children ignored : List Shape) : Shape where
  element := n.element
  production := n.production
  text := n.text
  span := n.span
  state := n.state
  artificial := n.artificial
  children := children
  ignored := ignored

/-- The trees with these roots are made of the nodes `owned` and have these shapes. -/
inductive Trees (nodes : Nodes) : (ids owned : List NodeId) → List Shape → Prop
  | nil : Trees nodes [] [] []
  | cons {id : NodeId} {n : Node} {children ignored below carried rest owned : List NodeId}
      {kids set shapes : List Shape} :
    nodes id = some n →
    Linked nodes n.child children none → Trees nodes children below kids →
    Linked nodes n.ignored ignored none → Trees nodes ignored carried set →
    Trees nodes rest owned shapes →
    Trees nodes (id :: rest) (id :: (below ++ carried ++ owned))
      (n.shape kids set.reverse :: shapes)

namespace Trees

variable {nodes nodes' : Nodes} {ids xs ys owned ownedX ownedY : List NodeId}
  {shapes shapesX shapesY : List Shape}

lemma live (h : Trees nodes ids owned shapes) : ∀ id ∈ owned, (nodes id).isSome := by
  induction h with
  | nil => exact nofun
  | cons hn _ _ _ _ _ hkids hset hrest =>
    intro j hj
    simp only [List.mem_cons, List.mem_append] at hj
    rcases hj with rfl | (hj | hj) | hj
    · rw [hn]
      rfl
    · exact hkids j hj
    · exact hset j hj
    · exact hrest j hj

lemma roots_sublist (h : Trees nodes ids owned shapes) : ids.Sublist owned := by
  induction h with
  | nil => exact .slnil
  | cons _ _ _ _ _ _ _ _ ih => exact (ih.trans (List.sublist_append_right _ _)).cons_cons _

lemma roots_subset (h : Trees nodes ids owned shapes) : ids ⊆ owned :=
  h.roots_sublist.subset

lemma length_eq (h : Trees nodes ids owned shapes) : ids.length = shapes.length := by
  induction h with
  | nil => rfl
  | cons _ _ _ _ _ _ _ _ ih => exact congrArg Nat.succ ih

/-- Trees depend on their own nodes only. -/
lemma congr (h : Trees nodes ids owned shapes) (hsame : ∀ id ∈ owned, nodes' id = nodes id) :
    Trees nodes' ids owned shapes := by
  induction h with
  | nil => exact .nil
  | cons hn hchildren hbelow hignored hcarried _ ihkids ihset ihrest =>
    simp only [List.mem_cons, List.mem_append] at hsame
    refine .cons ((hsame _ (.inl rfl)).trans hn) (hchildren.congr fun j hj => ?_)
      (ihkids fun j hj => ?_) (hignored.congr fun j hj => ?_) (ihset fun j hj => ?_)
      (ihrest fun j hj => ?_)
    · exact hsame j (.inr (.inl (.inl (hbelow.roots_subset hj))))
    · exact hsame j (.inr (.inl (.inl hj)))
    · exact hsame j (.inr (.inl (.inr (hcarried.roots_subset hj))))
    · exact hsame j (.inr (.inl (.inr hj)))
    · exact hsame j (.inr (.inr hj))

lemma of_nil (h : Trees nodes [] owned shapes) : owned = [] ∧ shapes = [] := by
  cases h
  exact ⟨rfl, rfl⟩

lemma of_cons {id : NodeId} {rest : List NodeId} (h : Trees nodes (id :: rest) owned shapes) :
    ∃ n children ignored below carried ownedR kids set shapesR, nodes id = some n ∧
      Linked nodes n.child children none ∧ Trees nodes children below kids ∧
      Linked nodes n.ignored ignored none ∧ Trees nodes ignored carried set ∧
      Trees nodes rest ownedR shapesR ∧ owned = id :: (below ++ carried ++ ownedR) ∧
      shapes = n.shape kids set.reverse :: shapesR := by
  cases h with
  | cons hn hchildren hkids hignored hset hrest =>
    exact ⟨_, _, _, _, _, _, _, _, _, hn, hchildren, hkids, hignored, hset, hrest, rfl, rfl⟩

lemma not_mem_of_vacant {id : NodeId} (h : Trees nodes ids owned shapes)
    (hid : nodes id = none) : id ∉ owned := by
  intro hmem
  have hlive := h.live id hmem
  simp [hid] at hlive

lemma update_of_not_mem {id : NodeId} {x : Option Node} (h : Trees nodes ids owned shapes)
    (hid : id ∉ owned) : Trees (Function.update nodes id x) ids owned shapes := by
  refine h.congr fun j hj => Function.update_of_ne ?_ _ _
  rintro rfl
  exact hid hj

/-- A node becomes a root in front of others. -/
lemma push {id : NodeId} {n : Node} {children ignored below carried : List NodeId}
    {kids set : List Shape} (hchildren : Linked nodes n.child children none)
    (hkids : Trees nodes children below kids) (hignored : Linked nodes n.ignored ignored none)
    (hset : Trees nodes ignored carried set) (hrest : Trees nodes ids owned shapes)
    (hid : id ∉ below ++ carried ++ owned) :
    Trees (Function.update nodes id (some n)) (id :: ids) (id :: (below ++ carried ++ owned))
      (n.shape kids set.reverse :: shapes) := by
  simp only [List.mem_append, not_or] at hid
  obtain ⟨⟨hbelow, hcarried⟩, howned⟩ := hid
  exact .cons (Function.update_self ..)
    (hchildren.update_of_not_mem fun hmem => hbelow (hkids.roots_subset hmem))
    (hkids.update_of_not_mem hbelow)
    (hignored.update_of_not_mem fun hmem => hcarried (hset.roots_subset hmem))
    (hset.update_of_not_mem hcarried) (hrest.update_of_not_mem howned)

/-- A token becomes a root in front of others. -/
lemma pushToken {id : NodeId} {n : Node} (hchild : n.child = none) (hignored : n.ignored = none)
    (hrest : Trees nodes ids owned shapes) (hid : id ∉ owned) :
    Trees (Function.update nodes id (some n)) (id :: ids) (id :: owned)
      (n.shape [] [] :: shapes) := by
  have hnone : Linked nodes none [] none := .nil none
  exact .push (hchild ▸ hnone) .nil (hignored ▸ hnone) .nil hrest hid

/-- Roots may change in all but what is below them.  Their shapes are the same if nothing but their
links has changed. -/
lemma regrow (h : Trees nodes ids owned shapes) (hnodup : owned.Nodup)
    (hbelow : ∀ id ∈ owned, id ∉ ids → nodes' id = nodes id)
    (hroots : ∀ id ∈ ids, ∀ n, nodes id = some n →
      ∃ n', nodes' id = some n' ∧ n'.child = n.child ∧ n'.ignored = n.ignored) :
    ∃ shapes', Trees nodes' ids owned shapes' ∧
      ((∀ id ∈ ids, (nodes' id).map Node.unlinked = (nodes id).map Node.unlinked) →
        shapes' = shapes) := by
  induction h with
  | nil => exact ⟨[], .nil, fun _ => rfl⟩
  | @cons id n children ignored below carried rest owned kids set shapes hn hchildren hkids
      hignored hset hrest _ _ ihrest =>
    obtain ⟨hid, hnodup⟩ := List.nodup_cons.1 hnodup
    simp only [List.mem_append, not_or] at hid
    obtain ⟨hsub, hrestNodup, hdisjoint⟩ := List.nodup_append'.1 hnodup
    -- Below the first root nothing is a root.
    have hsame : ∀ j, j ∈ below ++ carried → nodes' j = nodes j := by
      intro j hj
      refine hbelow j (List.mem_cons_of_mem _ (List.mem_append_left _ hj)) ?_
      rintro hroot
      rcases List.mem_cons.1 hroot with rfl | hroot
      · exact (List.mem_append.1 hj).elim hid.1.1 hid.1.2
      · exact hdisjoint hj (hrest.roots_subset hroot)
    obtain ⟨n', hn', hchild, hign⟩ := hroots id List.mem_cons_self n hn
    obtain ⟨shapes', hrest', hshapes⟩ := ihrest hrestNodup
      (fun j hj hroot => by
        refine hbelow j (List.mem_cons_of_mem _ (List.mem_append_right _ hj)) ?_
        rintro hroot'
        rcases List.mem_cons.1 hroot' with rfl | hroot'
        · exact hid.2 hj
        · exact hroot hroot')
      fun j hj => hroots j (List.mem_cons_of_mem _ hj)
    refine ⟨n'.shape kids set.reverse :: shapes', .cons hn' ?_ (hkids.congr fun j hj => ?_) ?_
      (hset.congr fun j hj => ?_) hrest', fun hunlinked => ?_⟩
    · rw [hchild]
      exact hchildren.congr fun j hj =>
        hsame j (List.mem_append_left _ (hkids.roots_subset hj))
    · exact hsame j (List.mem_append_left _ hj)
    · rw [hign]
      exact hignored.congr fun j hj =>
        hsame j (List.mem_append_right _ (hset.roots_subset hj))
    · exact hsame j (List.mem_append_right _ hj)
    · have hshape : n'.shape kids set.reverse = n.shape kids set.reverse := by
        have hid' := hunlinked id List.mem_cons_self
        rw [hn, hn', Option.map_some, Option.map_some, Option.some.injEq] at hid'
        cases n
        cases n'
        cases hid'
        rfl
      rw [hshape, hshapes fun j hj => hunlinked j (List.mem_cons_of_mem _ hj)]

/-- A root may leave its chain. -/
lemma relink (h : Trees nodes ids owned shapes) (hnodup : owned.Nodup)
    (hbelow : ∀ id ∈ owned, id ∉ ids → nodes' id = nodes id)
    (hroots : ∀ id ∈ ids, (nodes' id).map Node.unlinked = (nodes id).map Node.unlinked) :
    Trees nodes' ids owned shapes := by
  obtain ⟨shapes', htrees, hshapes⟩ := h.regrow hnodup hbelow fun id hid n hn => by
    have hid' := hroots id hid
    rw [hn, Option.map_some, Option.map_eq_some_iff] at hid'
    obtain ⟨n', hn', hunlinked⟩ := hid'
    cases n
    cases n'
    cases hunlinked
    exact ⟨_, hn', rfl, rfl⟩
  rwa [hshapes hroots] at htrees

/-! ## Several trees -/

lemma append (hx : Trees nodes xs ownedX shapesX) (hy : Trees nodes ys ownedY shapesY) :
    Trees nodes (xs ++ ys) (ownedX ++ ownedY) (shapesX ++ shapesY) := by
  induction hx with
  | nil => exact hy
  | cons hn hchildren hkids hignored hset _ _ _ ih =>
    simp only [List.cons_append, List.append_assoc]
    rw [← List.append_assoc]
    exact .cons hn hchildren hkids hignored hset ih

lemma split (h : Trees nodes (xs ++ ys) owned shapes) :
    ∃ ownedX ownedY shapesX shapesY, owned = ownedX ++ ownedY ∧ shapes = shapesX ++ shapesY ∧
      Trees nodes xs ownedX shapesX ∧ Trees nodes ys ownedY shapesY := by
  induction xs generalizing owned shapes with
  | nil => exact ⟨[], owned, [], shapes, rfl, rfl, .nil, h⟩
  | cons id xs ih =>
    cases h with
    | @cons _ n children ignored below carried _ _ kids set _ hn hchildren hkids hignored hset
        hrest =>
      obtain ⟨ownedX, ownedY, shapesX, shapesY, rfl, rfl, hx, hy⟩ := ih hrest
      refine ⟨id :: (below ++ carried ++ ownedX), ownedY, n.shape kids set.reverse :: shapesX,
        shapesY, ?_, rfl, .cons hn hchildren hkids hignored hset hx, hy⟩
      simp

/-- The same trees in the other order. -/
lemma reverse (h : Trees nodes ids owned shapes) :
    ∃ owned', owned'.Perm owned ∧ Trees nodes ids.reverse owned' shapes.reverse := by
  induction h with
  | nil => exact ⟨[], .refl _, .nil⟩
  | @cons id n children ignored below carried rest owned kids set shapes hn hchildren hkids
      hignored hset _ _ _ ih =>
    obtain ⟨owned', hperm, hrest⟩ := ih
    have hfirst : Trees nodes [id] (id :: (below ++ carried ++ [])) [n.shape kids set.reverse] :=
      .cons hn hchildren hkids hignored hset .nil
    refine ⟨_, ?_, by simpa using hrest.append hfirst⟩
    exact List.perm_append_comm.trans (hperm.append_left _)

/-- The same trees in another order. -/
lemma perm {ids' : List NodeId} (h : Trees nodes ids owned shapes) (hperm : ids.Perm ids') :
    ∃ owned' shapes', owned'.Perm owned ∧ Trees nodes ids' owned' shapes' := by
  induction hperm generalizing owned shapes with
  | nil => exact ⟨owned, shapes, .refl _, h⟩
  | cons id _ ih =>
    obtain ⟨n, children, ignored, below, carried, ownedR, kids, set, shapesR, hn, hchildren, hkids,
      hignored, hset, hrest, rfl, rfl⟩ := h.of_cons
    obtain ⟨owned', shapes', howned, hrest'⟩ := ih hrest
    exact ⟨_, _, (howned.append_left _).cons id, .cons hn hchildren hkids hignored hset hrest'⟩
  | swap id id' rest =>
    obtain ⟨ownedX, ownedY, shapesX, shapesY, rfl, rfl, hx, hy⟩ :=
      (show Trees nodes ([id'] ++ id :: rest) owned shapes from h).split
    obtain ⟨ownedZ, ownedW, shapesZ, shapesW, rfl, rfl, hz, hw⟩ :=
      (show Trees nodes ([id] ++ rest) ownedY shapesY from hy).split
    refine ⟨_, _, ?_, hz.append (hx.append hw)⟩
    rw [← List.append_assoc, ← List.append_assoc]
    exact List.perm_append_comm.append_right _
  | trans _ _ ih ih' =>
    obtain ⟨owned', shapes', howned, h'⟩ := ih h
    obtain ⟨owned'', shapes'', howned', h''⟩ := ih' h'
    exact ⟨owned'', shapes'', howned'.trans howned, h''⟩

/-- Spans can be read off the roots. -/
lemma spans (h : Trees nodes ids owned shapes) :
    (ids.filterMap nodes).map Node.span = shapes.map Shape.span := by
  induction h with
  | nil => rfl
  | cons hn _ _ _ _ _ _ _ ih =>
    rw [List.filterMap_cons_some hn, List.map_cons, ih]
    rfl

end Trees

/-! ## Reading trees -/

namespace Forest

variable {f : Forest} {ids owned : List NodeId} {shapes : List Shape}

lemma mapM_reverse {α β : Type} {visit : α → Except Fault β} {xs : List α} {ys : List β}
    (h : xs.mapM visit = .ok ys) : xs.reverse.mapM visit = .ok ys.reverse := by
  induction xs generalizing ys with
  | nil =>
    cases h
    rfl
  | cons x xs ih =>
    rw [List.mapM_cons] at h
    obtain ⟨y, hy, h1⟩ := Except.bind_eq_ok.1 h
    obtain ⟨ys', hys, h2⟩ := Except.bind_eq_ok.1 h1
    cases h2
    rw [List.reverse_cons, List.reverse_cons, List.mapM_append, ih hys]
    simp only [List.mapM_cons, List.mapM_nil, hy]
    rfl

/-- Trees are read off a forest as they are, if the search for their leaves may take as many steps
as there are nodes. -/
lemma mapM_shapeUpTo {height : Nat} (h : Trees (Pool.get? f) ids owned shapes)
    (hnodup : owned.Nodup) (hheight : owned.length ≤ height) :
    ids.mapM (f.shapeUpTo height) = .ok shapes := by
  induction h generalizing height with
  | nil => rfl
  | @cons id n children ignored below carried rest owned kids set shapes hn hchildren hkids
      hignored hset hrest ihkids ihset ihrest =>
    obtain ⟨-, hnodup⟩ := List.nodup_cons.1 hnodup
    obtain ⟨hsub, hrestNodup, -⟩ := List.nodup_append'.1 hnodup
    obtain ⟨hbelow, hcarried, -⟩ := List.nodup_append'.1 hsub
    simp only [List.length_cons, List.length_append] at hheight
    obtain ⟨height, rfl⟩ := Nat.exists_eq_add_one_of_ne_zero (show height ≠ 0 by omega)
    have hkids' := ihkids hbelow (show below.length ≤ height by omega)
    have hset' := ihset hcarried (show carried.length ≤ height by omega)
    have hrest' := ihrest hrestNodup (show owned.length ≤ height + 1 by omega)
    have hid : f.shapeUpTo (height + 1) id = .ok (n.shape kids set.reverse) := by
      rw [shapeUpTo, Run.Op.read_eq_ok.2 hn]
      simp only [Bind.bind, Except.bind]
      rw [walk_eq_mapM _ hchildren (hkids.roots_sublist.nodup hbelow), hkids',
        chain_of_linked hignored (hset.roots_sublist.nodup hcarried)]
      simp only [mapM_reverse hset']
      rfl
    rw [List.mapM_cons, hid, hrest']
    rfl

lemma mapM_shape (h : Trees (Pool.get? f) ids owned shapes) (hnodup : owned.Nodup) :
    ids.mapM f.shape = .ok shapes :=
  mapM_shapeUpTo h hnodup (Nat.le_succ_of_le (Pool.length_le_size hnodup h.live))

end Forest

end Rewind
