import Rewind.Proofs.Ownership

/-!
# Releasing trees

Releasing a tree releases the nodes it is made of, each of them once, and no other.  So when a run
gives up its log, what goes is what the log alone still knew of, and all other nodes are where they
were.
-/

namespace Rewind

/-- The nodes `ids` are gone, and no other has changed. -/
def Emptied (nodes nodes' : Nodes) (ids : List NodeId) : Prop :=
  ∀ id, nodes' id = if id ∈ ids then none else nodes id

namespace Emptied

variable {nodes nodes' nodes'' : Nodes} {xs ys : List NodeId}

lemma refl (nodes : Nodes) : Emptied nodes nodes [] :=
  fun _ => by simp

lemma trans (h : Emptied nodes nodes' xs) (h' : Emptied nodes' nodes'' ys) :
    Emptied nodes nodes'' (xs ++ ys) := by
  intro id
  rw [h' id, h id]
  by_cases hx : id ∈ xs <;> by_cases hy : id ∈ ys <;> simp [hx, hy]

lemma elsewhere (h : Emptied nodes nodes' xs) {id : NodeId} (hid : id ∉ xs) :
    nodes' id = nodes id := by
  rw [h id, if_neg hid]

end Emptied

namespace Forest

variable {f : Forest} {ids owned heads : List NodeId} {shapes : List Shape}

/-- Trees are released node by node, each node once.  The induction is on the number of nodes left,
since children and ignored tokens take the place of a node that is released. -/
lemma freeAll_vacates (h : Trees (Pool.get? f) ids owned shapes) (hnodup : owned.Nodup) :
    ∃ order, order.Perm owned ∧ f.freeAll ids = .ok (Pool.vacateAll f order) := by
  generalize hsize : owned.length = size
  induction size generalizing f ids owned shapes with
  | zero =>
    obtain rfl := List.length_eq_zero_iff.1 hsize
    cases h
    exact ⟨[], .refl _, by rw [freeAll, Pool.vacateAll, List.foldl_nil]⟩
  | succ size ih =>
    obtain _ | ⟨id, rest⟩ := ids
    · obtain ⟨rfl, -⟩ := h.of_nil
      cases hsize
    obtain ⟨n, children, ignored, below, carried, ownedR, kids, set, shapesR, hn, hchildren, hkids,
      hignored, hset, hrest, rfl, rfl⟩ := h.of_cons
    obtain ⟨hid, hnodup⟩ := List.nodup_cons.1 hnodup
    simp only [List.mem_append, not_or] at hid
    obtain ⟨⟨hidB, hidC⟩, hidR⟩ := hid
    obtain ⟨hnodupBC, -, -⟩ := List.nodup_append'.1 hnodup
    obtain ⟨hnodupB, hnodupC, -⟩ := List.nodup_append'.1 hnodupBC
    have hvacated : Pool.get? (Pool.vacate f id) = Function.update (Pool.get? f) id none :=
      Pool.get?_vacate
    have hchain : Forest.chain (Pool.vacate f id) n.child = .ok children := by
      refine chain_of_linked ?_ (hkids.roots_sublist.nodup hnodupB)
      rw [hvacated]
      exact hchildren.update_of_not_mem fun hmem => hidB (hkids.roots_subset hmem)
    have hchain' : Forest.chain (Pool.vacate f id) n.ignored = .ok ignored := by
      refine chain_of_linked ?_ (hset.roots_sublist.nodup hnodupC)
      rw [hvacated]
      exact hignored.update_of_not_mem fun hmem => hidC (hset.roots_subset hmem)
    obtain ⟨ownedB, hpermB, hkids'⟩ := hkids.reverse
    obtain ⟨ownedC, hpermC, hset'⟩ := hset.reverse
    have hperm : (ownedC ++ (ownedB ++ ownedR)).Perm (below ++ carried ++ ownedR) :=
      calc ownedC ++ (ownedB ++ ownedR)
        _ = ownedC ++ ownedB ++ ownedR := (List.append_assoc ..).symm
        List.Perm _ (carried ++ below ++ ownedR) := (hpermC.append hpermB).append_right _
        List.Perm _ (below ++ carried ++ ownedR) := List.perm_append_comm.append_right _
    have hleft : Trees (Pool.get? (Pool.vacate f id))
        (ignored.reverse ++ (children.reverse ++ rest)) (ownedC ++ (ownedB ++ ownedR))
        (set.reverse ++ (kids.reverse ++ shapesR)) := by
      rw [hvacated]
      refine (hset'.append (hkids'.append hrest)).update_of_not_mem fun hmem => ?_
      have hmem' := hperm.mem_iff.1 hmem
      simp [hidB, hidC, hidR] at hmem'
    obtain ⟨order, horder, hfree⟩ := ih hleft (hperm.nodup_iff.2 hnodup)
      (by rw [hperm.length_eq]; exact Nat.succ.inj hsize)
    refine ⟨id :: order, (horder.trans hperm).cons id, ?_⟩
    rw [freeAll]
    split
    · rename_i hnone
      rw [hn] at hnone
      cases hnone
    · rename_i n' hn'
      obtain rfl : n = n' := Option.some.inj (hn.symm.trans hn')
      simp only [hchain, hchain']
      exact hfree

lemma freeAll_trees (hsound : Pool.Sound f) (h : Trees (Pool.get? f) ids owned shapes)
    (hnodup : owned.Nodup) :
    ∃ g, f.freeAll ids = .ok g ∧ Pool.Sound g ∧ Emptied (Pool.get? f) (Pool.get? g) owned := by
  obtain ⟨order, hperm, hfree⟩ := freeAll_vacates h hnodup
  have hlive : ∀ id ∈ order, (Pool.get? f id).isSome :=
    fun id hid => h.live id (hperm.mem_iff.1 hid)
  refine ⟨_, hfree, hsound.vacateAll (hperm.nodup_iff.2 hnodup) hlive, fun id => ?_⟩
  rw [Pool.get?_vacateAll]
  simp only [hperm.mem_iff]

lemma freeTree_trees (hsound : Pool.Sound f) (h : Trees (Pool.get? f) ids owned shapes)
    (hnodup : owned.Nodup) :
    ∃ g, ids.foldlM Forest.freeTree f = .ok g ∧ Pool.Sound g ∧
      Emptied (Pool.get? f) (Pool.get? g) owned := by
  induction ids generalizing f owned shapes with
  | nil =>
    obtain ⟨rfl, -⟩ := h.of_nil
    exact ⟨f, rfl, hsound, .refl _⟩
  | cons id ids ih =>
    obtain ⟨ownedX, ownedY, shapesX, shapesY, rfl, rfl, hx, hy⟩ :=
      (show Trees (Pool.get? f) ([id] ++ ids) owned shapes from h).split
    obtain ⟨hnodupX, hnodupY, hdisjoint⟩ := List.nodup_append'.1 hnodup
    obtain ⟨f', hfree, hsound', hemptied⟩ := freeAll_trees hsound hx hnodupX
    have hy' : Trees (Pool.get? f') ids ownedY shapesY :=
      hy.congr fun j hj => hemptied.elsewhere fun hmem => hdisjoint hmem hj
    obtain ⟨g, hfrees, hsound'', hemptied'⟩ := ih hsound' hy' hnodupY
    refine ⟨g, ?_, hsound'', hemptied.trans hemptied'⟩
    rw [List.foldlM_cons, freeTree, hfree]
    exact hfrees

end Forest

namespace Run

open Attempt Op

variable {f : Forest} {heads ids owned : List NodeId} {shapes : List Shape}

/-- Chains are released with all that is below their nodes. -/
lemma releaseChain_chains (hsound : Pool.Sound f) (hchains : Chains (Pool.get? f) heads ids)
    (h : Trees (Pool.get? f) ids owned shapes) (hnodup : owned.Nodup) :
    ∃ g, heads.foldlM releaseChain f = .ok g ∧ Pool.Sound g ∧
      Emptied (Pool.get? f) (Pool.get? g) owned := by
  induction heads generalizing f ids owned shapes with
  | nil =>
    cases hchains
    obtain ⟨rfl, -⟩ := h.of_nil
    exact ⟨f, rfl, hsound, .refl _⟩
  | cons head heads ih =>
    cases hchains with
    | @cons _ _ ids rest hhead hheads =>
      obtain ⟨ownedX, ownedY, shapesX, shapesY, rfl, rfl, hx, hy⟩ := h.split
      obtain ⟨hnodupX, hnodupY, hdisjoint⟩ := List.nodup_append'.1 hnodup
      obtain ⟨f', hfree, hsound', hemptied⟩ := Forest.freeTree_trees hsound hx hnodupX
      have helse : ∀ j ∈ ownedY, Pool.get? f' j = Pool.get? f j := fun j hj =>
        hemptied.elsewhere fun hmem => hdisjoint hmem hj
      obtain ⟨g, hfrees, hsound'', hemptied'⟩ := ih hsound'
        (hheads.congr fun j hj => helse j (hy.roots_subset hj)) (hy.congr helse) hnodupY
      refine ⟨g, ?_, hsound'', hemptied.trans hemptied'⟩
      have hrelease : releaseChain f head = .ok f' := by
        rw [releaseChain, Forest.chain_of_linked hhead (hx.roots_sublist.nodup hnodupX)]
        exact hfree
      rw [List.foldlM_cons, hrelease]
      exact hfrees

/-! ## Giving up the log -/

section GiveUp

variable {r : Run} {records : List Record}

/-- A node is below the same roots, however those that wait are shown. -/
lemma Owned.reshow {v : View} {nodes : Nodes} (h : Owned records v)
    (helse : ∀ j, j ∉ v.waiting → nodes j = v.nodes j)
    (hbelow : ∀ j n, v.nodes j = some n →
      ∃ n', nodes j = some n' ∧ n'.child = n.child ∧ n'.ignored = n.ignored) :
    Owned records { v with nodes } := by
  obtain ⟨stack, aside, dropped, hs, ha, hd, hroots⟩ := h
  obtain ⟨-, hrest, hapart⟩ := List.nodup_append'.1 hroots.nodup
  obtain ⟨-, -, hdisjoint⟩ := List.nodup_append'.1 hrest
  refine ⟨stack, aside, dropped, hs.congr fun j hj => helse j fun hmem => ?_,
    ha.congr fun j hj => helse j fun hmem => ?_, hd.congr fun j hj => helse j fun hmem => ?_,
    hroots.regrow (fun j hj => helse j fun hmem => ?_) fun j _ n hn => hbelow j n hn⟩
  · exact hapart hj (List.mem_append_left _ hmem)
  · exact hdisjoint hmem (List.mem_append_left _ hj)
  · exact hdisjoint hmem (List.mem_append_right _ hj)
  · exact hj (List.mem_append_right _ (List.mem_append_left _ hmem))

/-- The view of a run with its nodes as they are. -/
def held (r : Run) : View :=
  { r.view with nodes := Pool.get? r.forest }

lemma owned_held_iff : Owned records r.held ↔ Owned records r.view := by
  constructor
  · intro h
    refine h.reshow (fun j hj => shown_of_not_waiting hj) fun j n hn => ?_
    have hn' : Pool.get? r.forest j = some n := hn
    by_cases hwaits : j ∈ r.waiting
    · refine ⟨n.loose, ?_, rfl, rfl⟩
      rw [shown_of_waiting hwaits, hn', Option.map_some]
    · exact ⟨n, (shown_of_not_waiting hwaits).trans hn', rfl, rfl⟩
  · intro h
    refine h.reshow (fun j hj => (shown_of_not_waiting hj).symm) fun j n hn => ?_
    obtain ⟨n', hn', hloose⟩ := exists_of_shown hn
    have hchild : n'.loose.child = n.loose.child := congrArg Node.child hloose
    have hignored : n'.loose.ignored = n.loose.ignored := congrArg Node.ignored hloose
    exact ⟨n', hn', hchild, hignored⟩

/-- What is left when a log is given up: the nodes that the run still knows of, as they were. -/
structure Unburdened (r s : Run) : Prop where
  same : s = { r with log := Journal.empty, forest := s.forest, barrier := 0, retries := 0 }
  pool : Pool.Sound s.forest
  owned : Owned [] s.view
  kept : ∀ id n, Pool.get? s.forest id = some n → Pool.get? r.forest id = some n

/-- A log can always be given up. -/
theorem giveUpLog_ok (hsound : Pool.Sound r.forest) (h : Owned r.log.records r.view) :
    ∃ s, giveUpLog r = .ok () s ∧ Unburdened r s := by
  obtain ⟨stack, aside, dropped, hs, ha, hd, owned, shapes, htrees, hnodup, hall⟩ :=
    owned_held_iff.2 h
  obtain ⟨ownedS, ownedR, shapesS, shapesR, rfl, rfl, hS, hR⟩ := htrees.split
  obtain ⟨ownedW, ownedT, shapesW, shapesT, rfl, rfl, hW, hT⟩ := hR.split
  obtain ⟨ownedA, ownedD, shapesA, shapesD, rfl, rfl, hA, hD⟩ := hT.split
  obtain ⟨hnodupS, hnodupR, hdisjointS⟩ := List.nodup_append'.1 hnodup
  obtain ⟨hnodupW, hnodupT, hdisjointW⟩ := List.nodup_append'.1 hnodupR
  obtain ⟨hnodupA, hnodupD, hdisjointA⟩ := List.nodup_append'.1 hnodupT
  obtain ⟨forest, hrelease, hsound', hemptied⟩ := releaseChain_chains hsound hd hD hnodupD
  -- What is released shares nothing with what is kept.
  have hkept : ∀ j, j ∈ ownedS ++ (ownedW ++ ownedA) →
      Pool.get? forest j = Pool.get? r.forest j := by
    intro j hj
    refine hemptied.elsewhere fun hmem => ?_
    simp only [List.mem_append] at hj
    rcases hj with hj | hj | hj
    · exact hdisjointS hj (by simp [hmem])
    · exact hdisjointW hj (by simp [hmem])
    · exact hdisjointA hj hmem
  let s : Run := { r with log := Journal.empty, forest, barrier := 0, retries := 0 }
  refine ⟨s, ?_, rfl, hsound', ?_, fun id n hn => ?_⟩
  · rw [giveUpLog, get_bind]
    simp only [hrelease]
    rfl
  · refine owned_held_iff.1 ⟨stack, aside, [], hs.congr fun j hj => hkept j ?_,
      ha.congr fun j hj => hkept j ?_, .nil, ?_⟩
    · simp [hS.roots_subset hj]
    · simp [hA.roots_subset hj]
    · refine ⟨ownedS ++ (ownedW ++ ownedA), shapesS ++ (shapesW ++ shapesA), ?_, ?_,
        fun j hj => ?_⟩
      · rw [List.append_nil]
        exact (hS.append (hW.append hA)).congr hkept
      · refine hnodup.sublist ?_
        refine List.Sublist.append_left (List.Sublist.append_left ?_ _) _
        exact List.sublist_append_left _ _
      · have hj' : (Pool.get? forest j).isSome := hj
        have hlive : (Pool.get? r.forest j).isSome ∧ j ∉ ownedD := by
          rw [hemptied j] at hj'
          split at hj'
          · cases hj'
          · exact ⟨hj', ‹_›⟩
        have hmem := hall j hlive.1
        simp only [List.mem_append] at hmem ⊢
        rcases hmem with hmem | hmem | hmem | hmem
        · exact .inl hmem
        · exact .inr (.inl hmem)
        · exact .inr (.inr hmem)
        · exact absurd hmem hlive.2
  · have hn' : Pool.get? forest id = some n := hn
    rw [hemptied id] at hn'
    split at hn'
    · cases hn'
    · exact hn'

end GiveUp

end Run

end Rewind
