import Rewind.Proofs.Holdings

/-!
# What goes when a log is given up

Giving up a log releases the trees that were dropped, and nobody asks who else refers to their
nodes.  What goes is therefore exactly what can be reached from a dropped chain: everything else
stays as it was, and whatever is reached from there is gone, even if the run still shows it.  The
release comes to an end if the dropped trees share nothing among themselves.

Callers who push single nodes never share anything, so what goes then is garbage.  A caller who
pushes a copy of a tree, whose children the tree still has, and drops the copy, loses the children
of the tree as well.
-/

namespace Rewind

/-! ## Reachable nodes -/

/-- Where the links of a node lead. -/
def Node.links (n : Node) : Option NodeId × Option NodeId × Option NodeId :=
  (n.child, n.ignored, n.next)

/-- The links lead from `head` to the node. -/
def OnChain (nodes : Nodes) (head : Option NodeId) (id : NodeId) : Prop :=
  ∃ ids tail, Linked nodes head ids tail ∧ id ∈ ids

/-- The node is one of the roots, or a child or an ignored token of a node that can be reached. -/
inductive Reachable (nodes : Nodes) (Root : NodeId → Prop) : NodeId → Prop
  | root {id : NodeId} : Root id → (nodes id).isSome → Reachable nodes Root id
  | child {id j : NodeId} {n : Node} :
    Reachable nodes Root id → nodes id = some n → OnChain nodes n.child j → Reachable nodes Root j
  | ignored {id j : NodeId} {n : Node} :
    Reachable nodes Root id → nodes id = some n → OnChain nodes n.ignored j → Reachable nodes Root j

/-- Some nodes are gone, and no other has changed. -/
def Fewer (nodes nodes' : Nodes) : Prop :=
  ∀ id n, nodes' id = some n → nodes id = some n

section Reach

variable {nodes nodes' nodes'' : Nodes} {Root Root' : NodeId → Prop} {head : Option NodeId}
  {id : NodeId} {ids : List NodeId}

lemma Linked.of_fewer {tail : Option NodeId} (hfewer : Fewer nodes nodes')
    (h : Linked nodes' head ids tail) : Linked nodes head ids tail := by
  induction h with
  | nil => exact .nil _
  | cons hn _ ih => exact .cons (hfewer _ _ hn) ih

/-- Of a chain that ends, all nodes that can be reached are known. -/
lemma OnChain.mem (h : OnChain nodes head id) (hchain : Linked nodes head ids none) :
    id ∈ ids := by
  obtain ⟨before, middle, hbefore, hid⟩ := h
  obtain ⟨behind, rfl, -⟩ := hbefore.behind hchain
  exact List.mem_append_left _ hid

lemma OnChain.of_mem {tail : Option NodeId} (hchain : Linked nodes head ids tail)
    (hid : id ∈ ids) : OnChain nodes head id :=
  ⟨ids, tail, hchain, hid⟩

lemma OnChain.iff_mem (hchain : Linked nodes head ids none) : OnChain nodes head id ↔ id ∈ ids :=
  ⟨fun h => h.mem hchain, fun hid => .of_mem hchain hid⟩

lemma OnChain.of_fewer (hfewer : Fewer nodes nodes') (h : OnChain nodes' head id) :
    OnChain nodes head id := by
  obtain ⟨ids, tail, hchain, hid⟩ := h
  exact ⟨ids, tail, hchain.of_fewer hfewer, hid⟩

/-- What can be reached where fewer nodes are left, can be reached where there are more of them. -/
lemma Reachable.mono (hfewer : Fewer nodes nodes')
    (hroot : ∀ id, Root' id → (nodes' id).isSome → Reachable nodes Root id)
    (h : Reachable nodes' Root' id) : Reachable nodes Root id := by
  induction h with
  | root hid hlive => exact hroot _ hid hlive
  | child _ hn hchain ih => exact .child ih (hfewer _ _ hn) (hchain.of_fewer hfewer)
  | ignored _ hn hchain ih => exact .ignored ih (hfewer _ _ hn) (hchain.of_fewer hfewer)

/-- From the roots of trees nothing can be reached but what the trees are made of. -/
lemma Reachable.mem_of_trees {owned : List NodeId} {shapes : List Shape}
    (htrees : Trees nodes ids owned shapes) (h : Reachable nodes (· ∈ ids) id) : id ∈ owned := by
  -- The trees of the nodes owned: each of them has its chains among them.
  have hclosed : ∀ j ∈ owned, ∀ n, nodes j = some n →
      (∀ k, OnChain nodes n.child k → k ∈ owned) ∧ ∀ k, OnChain nodes n.ignored k → k ∈ owned := by
    clear h
    induction htrees with
    | nil => exact fun _ hj => absurd hj List.not_mem_nil
    | @cons root n children ignored below carried rest owned _ _ _ hroot hchildren hkids hignored
        hset _ ihkids ihset ihrest =>
      intro j hj n' hn'
      simp only [List.mem_cons, List.mem_append] at hj
      rcases hj with rfl | (hj | hj) | hj
      · obtain rfl : n = n' := Option.some.inj (hroot.symm.trans hn')
        refine ⟨fun k hk => ?_, fun k hk => ?_⟩
        · have hmem := hkids.roots_subset (hk.mem hchildren)
          simp [hmem]
        · have hmem := hset.roots_subset (hk.mem hignored)
          simp [hmem]
      · obtain ⟨hchild, hcarried⟩ := ihkids j hj n' hn'
        exact ⟨fun k hk => by simp [hchild k hk], fun k hk => by simp [hcarried k hk]⟩
      · obtain ⟨hchild, hcarried⟩ := ihset j hj n' hn'
        exact ⟨fun k hk => by simp [hchild k hk], fun k hk => by simp [hcarried k hk]⟩
      · obtain ⟨hchild, hcarried⟩ := ihrest j hj n' hn'
        exact ⟨fun k hk => by simp [hchild k hk], fun k hk => by simp [hcarried k hk]⟩
  induction h with
  | root hid _ => exact htrees.roots_subset hid
  | child _ hn hchain ih => exact (hclosed _ ih _ hn).1 _ hchain
  | ignored _ hn hchain ih => exact (hclosed _ ih _ hn).2 _ hchain

/-! ## Releases -/

/-- Everything below the roots is gone, and nothing else.  Whatever is gone had chains that end, all
of whose nodes are gone too. -/
structure Swept (nodes nodes' : Nodes) (Root : NodeId → Prop) : Prop where
  fewer : Fewer nodes nodes'
  roots : ∀ id, Root id → nodes' id = none
  only : ∀ id, (nodes id).isSome → nodes' id = none → Reachable nodes Root id
  whole : ∀ id n, nodes id = some n → nodes' id = none → ∃ children ignored,
    Linked nodes n.child children none ∧ Linked nodes n.ignored ignored none ∧
    ∀ j ∈ children ++ ignored, nodes' j = none

namespace Swept

lemma refl (nodes : Nodes) (hroot : ∀ id, Root id → nodes id = none) :
    Swept nodes nodes Root where
  fewer := fun _ _ hn => hn
  roots := hroot
  only := fun id hlive hnone => by simp [hnone] at hlive
  whole := fun id n hn hnone => by simp [hn] at hnone

lemma gone (h : Swept nodes nodes' Root) (hreach : Reachable nodes Root id) : nodes' id = none := by
  induction hreach with
  | root hid _ => exact h.roots _ hid
  | child _ hn hchain ih =>
    obtain ⟨children, ignored, hchildren, -, hall⟩ := h.whole _ _ hn ih
    exact hall _ (List.mem_append_left _ (hchain.mem hchildren))
  | ignored _ hn hchain ih =>
    obtain ⟨children, ignored, -, hignored, hall⟩ := h.whole _ _ hn ih
    exact hall _ (List.mem_append_right _ (hchain.mem hignored))

lemma kept (h : Swept nodes nodes' Root) (hreach : ¬Reachable nodes Root id) :
    nodes' id = nodes id := by
  cases hn' : nodes' id with
  | some n => exact (h.fewer id n hn').symm
  | none =>
    by_contra hne
    have hlive : (nodes id).isSome := by
      rw [Option.isSome_iff_ne_none]
      exact fun hnone => hne hnone.symm
    exact hreach (h.only id hlive hn')

lemma stays_gone (h : Swept nodes nodes' Root) (hnone : nodes id = none) : nodes' id = none := by
  cases hn' : nodes' id with
  | none => rfl
  | some n => rw [h.fewer id n hn'] at hnone; cases hnone

/-- A node that goes, goes with its chains. -/
lemma cons {n : Node} {children ignored : List NodeId} (hn : nodes id = some n)
    (hfirst : nodes' = Function.update nodes id none)
    (hchildren : Linked nodes' n.child children none)
    (hignored : Linked nodes' n.ignored ignored none)
    (h : Swept nodes' nodes'' (· ∈ ignored.reverse ++ (children.reverse ++ ids))) :
    Swept nodes nodes'' (· ∈ id :: ids) := by
  have hvacant : nodes' id = none := by simp [hfirst]
  have helse : ∀ j, j ≠ id → nodes' j = nodes j := fun j hj => by
    rw [hfirst, Function.update_of_ne hj]
  have hfewer : Fewer nodes nodes' := by
    intro j n' hn'
    by_cases hj : j = id
    · rw [hj, hvacant] at hn'
      cases hn'
    · rw [← helse j hj, hn']
  have hreach : Reachable nodes (· ∈ id :: ids) id := .root List.mem_cons_self (by simp [hn])
  refine ⟨fun j n' hn' => hfewer _ _ (h.fewer j n' hn'), fun j hj => ?_, fun j hlive hnone => ?_,
    fun j n' hn' hnone => ?_⟩
  · rcases List.mem_cons.1 hj with rfl | hj
    · exact h.stays_gone hvacant
    · exact h.roots j (by simp [hj])
  · by_cases hj : j = id
    · exact hj ▸ hreach
    · refine (h.only j (by rwa [helse j hj]) hnone).mono hfewer fun k hk hlive' => ?_
      simp only [List.mem_append, List.mem_reverse] at hk
      rcases hk with hk | hk | hk
      · exact .ignored hreach hn (.of_mem (hignored.of_fewer hfewer) hk)
      · exact .child hreach hn (.of_mem (hchildren.of_fewer hfewer) hk)
      · obtain ⟨n', hn'⟩ := Option.isSome_iff_exists.1 hlive'
        exact .root (List.mem_cons_of_mem _ hk) (by simp [hfewer k n' hn'])
  · by_cases hj : j = id
    · obtain rfl : n = n' := Option.some.inj (hn.symm.trans (hj ▸ hn'))
      refine ⟨children, ignored, hchildren.of_fewer hfewer, hignored.of_fewer hfewer,
        fun k hk => h.roots k ?_⟩
      simp only [List.mem_append, List.mem_reverse] at hk ⊢
      rcases hk with hk | hk
      · exact .inr (.inl hk)
      · exact .inl hk
    · obtain ⟨kids, set, hkids, hset, hall⟩ := h.whole j n' (by rw [helse j hj, hn']) hnone
      exact ⟨kids, set, hkids.of_fewer hfewer, hset.of_fewer hfewer, hall⟩

/-- One release after another. -/
lemma trans (h : Swept nodes nodes' Root) (h' : Swept nodes' nodes'' Root') :
    Swept nodes nodes'' (fun id => Root id ∨ Root' id) := by
  refine ⟨fun j n hn => h.fewer _ _ (h'.fewer j n hn), fun j hj => ?_, fun j hlive hnone => ?_,
    fun j n hn hnone => ?_⟩
  · rcases hj with hj | hj
    · exact h'.stays_gone (h.roots j hj)
    · exact h'.roots j hj
  · cases hn' : nodes' j with
    | none =>
      exact (h.only j hlive hn').mono (fun _ _ hn => hn) fun k hk hlive' => .root (.inl hk) hlive'
    | some n =>
      refine (h'.only j (by simp [hn']) hnone).mono h.fewer fun k hk hlive' => ?_
      obtain ⟨n', hn'⟩ := Option.isSome_iff_exists.1 hlive'
      exact .root (.inr hk) (by simp [h.fewer k n' hn'])
  · cases hn' : nodes' j with
    | none =>
      obtain ⟨children, ignored, hchildren, hignored, hall⟩ := h.whole j n hn hn'
      exact ⟨children, ignored, hchildren, hignored, fun k hk => h'.stays_gone (hall k hk)⟩
    | some n' =>
      obtain rfl : n = n' := Option.some.inj (hn.symm.trans (h.fewer j n' hn'))
      obtain ⟨children, ignored, hchildren, hignored, hall⟩ := h'.whole j n hn' hnone
      exact ⟨children, ignored, hchildren.of_fewer h.fewer, hignored.of_fewer h.fewer, hall⟩

lemma of_iff (h : Swept nodes nodes' Root) (hroot : ∀ id, Root' id ↔ Root id) :
    Swept nodes nodes' Root' := by
  obtain rfl : Root' = Root := funext fun id => propext (hroot id)
  exact h

end Swept

end Reach

namespace Forest

variable {f g : Forest} {head : Option NodeId} {ids : List NodeId}

lemma linked_of_walkUpTo {fuel : Nat} (h : f.walkUpTo .ok fuel head = .ok ids) :
    Linked (Pool.get? f) head ids none := by
  induction fuel generalizing head ids with
  | zero =>
    cases head with
    | none =>
      cases h
      exact .nil none
    | some id => cases h
  | succ fuel ih =>
    cases head with
    | none =>
      cases h
      exact .nil none
    | some id =>
      obtain ⟨n, hread, hvisit⟩ := Except.bind_eq_ok.1 h
      obtain ⟨j, hj, hwalk⟩ := Except.bind_eq_ok.1 hvisit
      obtain ⟨rest, hrest, hids⟩ := Except.bind_eq_ok.1 hwalk
      cases hj
      cases hids
      exact .cons (Run.Op.read_eq_ok.1 hread) (ih hrest)

/-- A chain that is followed to its end is one. -/
lemma linked_of_chain (h : f.chain head = .ok ids) : Linked (Pool.get? f) head ids none :=
  linked_of_walkUpTo h

/-- Everything below the nodes of a stack is released, whatever is shared there. -/
lemma swept_freeAll (h : f.freeAll ids = .ok g) :
    Swept (Pool.get? f) (Pool.get? g) (· ∈ ids) := by
  fun_induction freeAll f ids with
  | case1 f =>
    cases h
    exact .refl _ fun _ hid => absurd hid List.not_mem_nil
  | case2 f id pending hnone ih =>
    have hswept := ih h
    refine ⟨hswept.fewer, fun j hj => ?_, fun j hlive hgone => ?_, hswept.whole⟩
    · rcases List.mem_cons.1 hj with rfl | hj
      · exact hswept.stays_gone hnone
      · exact hswept.roots j hj
    · exact (hswept.only j hlive hgone).mono (fun _ _ hn => hn) fun k hk hlive' =>
        .root (List.mem_cons_of_mem _ hk) hlive'
  | case3 f id pending n hn vacated ih =>
    obtain ⟨children, hchildren, hrest⟩ := Except.bind_eq_ok.1 h
    obtain ⟨ignored, hignored, hfree⟩ := Except.bind_eq_ok.1 hrest
    exact .cons hn Pool.get?_vacate (linked_of_chain hchildren) (linked_of_chain hignored)
      (ih _ _ hfree)

lemma swept_freeTrees (h : ids.foldlM Forest.freeTree f = .ok g) :
    Swept (Pool.get? f) (Pool.get? g) (· ∈ ids) := by
  induction ids generalizing f with
  | nil =>
    cases h
    exact .refl _ fun _ hid => absurd hid List.not_mem_nil
  | cons id ids ih =>
    rw [List.foldlM_cons] at h
    obtain ⟨t, hfirst, hrest⟩ := Except.bind_eq_ok.1 h
    exact ((swept_freeAll hfirst).trans (ih hrest)).of_iff fun j => by simp

end Forest

lemma Chains.mem_of_onChain {nodes : Nodes} {heads ids : List NodeId} {id : NodeId}
    (h : Chains nodes heads ids) (hid : ∃ head ∈ heads, OnChain nodes (some head) id) :
    id ∈ ids := by
  induction h with
  | nil => simp at hid
  | cons hhead _ ih =>
    rw [List.exists_mem_cons_iff] at hid
    rcases hid with hid | hid
    · exact List.mem_append_left _ (hid.mem hhead)
    · exact List.mem_append_right _ (ih hid)

namespace Run

open Attempt Op

variable {m : Machine} {r s : Run} {f g : Forest} {head id : NodeId} {heads : List NodeId}
  {calls : List Call}

/-- A chain is released with all that is below its nodes. -/
lemma swept_releaseChain (h : releaseChain f head = .ok g) :
    (∃ ids, Linked (Pool.get? f) (some head) ids none) ∧
      Swept (Pool.get? f) (Pool.get? g) (OnChain (Pool.get? f) (some head)) := by
  obtain ⟨ids, hchain, hfree⟩ := Except.bind_eq_ok.1 h
  have hlinked := Forest.linked_of_chain hchain
  exact ⟨⟨ids, hlinked⟩, (Forest.swept_freeTrees hfree).of_iff fun _ => OnChain.iff_mem hlinked⟩

lemma swept_releaseChains (h : heads.foldlM releaseChain f = .ok g) :
    (∀ head ∈ heads, ∃ ids, Linked (Pool.get? f) (some head) ids none) ∧
      Swept (Pool.get? f) (Pool.get? g)
        (fun id => ∃ head ∈ heads, OnChain (Pool.get? f) (some head) id) := by
  induction heads generalizing f with
  | nil =>
    cases h
    exact ⟨nofun, .refl _ fun id hid => by simp at hid⟩
  | cons head heads ih =>
    rw [List.foldlM_cons] at h
    obtain ⟨t, hfirst, hrest⟩ := Except.bind_eq_ok.1 h
    obtain ⟨hends, hswept⟩ := swept_releaseChain hfirst
    obtain ⟨hall, hswept'⟩ := ih hrest
    refine ⟨fun head' hmem => ?_, (hswept.trans hswept').of_iff fun j => ?_⟩
    · rcases List.mem_cons.1 hmem with rfl | hmem
      · exact hends
      · obtain ⟨ids, hlinked⟩ := hall head' hmem
        exact ⟨ids, hlinked.of_fewer hswept.fewer⟩
    · rw [List.exists_mem_cons_iff]
      refine or_congr_right (exists_congr fun head' => and_congr_right fun hmem => ?_)
      -- A chain that is still whole after a release is the chain that it was.
      obtain ⟨ids, hlinked⟩ := hall head' hmem
      exact (OnChain.iff_mem (hlinked.of_fewer hswept.fewer)).trans (OnChain.iff_mem hlinked).symm

/-! ## Dropped nodes and nodes in use -/

/-- The chains that the log keeps for dropped tokens. -/
def droppedChains (r : Run) : List NodeId :=
  r.log.records.filterMap Record.dropped?

/-- The node can be reached from a chain that was dropped. -/
def Discarded (r : Run) : NodeId → Prop :=
  Reachable (Pool.get? r.forest) fun id =>
    ∃ head ∈ r.droppedChains, OnChain (Pool.get? r.forest) (some head) id

/-- The node can be reached from the stack, from what was set aside, or from what waits in the
queue or in the stream. -/
def Placed (r : Run) : NodeId → Prop :=
  Reachable (Pool.get? r.forest) fun id =>
    OnChain (Pool.get? r.forest) r.stack id ∨ OnChain (Pool.get? r.forest) r.aside id ∨
      id ∈ r.waiting

/-- The node can be reached from where nodes are placed, or from a variable. -/
def InUse (r : Run) : NodeId → Prop :=
  Reachable (Pool.get? r.forest) fun id =>
    r.Placed id ∨ ∃ name, r.bindings.get? name = some id

/-- The run needs the node itself: it is on the stack, or waits in the queue or in the stream. -/
def Needs (r : Run) (id : NodeId) : Prop :=
  OnChain (Pool.get? r.forest) r.stack id ∨ id ∈ r.waiting

/-- The dropped trees share no node among themselves. -/
def DroppedApart (r : Run) : Prop :=
  ∃ ids owned shapes, Chains (Pool.get? r.forest) r.droppedChains ids ∧
    Trees (Pool.get? r.forest) ids owned shapes ∧ owned.Nodup

/-- The log is given up, and exactly what can be reached from dropped chains is gone. -/
structure GivenUp (r s : Run) : Prop where
  same : s = { r with log := Journal.empty, forest := s.forest, barrier := 0, retries := 0 }
  gone : ∀ id, r.Discarded id → Pool.get? s.forest id = none
  kept : ∀ id, ¬r.Discarded id → Pool.get? s.forest id = Pool.get? r.forest id

lemma givenUp_of_ok (h : giveUpLog r = .ok () s) : GivenUp r s := by
  unfold giveUpLog at h
  rw [get_bind] at h
  obtain ⟨forest, t, hlookup, hmodify⟩ := bind_eq_ok.1 h
  obtain ⟨hrelease, rfl⟩ := lookup_eq_ok.1 hlookup
  cases hmodify
  obtain ⟨-, hswept⟩ := swept_releaseChains hrelease
  exact ⟨rfl, fun _ hid => hswept.gone hid, fun _ hid => hswept.kept hid⟩

/-- If nothing goes that the run needs, what it needs is as it was. -/
lemma GivenUp.orderly (h : GivenUp r s) (hspared : ∀ id, r.Discarded id → ¬r.Needs id)
    (ho : Orderly r.view) : Orderly s.view := by
  obtain ⟨ids, hlinked, hnodup, hout⟩ := stack_shown ho
  have hsame : s.waiting = r.waiting := by rw [h.same]; rfl
  have hkept (id : NodeId) (hid : r.Needs id) : Pool.get? s.forest id = Pool.get? r.forest id :=
    h.kept id fun hgone => hspared id hgone hid
  refine ⟨⟨ids, ?_, ?_⟩, fun id hid => ?_⟩
  · have hlinked' : Linked s.view.nodes r.stack ids none := hlinked.congr fun id hid => by
      rw [show s.view.nodes id = s.shown id from rfl,
        shown_of_not_waiting (hsame ▸ (hout id hid).1), hkept id (.inl (.of_mem hlinked hid))]
    rwa [show s.view.stack = r.stack by rw [h.same]; rfl]
  · rwa [show s.view.waiting = r.waiting from hsame]
  · have hid : id ∈ r.waiting := hsame ▸ hid
    have hlive : (r.shown id).isSome := ho.live id hid
    rw [shown_of_waiting hid] at hlive
    rwa [show s.view.nodes id = s.shown id from rfl, shown_of_waiting (hsame ▸ hid),
      hkept id (.inr hid)]

/-- Giving up the log reports no error. -/
lemma giveUpLog_ne_error {e : Error} : giveUpLog r ≠ .error (.error e) s := by
  intro h
  rw [giveUpLog, get_bind] at h
  rcases bind_eq_error.1 h with hlookup | ⟨forest, t, -, hmodify⟩
  · exact lift_ne_error hlookup
  · cases hmodify

lemma sound_giveUpLog (hsound : Pool.Sound r.forest) (h : giveUpLog r = .ok () s) :
    Pool.Sound s.forest := by
  rw [giveUpLog, get_bind] at h
  obtain ⟨forest, t, hlookup, hmodify⟩ := bind_eq_ok.1 h
  obtain ⟨hrelease, rfl⟩ := lookup_eq_ok.1 hlookup
  cases hmodify
  refine Pool.Sound.foldlM (fun f head g hf hchain => ?_) hsound hrelease
  obtain ⟨ids, -, htrees⟩ := Except.bind_eq_ok.1 hchain
  exact hf.foldlM (fun f id g hf => hf.freeAll) htrees

lemma giveUpLog_of_apart (hsound : Pool.Sound r.forest) (h : DroppedApart r) :
    ∃ s, giveUpLog r = .ok () s := by
  obtain ⟨ids, owned, shapes, hchains, htrees, hnodup⟩ := h
  obtain ⟨forest, hrelease, -⟩ := releaseChain_chains hsound hchains htrees hnodup
  refine ⟨{ r with log := Journal.empty, forest, barrier := 0, retries := 0 }, ?_⟩
  unfold giveUpLog
  rw [get_bind]
  rw [show r.log.records.filterMap Record.dropped? = r.droppedChains from rfl, hrelease]
  rfl

/-- Where every node has one owner, dropped trees are apart, from each other and from all that is
placed. -/
lemma Owned.apart (h : Owned r.log.records r.view) :
    DroppedApart r ∧ ∀ id, r.Discarded id → ¬r.Placed id := by
  obtain ⟨stack, aside, dropped, hs, ha, hd, owned, shapes, htrees, hnodup, -⟩ := owned_held_iff.2 h
  rw [← List.append_assoc, ← List.append_assoc] at htrees
  obtain ⟨ownedP, ownedD, shapesP, shapesD, rfl, rfl, hP, hD⟩ := htrees.split
  obtain ⟨-, hnodupD, hdisjoint⟩ := List.nodup_append'.1 hnodup
  refine ⟨⟨dropped, ownedD, shapesD, hd, hD, hnodupD⟩, fun id hgone hplaced => ?_⟩
  have hmemD : id ∈ ownedD := by
    refine Reachable.mem_of_trees hD (hgone.mono (fun _ _ hn => hn) fun j hj hlive => ?_)
    exact .root (hd.mem_of_onChain hj) hlive
  have hmemP : id ∈ ownedP := by
    refine Reachable.mem_of_trees hP (hplaced.mono (fun _ _ hn => hn) fun j hj hlive =>
      .root ?_ hlive)
    rcases hj with hj | hj | hj
    · have hmem := hj.mem hs
      simp [hmem]
    · have hmem := hj.mem ha
      simp [hmem]
    · have hmem : j ∈ r.view.waiting := hj
      simp only [List.mem_append]
      exact .inl (.inr hmem)
  exact hdisjoint hmemP hmemD

/-- Giving up the log releases exactly what can be reached from dropped chains, and it comes to an
end if the dropped trees share nothing.  Whatever callers do who push single nodes only, it comes to
an end, and all nodes that are in use stay as they were if the variables name nodes that are
placed. -/
theorem giveUpLog_releases (r : Run) :
    (∀ s, giveUpLog r = .ok () s → GivenUp r s) ∧
      (Pool.Sound r.forest → DroppedApart r → ∃ s, giveUpLog r = .ok () s) ∧
      ∀ m calls, Handled m calls r →
        ∃ s, giveUpLog r = .ok () s ∧ (∀ id, r.Discarded id → ¬r.Placed id) ∧
          ((∀ name id, r.bindings.get? name = some id → r.Placed id) →
            ∀ id, r.InUse id → Pool.get? s.forest id = Pool.get? r.forest id) := by
  refine ⟨fun s => givenUp_of_ok, giveUpLog_of_apart, fun m calls hhandled => ?_⟩
  have hnodesOwned := (Upheld.of_handled hhandled).nodesOwned
  obtain ⟨hapart, hgarbage⟩ := hnodesOwned.owned.apart
  obtain ⟨s, hgive⟩ := giveUpLog_of_apart hnodesOwned.pool hapart
  refine ⟨s, hgive, hgarbage, fun hbound id huse => ?_⟩
  have hplaced : r.Placed id := by
    refine huse.mono (fun _ _ hn => hn) fun j hj _ => ?_
    rcases hj with hj | ⟨name, hname⟩
    · exact hj
    · exact hbound name j hname
  exact (givenUp_of_ok hgive).kept id fun hgone => hgarbage id hgone hplaced

/-- The machine for a letter, whose caller acts at the end of the input. -/
def pausingMachine : Machine :=
  { letterMachine with
    grammar := { letterMachine.grammar with endActions := #[true, true] } }

/-- An ignored tree is pushed behind the letter, taken from the stream and dropped.  It goes with
the log, and the letter stays. -/
theorem giveUpLog_releases_letter : ∃ calls r s, Handled pausingMachine calls r ∧
    giveUpLog r = .ok () s ∧ r.Discarded 1 ∧ Pool.get? s.forest 1 = none ∧ r.Placed 0 ∧
    Pool.get? s.forest 0 = Pool.get? r.forest 0 := by
  have h : (match parse pausingMachine 20 .start letterStart with
      | .ok (.preEof _) r => match pushTree (Node.token 1 [98] Span.unknown) true r with
        | .ok _ r => match parse pausingMachine 20 .preEof r with
          | .ok (.preEof _) r => match dropAside r with
            | .ok () r => some (r.droppedChains, r.stack, (Pool.get? r.forest 0).isSome,
                (Pool.get? r.forest 1).isSome)
            | _ => none
          | _ => none
        | _ => none
      | _ => none) = some ([1], some 0, true, true) := by decide +kernel
  split at h
  · rename_i r₁ hparse
    split at h
    · rename_i r₂ hpush
      split at h
      · rename_i r₃ hresume
        split at h
        · rename_i r hdrop
          simp only [Option.some.injEq, Prod.mk.injEq, Option.isSome_iff_exists] at h
          obtain ⟨hdropped, hstack, ⟨letter, hletter⟩, token, htoken⟩ := h
          have hfresh : Fresh pausingMachine (Stream.ofBytes [97]) letterStart :=
            ⟨rfl, 8, 8, none, rfl⟩
          have hhandled : Handled pausingMachine [.dropAside, .parse 20 .preEof,
              .pushTree (Node.token 1 [98] Span.unknown) true, .parse 20 .start] r :=
            .call (.call (.call (.call (.fresh hfresh) nofun trivial (.inl ⟨_, hparse⟩)) nofun
              ⟨rfl, rfl⟩ (.inl ⟨_, hpush⟩)) nofun trivial (.inl ⟨_, hresume⟩)) nofun trivial
              (.inl ⟨_, hdrop⟩)
          have hgone : r.Discarded 1 :=
            .root ⟨1, by simp [hdropped], .of_mem (.cons htoken (.nil _)) List.mem_cons_self⟩
              (by simp [htoken])
          have hplaced : r.Placed 0 :=
            .root (.inl (hstack ▸ .of_mem (.cons hletter (.nil _)) List.mem_cons_self))
              (by simp [hletter])
          obtain ⟨hgivenUp, -, hends⟩ := giveUpLog_releases r
          obtain ⟨s, hgive, hgarbage, -⟩ := hends _ _ hhandled
          have hgiven := hgivenUp s hgive
          exact ⟨_, r, s, hhandled, hgive, hgone, hgiven.gone 1 hgone, hplaced,
            hgiven.kept 0 fun hgone' => hgarbage 0 hgone' hplaced⟩
        · cases h
      · cases h
    · cases h
  · cases h

/-- A copy of the word is pushed, which shares the letter with the word on the stack, and is
dropped.  The letter goes with the copy. -/
theorem giveUpLog_shared : ∃ r₁ r₂ word copy r₃ r₄ r s,
    parse pausingMachine 20 .start letterStart = .ok (.preEof 1) r₁ ∧
    parse pausingMachine 20 .preEof r₁ = .ok (.preEof 1) r₂ ∧
    Pool.get? r₂.forest 1 = some word ∧ pushTree word true r₂ = .ok copy r₃ ∧
    parse pausingMachine 20 .preEof r₃ = .ok (.preEof 1) r₄ ∧ dropAside r₄ = .ok () r ∧
    giveUpLog r = .ok () s ∧ r.Placed 0 ∧ Pool.get? s.forest 0 = none := by
  have h : (match parse pausingMachine 20 .start letterStart with
      | .ok first r₁ => match parse pausingMachine 20 .preEof r₁ with
        | .ok second r₂ =>
          match pushTree ((Pool.get? r₂.forest 1).getD (Node.fabricated 0 [])) true r₂ with
          | .ok _ r₃ => match parse pausingMachine 20 .preEof r₃ with
            | .ok third r₄ => match dropAside r₄ with
              | .ok () r => decide ([first, second, third] = List.replicate 3 (.preEof 1) ∧
                  (Pool.get? r₂.forest 1).isSome ∧
                  r.forest.released = [] ∧ r.droppedChains = [2] ∧ r.stack = some 1 ∧
                  (Pool.get? r.forest 0).map Node.links = some (none, none, none) ∧
                  (Pool.get? r.forest 1).map Node.links = some (some 0, none, none) ∧
                  (Pool.get? r.forest 2).map Node.links = some (some 0, none, none))
              | _ => false
            | _ => false
          | _ => false
        | _ => false
      | _ => false) = true := by decide +kernel
  split at h
  · rename_i first r₁ hparse
    split at h
    · rename_i second r₂ hresume
      split at h
      · rename_i copy r₃ hpush
        split at h
        · rename_i third r₄ hagain
          split at h
          · rename_i r hdrop
            simp only [decide_eq_true_eq, Option.map_eq_some_iff, Node.links, List.replicate,
              List.cons.injEq, and_true, Prod.mk.injEq, Option.isSome_iff_exists] at h
            obtain ⟨⟨rfl, rfl, rfl⟩, ⟨word, hword⟩, hreleased, hdropped, hstack,
              ⟨letter, hletter, hnone, hbare, hnext⟩, ⟨n, hn, hchild, -⟩,
              ⟨n', hn', hchild', hignored', hlast⟩⟩ := h
            rw [hword, Option.getD_some] at hpush
            have hsound : Pool.Sound r.forest := ⟨by simp [hreleased], by simp [hreleased]⟩
            have hkids : ∀ {head}, head = some 0 → Linked (Pool.get? r.forest) head [0] none :=
              fun hhead => hhead ▸ .cons hletter (by rw [hnext]; exact .nil none)
            have hcopy : Linked (Pool.get? r.forest) (some 2) [2] none :=
              .cons hn' (by rw [hlast]; exact .nil none)
            have hleaf : Trees (Pool.get? r.forest) [0] [0] [letter.shape [] []] :=
              .cons hletter (by rw [hnone]; exact .nil none) .nil (by rw [hbare]; exact .nil none)
                .nil .nil
            have hapart : DroppedApart r :=
              ⟨[2], [2, 0], [_], by rw [hdropped]; exact .cons hcopy .nil,
                .cons hn' (hkids hchild') hleaf (by rw [hignored']; exact .nil none) .nil .nil,
                by decide⟩
            obtain ⟨s, hgive⟩ := giveUpLog_of_apart hsound hapart
            have hgone : r.Discarded 0 :=
              .child (.root ⟨2, by simp [hdropped], .of_mem hcopy List.mem_cons_self⟩
                (by simp [hn'])) hn' (.of_mem (hkids hchild') List.mem_cons_self)
            have hplaced : r.Placed 0 :=
              .child (.root (.inl (hstack ▸ .of_mem (.cons hn (.nil _)) List.mem_cons_self))
                (by simp [hn])) hn (.of_mem (hkids hchild) List.mem_cons_self)
            exact ⟨r₁, r₂, word, copy, r₃, r₄, r, s, hparse, hresume, hword, hpush, hagain,
              hdrop, hgive, hplaced, (givenUp_of_ok hgive).gone 0 hgone⟩
          · cases h
        · cases h
      · cases h
    · cases h
  · cases h

end Run

end Rewind
