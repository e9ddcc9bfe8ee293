import Rewind.Proofs.Trees

/-!
# Who owns the nodes

Every node of a run is in one place: on the stack, in the queue, among what was set aside, in the
stream, in a chain that the log keeps for a dropped token, or below a node that is.  `Rooted` says
so of any list of roots, and `Owned` of the roots of a view and its log.  A change moves roots from
one place to another, makes a root of a fresh node, or puts roots below another one, so whatever
happens every node keeps exactly one owner.
-/

namespace Rewind

/-! ## Roots -/

/-- The trees with these roots share no node, and every node is in one of them. -/
def Rooted (nodes : Nodes) (roots : List NodeId) : Prop :=
  ∃ owned shapes, Trees nodes roots owned shapes ∧ owned.Nodup ∧
    ∀ id, (nodes id).isSome → id ∈ owned

namespace Rooted

variable {nodes nodes' : Nodes} {roots roots' : List NodeId} {id : NodeId} {n : Node}

lemma empty (h : ∀ id, nodes id = none) : Rooted nodes [] :=
  ⟨[], [], .nil, List.nodup_nil, fun id hid => by simp [h id] at hid⟩

lemma nodup (h : Rooted nodes roots) : roots.Nodup := by
  obtain ⟨owned, shapes, htrees, hnodup, -⟩ := h
  exact htrees.roots_sublist.nodup hnodup

lemma live (h : Rooted nodes roots) : ∀ id ∈ roots, (nodes id).isSome := by
  obtain ⟨owned, shapes, htrees, -, -⟩ := h
  exact fun id hid => htrees.live id (htrees.roots_subset hid)

lemma perm (h : Rooted nodes roots) (hperm : roots.Perm roots') : Rooted nodes roots' := by
  obtain ⟨owned, shapes, htrees, hnodup, hall⟩ := h
  obtain ⟨owned', shapes', howned, htrees'⟩ := htrees.perm hperm
  exact ⟨owned', shapes', htrees', howned.nodup_iff.2 hnodup, fun id hid =>
    howned.mem_iff.2 (hall id hid)⟩

/-- A fresh node without anything below it is a root. -/
lemma add (h : Rooted nodes roots) (hid : nodes id = none) (hchild : n.child = none)
    (hignored : n.ignored = none) : Rooted (Function.update nodes id (some n)) (id :: roots) := by
  obtain ⟨owned, shapes, htrees, hnodup, hall⟩ := h
  have hout := htrees.not_mem_of_vacant hid
  refine ⟨_, _, htrees.pushToken hchild hignored hout, List.nodup_cons.2 ⟨hout, hnodup⟩,
    fun j hj => ?_⟩
  by_cases hji : j = id
  · exact hji ▸ List.mem_cons_self
  · rw [Function.update_of_ne hji] at hj
    exact List.mem_cons_of_mem _ (hall j hj)

/-- Roots may change in all but what is below them. -/
lemma regrow (h : Rooted nodes roots) (helse : ∀ id, id ∉ roots → nodes' id = nodes id)
    (hroots : ∀ id ∈ roots, ∀ n, nodes id = some n →
      ∃ n', nodes' id = some n' ∧ n'.child = n.child ∧ n'.ignored = n.ignored) :
    Rooted nodes' roots := by
  obtain ⟨owned, shapes, htrees, hnodup, hall⟩ := h
  obtain ⟨shapes', htrees', -⟩ := htrees.regrow hnodup (fun j _ hj => helse j hj) hroots
  refine ⟨owned, shapes', htrees', hnodup, fun j hj => ?_⟩
  by_cases hroot : j ∈ roots
  · exact htrees.roots_subset hroot
  · exact hall j (helse j hroot ▸ hj)

/-- One root changes in all but what is below it. -/
lemma update {n' : Node} (h : Rooted nodes roots) (hid : id ∈ roots) (hn : nodes id = some n)
    (hchild : n'.child = n.child) (hignored : n'.ignored = n.ignored) :
    Rooted (Function.update nodes id (some n')) roots := by
  refine h.regrow (fun j hj => Function.update_of_ne ?_ _ _) fun j _ m hm => ?_
  · rintro rfl
    exact hj hid
  · by_cases hji : j = id
    · subst hji
      obtain rfl : n = m := Option.some.inj (hn.symm.trans hm)
      exact ⟨n', Function.update_self .., hchild, hignored⟩
    · exact ⟨m, (Function.update_of_ne hji _ _).trans hm, rfl, rfl⟩

/-- Roots become the children of a fresh node. -/
lemma gather {tree : NodeId} {t : Node} {children rest : List NodeId}
    (h : Rooted nodes (children ++ rest)) (hvacant : nodes tree = none)
    (hrelinked : Relinked (Function.update nodes tree (some t)) nodes' children)
    (hsiblings : Linked nodes' t.child children none) (hignored : t.ignored = none) :
    Rooted nodes' (tree :: rest) := by
  obtain ⟨owned, shapes, htrees, hnodup, hall⟩ := h
  have hout := htrees.not_mem_of_vacant hvacant
  obtain ⟨ownedC, ownedR, shapesC, shapesR, rfl, rfl, hC, hR⟩ := htrees.split
  simp only [List.mem_append, not_or] at hout
  obtain ⟨houtC, houtR⟩ := hout
  obtain ⟨hnodupC, hnodupR, hdisjoint⟩ := List.nodup_append'.1 hnodup
  have htree : tree ∉ children := fun hmem => houtC (hC.roots_subset hmem)
  have ht : nodes' tree = some t := by
    rw [hrelinked.elsewhere tree htree, Function.update_self]
  have hC' : Trees nodes' children ownedC shapesC :=
    (hC.update_of_not_mem houtC).relink hnodupC (fun j _ hj => hrelinked.elsewhere j hj)
      fun j _ => hrelinked.unlinked j
  have hR' : Trees nodes' rest ownedR shapesR := by
    refine (hR.update_of_not_mem houtR).congr fun j hj => hrelinked.elsewhere j fun hmem => ?_
    exact hdisjoint (hC.roots_subset hmem) hj
  have hnone : Linked nodes' t.ignored [] none := by
    rw [hignored]
    exact .nil none
  refine ⟨_, _, .cons ht hsiblings hC' hnone .nil hR', ?_, fun j hj => ?_⟩
  · rw [List.append_nil]
    exact List.nodup_cons.2 ⟨by simp [houtC, houtR], hnodup⟩
  · rw [List.append_nil, List.mem_cons]
    by_cases hjt : j = tree
    · exact .inl hjt
    · refine .inr (hall j ?_)
      rw [hrelinked.live_iff, Function.update_of_ne hjt] at hj
      exact hj

/-- Roots become the ignored tokens in front of another one. -/
lemma carry {head : Option NodeId} {n' : Node} {aside rest : List NodeId}
    (h : Rooted nodes (id :: (aside ++ rest))) (hn : nodes id = some n) (hnone : n.ignored = none)
    (haside : Linked nodes head aside none) (hchild : n'.child = n.child)
    (hignored : n'.ignored = head) : Rooted (Function.update nodes id (some n')) (id :: rest) := by
  obtain ⟨owned, shapes, htrees, hnodup, hall⟩ := h
  obtain ⟨m, children, ignored, below, held, ownedR, kids, set, shapesR, hm, hchildren, hkids,
    hign, hset, hrest, rfl, rfl⟩ := htrees.of_cons
  obtain rfl : n = m := Option.some.inj (hn.symm.trans hm)
  have hempty : Linked nodes n.ignored [] none := by
    rw [hnone]
    exact .nil none
  obtain rfl := hempty.unique hign
  obtain ⟨rfl, rfl⟩ := hset.of_nil
  obtain ⟨ownedA, ownedB, shapesA, shapesB, rfl, rfl, hA, hB⟩ := hrest.split
  have hperm : (id :: (below ++ [] ++ (ownedA ++ ownedB))).Perm
      (id :: (below ++ ownedA ++ ownedB)) := by
    rw [List.append_nil, List.append_assoc]
  obtain ⟨hid, -⟩ := List.nodup_cons.1 (hperm.nodup_iff.1 hnodup)
  refine ⟨_, _, .push (hchild ▸ hchildren) hkids (hignored ▸ haside) hA hB hid,
    hperm.nodup_iff.1 hnodup, fun j hj => ?_⟩
  refine hperm.mem_iff.1 ?_
  by_cases hji : j = id
  · exact hji ▸ List.mem_cons_self
  · rw [Function.update_of_ne hji] at hj
    exact hall j hj

end Rooted

/-- Chains that begin at these nodes, one behind the other. -/
inductive Chains (nodes : Nodes) : (heads ids : List NodeId) → Prop
  | nil : Chains nodes [] []
  | cons {head : NodeId} {heads ids rest : List NodeId} :
    Linked nodes (some head) ids none → Chains nodes heads rest →
    Chains nodes (head :: heads) (ids ++ rest)

lemma Chains.congr {nodes nodes' : Nodes} {heads ids : List NodeId} (h : Chains nodes heads ids)
    (hsame : ∀ id ∈ ids, nodes' id = nodes id) : Chains nodes' heads ids := by
  induction h with
  | nil => exact .nil
  | cons hhead _ ih =>
    exact .cons (hhead.congr fun j hj => hsame j (List.mem_append_left _ hj))
      (ih fun j hj => hsame j (List.mem_append_right _ hj))

namespace Run

/-! ## The roots of a run -/

/-- Every node of a view is on the stack, waits, was set aside, or is in a chain that the log keeps,
or is below one that is; and it is in one such place only. -/
structure Owned (records : List Record) (v : View) : Prop where
  roots : ∃ stack aside dropped, Linked v.nodes v.stack stack none ∧
    Linked v.nodes v.aside aside none ∧
    Chains v.nodes (records.filterMap Record.dropped?) dropped ∧
    Rooted v.nodes (stack ++ (v.waiting ++ (aside ++ dropped)))

/-- A tree that was just pushed is a single node. -/
def Single (record : Record) (v : View) : Prop :=
  ∀ id, record = .treePushed id → ∀ n, v.nodes id = some n → n.child = none ∧ n.ignored = none

section Owned

variable {m : Machine} {strict : Prop} {unread length : Nat} {records older : List Record}
  {record : Record} {v v' : View} {id : NodeId} {n : Node}

lemma Owned.orderly (h : Owned records v) : Orderly v := by
  obtain ⟨stack, aside, dropped, hs, -, -, hroots⟩ := h
  have hnodup := hroots.nodup
  rw [← List.append_assoc] at hnodup
  refine ⟨⟨stack, hs, hnodup.of_append_left⟩, fun id hid => hroots.live id ?_⟩
  simp [hid]

/-- Nothing that is owned has changed its place. -/
lemma Owned.keep {records' : List Record} (h : Owned records v) (hstack : v'.stack = v.stack)
    (haside : v'.aside = v.aside) (hnodes : v'.nodes = v.nodes)
    (hwaiting : v'.waiting = v.waiting)
    (hdropped : records'.filterMap Record.dropped? = records.filterMap Record.dropped?) :
    Owned records' v' := by
  obtain ⟨stack, aside, dropped, hs, ha, hd, hroots⟩ := h
  refine ⟨stack, aside, dropped, ?_, ?_, ?_, ?_⟩
  · rwa [hnodes, hstack]
  · rwa [hnodes, haside]
  · rwa [hnodes, hdropped]
  · rwa [hnodes, hwaiting]

/-- A fresh node without anything below it waits. -/
lemma Owned.add (h : Owned records v) (hid : v.nodes id = none) (hchild : n.child = none)
    (hignored : n.ignored = none) (hstack : v'.stack = v.stack) (haside : v'.aside = v.aside)
    (hnodes : v'.nodes = Function.update v.nodes id (some n))
    (hwaiting : v'.waiting.Perm (id :: v.waiting)) : Owned records v' := by
  obtain ⟨stack, aside, dropped, hs, ha, hd, hroots⟩ := h
  have hout : id ∉ stack ++ (v.waiting ++ (aside ++ dropped)) := fun hmem => by
    have hlive := hroots.live id hmem
    simp [hid] at hlive
  have helse : ∀ j, j ≠ id → v'.nodes j = v.nodes j := fun j hj => by
    rw [hnodes, Function.update_of_ne hj]
  simp only [List.mem_append, not_or] at hout
  obtain ⟨houtS, -, houtA, houtD⟩ := hout
  refine ⟨stack, aside, dropped, ?_, ?_, hd.congr fun j hj => helse j ?_, ?_⟩
  · rw [hstack, hnodes]
    exact hs.update_of_not_mem houtS
  · rw [haside, hnodes]
    exact ha.update_of_not_mem houtA
  · rintro rfl
    exact houtD hj
  · rw [hnodes]
    have hmiddle : (stack ++ id :: (v.waiting ++ (aside ++ dropped))).Perm
        (id :: (stack ++ (v.waiting ++ (aside ++ dropped)))) := List.perm_middle
    refine (hroots.add hid hchild hignored).perm (hmiddle.symm.trans ?_)
    exact (hwaiting.symm.append_right _).append_left stack

/-- A fresh token is set aside. -/
lemma Owned.setAside (h : Owned records v) (hid : v.nodes id = none) (hchild : n.child = none)
    (hignored : n.ignored = none) (hnext : n.next = v.aside) (hstack : v'.stack = v.stack)
    (haside : v'.aside = some id) (hnodes : v'.nodes = Function.update v.nodes id (some n))
    (hwaiting : v'.waiting = v.waiting) : Owned records v' := by
  obtain ⟨stack, aside, dropped, hs, ha, hd, hroots⟩ := h
  have hout : id ∉ stack ++ (v.waiting ++ (aside ++ dropped)) := fun hmem => by
    have hlive := hroots.live id hmem
    simp [hid] at hlive
  simp only [List.mem_append, not_or] at hout
  obtain ⟨houtS, -, houtA, houtD⟩ := hout
  refine ⟨stack, id :: aside, dropped, ?_, ?_, ?_, ?_⟩
  · rw [hstack, hnodes]
    exact hs.update_of_not_mem houtS
  · rw [haside, hnodes]
    exact .cons (Function.update_self ..) (hnext ▸ ha.update_of_not_mem houtA)
  · rw [hnodes]
    refine hd.congr fun j hj => Function.update_of_ne ?_ _ _
    rintro rfl
    exact houtD hj
  · rw [hnodes, hwaiting]
    refine (hroots.add hid hchild hignored).perm (List.perm_iff_count.2 fun j => ?_)
    simp only [List.count_append, List.count_cons]
    omega

/-- A tree that waited in front is set aside. -/
lemma owned_treeSetAside {rest : List Item} {state : StateId} (h : Owned records v)
    (hqueue : v.queue = []) (hitems : v.items = .tree id true :: rest) (hn : v.nodes id = some n) :
    Owned records { v with
      nodes := Function.update v.nodes id (some { n with next := v.aside, state })
      aside := some id
      items := rest } := by
  obtain ⟨stack, aside, dropped, hs, ha, hd, hroots⟩ := h
  have hwaiting : v.waiting = id :: trees rest := by
    rw [View.waiting, hqueue, hitems]
    rfl
  have hmoved : Rooted v.nodes (id :: (stack ++ (trees rest ++ (aside ++ dropped)))) := by
    refine hroots.perm ?_
    rw [hwaiting]
    exact List.perm_middle
  have hout := (List.nodup_cons.1 hmoved.nodup).1
  simp only [List.mem_append, not_or] at hout
  obtain ⟨houtS, -, houtA, houtD⟩ := hout
  refine ⟨stack, id :: aside, dropped, hs.update_of_not_mem houtS,
    .cons (Function.update_self ..) (ha.update_of_not_mem houtA),
    hd.congr fun j hj => Function.update_of_ne ?_ _ _, ?_⟩
  · rintro rfl
    exact houtD hj
  · have hlater : View.waiting { v with
        nodes := Function.update v.nodes id (some { n with next := v.aside, state })
        aside := some id
        items := rest } = trees rest := by
      rw [View.waiting, hqueue]
      rfl
    rw [hlater]
    have hset : Rooted (Function.update v.nodes id (some { n with next := v.aside, state })) _ :=
      hmoved.update List.mem_cons_self hn rfl rfl
    refine hset.perm (List.perm_iff_count.2 fun j => ?_)
    simp only [List.count_append, List.count_cons]
    omega

lemma owned_shifted {rest : List NodeId} {target : StateId} {retries : Nat}
    (h : Owned records v) (hqueue : v.queue = id :: rest) (hn : v.nodes id = some n) :
    Owned records { v with
      nodes := Function.update v.nodes id (some { n with
        state := target
        next := v.stack
        ignored := (carried m n v.aside).or n.ignored })
      stack := some id
      queue := rest
      aside := if (carried m n v.aside).isSome then none else v.aside
      state := target
      retries := retries } := by
  obtain ⟨stack, aside, dropped, hs, ha, hd, hroots⟩ := h
  have hwaiting : v.waiting = id :: (rest ++ trees v.items) := by
    rw [View.waiting, hqueue]
    rfl
  have hmoved : Rooted v.nodes
      (id :: (stack ++ ((rest ++ trees v.items) ++ (aside ++ dropped)))) := by
    refine hroots.perm ?_
    rw [hwaiting]
    exact List.perm_middle
  have hout := (List.nodup_cons.1 hmoved.nodup).1
  simp only [List.mem_append, not_or] at hout
  obtain ⟨houtS, -, houtA, houtD⟩ := hout
  have hd' (x : Option Node) : Chains (Function.update v.nodes id x)
      (records.filterMap Record.dropped?) dropped := by
    refine hd.congr fun j hj => Function.update_of_ne ?_ _ _
    rintro rfl
    exact houtD hj
  rcases carried_cases m n v.aside with hnone | ⟨first, hsome, hfirst, hempty⟩
  · refine ⟨id :: stack, aside, dropped, .cons (Function.update_self ..)
      (hs.update_of_not_mem houtS), ?_, hd' _, ?_⟩
    · simp only [hnone, Option.isSome_none, Bool.false_eq_true, if_false]
      exact ha.update_of_not_mem houtA
    · refine hmoved.update List.mem_cons_self hn ?_ ?_
      · rfl
      · simp [hnone]
  · -- The node had nothing of its own, and takes what was set aside.
    refine ⟨id :: stack, [], dropped, .cons (Function.update_self ..)
      (hs.update_of_not_mem houtS), ?_, hd' _, ?_⟩
    · simp only [hsome, Option.isSome_some, if_true]
      exact .nil none
    · have hcarry : Rooted v.nodes
          (id :: (aside ++ (stack ++ ((rest ++ trees v.items) ++ dropped)))) := by
        refine hmoved.perm (List.perm_iff_count.2 fun j => ?_)
        simp only [List.count_append, List.count_cons]
        omega
      refine hcarry.carry hn hempty ha ?_ ?_
      · rfl
      · rw [hsome, hfirst]
        rfl

lemma owned_reduced {production : ProductionId} {info : Grammar.Production} {tree : NodeId}
    {children : List NodeId} {below : Option NodeId} {nodes : Nodes} {state : StateId}
    {retries : Nat} (h : Owned records v)
    (hreduces : Reduces m v production info tree children below nodes state) :
    Owned records { v with
      nodes := nodes
      stack := below
      queue := tree :: v.queue
      state := state
      retries := retries } := by
  obtain ⟨stack, aside, dropped, hs, ha, hd, hroots⟩ := h
  obtain ⟨-, -, htaken, hvacant, ⟨span, -, hrelinked⟩, hsiblings, -⟩ := hreduces
  obtain ⟨deeper, rfl, hdeeper⟩ := htaken.behind hs
  have hapart : Rooted v.nodes
      (children ++ (deeper ++ (v.waiting ++ (aside ++ dropped)))) := by
    refine hroots.perm ?_
    rw [List.append_assoc]
    exact (List.reverse_perm children).append_right _
  obtain ⟨-, -, hdisjoint⟩ := List.nodup_append'.1 hapart.nodup
  have hsame : ∀ j, j ∈ deeper ++ (v.waiting ++ (aside ++ dropped)) → nodes j = v.nodes j := by
    intro j hj
    have hne : j ≠ tree := by
      rintro rfl
      have hlive := hapart.live j (List.mem_append_right _ hj)
      simp [hvacant] at hlive
    rw [hrelinked.elsewhere j fun hmem => hdisjoint hmem hj, Function.update_of_ne hne]
  refine ⟨deeper, aside, dropped, hdeeper.congr fun j hj => hsame j (by simp [hj]),
    ha.congr fun j hj => hsame j (by simp [hj]), hd.congr fun j hj => hsame j (by simp [hj]), ?_⟩
  refine (hapart.gather hvacant hrelinked hsiblings rfl).perm ?_
  exact List.perm_middle.symm

/-- Whatever changes, every node keeps one owner. -/
lemma Owned.change (h : Owned older v) (hc : Change m strict unread length record v v')
    (hsingle : Single record v') : Owned (record :: older) v' := by
  cases hc with
  | scanned hqueue hid hitems _ =>
    refine Owned.add (h.keep rfl rfl rfl rfl rfl) hid rfl rfl rfl rfl rfl ?_
    simp [View.waiting, hqueue, hitems]
  | setAside hqueue hid hitems _ =>
    refine Owned.setAside (h.keep rfl rfl rfl rfl rfl) hid rfl rfl rfl rfl rfl rfl ?_
    simp [View.waiting, hitems]
  | treeQueued hqueue hitems =>
    refine h.keep rfl rfl rfl ?_ rfl
    simp [View.waiting, hqueue, hitems, trees]
  | treeSetAside hqueue hitems hn _ _ =>
    exact owned_treeSetAside (h.keep rfl rfl rfl rfl rfl) hqueue hitems hn
  | consumed _ hitems _ =>
    refine h.keep rfl rfl rfl ?_ rfl
    simp [View.waiting, hitems]
  | sent hid =>
    refine Owned.add (h.keep rfl rfl rfl rfl rfl) hid rfl rfl rfl rfl rfl ?_
    simp [View.waiting, List.perm_middle]
  | textPushed _ =>
    refine h.keep rfl rfl rfl ?_ rfl
    simp [View.waiting]
  | @treePushed _ id tree ignore hid _ =>
    obtain ⟨hchild, hignored⟩ := hsingle id rfl tree.loose (Function.update_self ..)
    refine Owned.add (h.keep rfl rfl rfl rfl rfl) hid hchild hignored rfl rfl rfl ?_
    simp [View.waiting, trees, List.perm_middle]
  | shifted hqueue hn _ _ => exact owned_shifted (h.keep rfl rfl rfl rfl rfl) hqueue hn
  | reduced hreduces =>
    refine owned_reduced (h.keep rfl rfl rfl rfl ?_) hreduces
    rfl
  | bound => exact h.keep rfl rfl rfl rfl rfl
  | dropped =>
    obtain ⟨stack, aside, dropped, hs, ha, hd, hroots⟩ := h
    refine ⟨stack, [], aside ++ dropped, hs, .nil none, ?_, hroots⟩
    cases hhead : v.aside with
    | none =>
      rw [hhead] at ha
      cases ha
      exact hd
    | some head =>
      rw [hhead] at ha
      exact .cons ha hd
  | committed => exact h.keep rfl rfl rfl rfl rfl
  | endActionMarked _ => exact h.keep rfl rfl rfl rfl rfl
  | action => exact h.keep rfl rfl rfl rfl rfl
  | stepEnded => exact h.keep rfl rfl rfl rfl rfl

end Owned

end Run

end Rewind
