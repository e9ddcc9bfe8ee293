import Rewind.Proofs.Laws
import Rewind.Proofs.Trees

/-!
# Scenes

A `Scene` is what a view depicts: trees in place of slots that hold nodes.  Whatever changes a view
changes the scene in the same way wherever its nodes are kept, so that a parse can be told as a
sequence of scenes.  Here are the changes that a parse makes by itself.
-/

namespace Rewind.Run

/-- The bytes among items. -/
def bytes (items : List Item) : Bytes :=
  items.filterMap Item.byte?

lemma bytes_text (text : Bytes) (rest : List Item) :
    bytes (text.map .byte ++ rest) = text ++ bytes rest := by
  induction text with
  | nil => rfl
  | cons b text ih => exact congrArg (b :: ·) ih

/-- The trees and the input of a run, without the slots that hold them. -/
structure Scene where
  state : StateId
  /-- The stack, its top first. -/
  stack : List Shape
  queue : List Shape
  /-- What was set aside, the newest first. -/
  aside : List Shape
  items : List Item
  position : Position
  endActionRan : Bool

namespace Scene

/-- The scene in front of a stream. -/
def front (m : Machine) (stream : Stream) : Scene where
  state := m.start
  stack := []
  queue := []
  aside := []
  items := stream.content
  position := stream.position
  endActionRan := false

/-- A token of the input. -/
def token (element : ElementId) (text : Bytes) (position : Position) : Shape :=
  (Node.token element text ⟨position, text.length⟩).shape [] []

/-- Text is taken from the input. -/
def read (text : Bytes) (rest : List Item) (σ : Scene) : Scene :=
  { σ with items := rest, position := σ.position.advance text }

/-- A token is taken from the input and queued. -/
def queued (element : ElementId) (text : Bytes) (rest : List Item) (σ : Scene) : Scene :=
  { σ.read text rest with queue := [token element text σ.position] }

/-- A token is taken from the input and set aside. -/
def skipped (element : ElementId) (text : Bytes) (rest : List Item) (σ : Scene) : Scene :=
  { σ.read text rest with aside := token element text σ.position :: σ.aside }

/-- Whether a tree takes what was set aside when it is put on the stack. -/
def takes (m : Machine) (s : Shape) : Bool :=
  s.ignored.isEmpty && m.grammar.isTerminal s.element

/-- The lookahead is put on the stack. -/
def shifted (m : Machine) (target : StateId) (σ : Scene) : Scene :=
  match σ.queue with
  | [] => σ
  | s :: rest => { σ with
    state := target
    stack := { s with
      state := target
      ignored := if takes m s then σ.aside.reverse else s.ignored } :: σ.stack
    queue := rest
    aside := if takes m s then [] else σ.aside }

lemma shifted_cons {m : Machine} {target : StateId} {σ : Scene} {s : Shape} {rest : List Shape}
    (h : σ.queue = s :: rest) :
    σ.shifted m target = { σ with
      state := target
      stack := { s with
        state := target
        ignored := if takes m s then σ.aside.reverse else s.ignored } :: σ.stack
      queue := rest
      aside := if takes m s then [] else σ.aside } := by
  rw [shifted, h]

/-- The tree that a production makes of others. -/
def tree (production : ProductionId) (lhs : ElementId) (children : List Shape) : Shape :=
  (Node.reduced lhs production none
    ((children.map Shape.span).foldl Span.merge Span.unknown)).shape children []

/-- The top of the stack is replaced by a tree, which becomes the lookahead. -/
def reduced (m : Machine) (production : ProductionId) (info : Grammar.Production) (σ : Scene) :
    Scene :=
  let below := σ.stack.drop info.length
  { σ with
    state := (below.head?.map Shape.state).getD m.start
    stack := below
    queue := tree production info.lhs (σ.stack.take info.length).reverse :: σ.queue }

/-- Whether the parse is at its end. -/
def ended (m : Machine) (σ : Scene) : Bool :=
  match σ.stack with
  | [] => false
  | top :: below =>
    top.element = m.grammar.eof ∨ (m.fragment = some top.element ∧ below.isEmpty)

end Scene

/-- What a view depicts.  No two of the trees share a node. -/
structure Depicts (v : View) (σ : Scene) : Prop where
  state : v.state = σ.state
  items : v.items = σ.items
  position : v.position = σ.position
  endActionRan : v.endActionRan = σ.endActionRan
  trees : ∃ stack aside ownedS ownedQ ownedA,
    Linked v.nodes v.stack stack none ∧ Linked v.nodes v.aside aside none ∧
      Trees v.nodes stack ownedS σ.stack ∧ Trees v.nodes v.queue ownedQ σ.queue ∧
      Trees v.nodes aside ownedA σ.aside ∧ (ownedS ++ ownedQ ++ ownedA).Nodup

section Depicts

variable {m : Machine} {v : View} {σ : Scene} {id : NodeId}

/-- The mark of the action at the end of the input is no tree. -/
lemma Depicts.marked (h : Depicts v σ) (now : Bool) :
    Depicts { v with endActionRan := now } { σ with endActionRan := now } :=
  ⟨h.state, h.items, h.position, rfl, h.trees⟩

lemma Depicts.queue_length (h : Depicts v σ) : σ.queue.length = v.queue.length := by
  obtain ⟨stack, aside, ownedS, ownedQ, ownedA, -, -, -, hqueue, -⟩ := h.trees
  exact hqueue.length_eq.symm

lemma Depicts.queue_nil (h : Depicts v σ) (hqueue : v.queue = []) : σ.queue = [] := by
  have hlength := h.queue_length
  rw [hqueue] at hlength
  exact List.eq_nil_of_length_eq_zero hlength

lemma depicts_read (h : Depicts v σ) (text : Bytes) (rest : List Item) :
    Depicts { v with items := rest, position := v.position.advance text } (σ.read text rest) := by
  obtain ⟨hstate, -, hposition, hend, htrees⟩ := h
  exact ⟨hstate, rfl, congrArg (Position.advance · text) hposition, hend, htrees⟩

lemma depicts_scanned {element : ElementId} {text : Bytes} {rest : List Item}
    (h : Depicts v σ) (hqueue : v.queue = []) (hid : v.nodes id = none) :
    Depicts { v with
      nodes := Function.update v.nodes id (some (.token element text ⟨v.position, text.length⟩))
      queue := [id]
      items := rest
      position := v.position.advance text } (σ.queued element text rest) := by
  obtain ⟨hstate, -, hposition, hend, stack, aside, ownedS, ownedQ, ownedA, hs, ha, hstack,
    htrees, haside, hnodup⟩ := h
  rw [hqueue] at htrees
  obtain ⟨rfl, -⟩ := htrees.of_nil
  have hS := hstack.not_mem_of_vacant hid
  have hA := haside.not_mem_of_vacant hid
  refine ⟨hstate, rfl, congrArg (Position.advance · text) hposition, hend, stack, aside, ownedS,
    [id], ownedA, hs.update_of_not_mem (hs.not_mem_of_vacant hid),
    ha.update_of_not_mem (ha.not_mem_of_vacant hid), hstack.update_of_not_mem hS, ?_,
    haside.update_of_not_mem hA, ?_⟩
  · rw [Scene.queued, Scene.token, ← hposition]
    exact .pushToken rfl rfl .nil nofun
  · rw [List.append_nil] at hnodup
    rw [List.append_assoc, List.singleton_append, List.perm_middle.nodup_iff, List.nodup_cons,
      List.mem_append, not_or]
    exact ⟨⟨hS, hA⟩, hnodup⟩

lemma depicts_setAside {element : ElementId} {text : Bytes} {rest : List Item}
    (h : Depicts v σ) (hid : v.nodes id = none) :
    Depicts { v with
      nodes := Function.update v.nodes id
        (some { Node.token element text ⟨v.position, text.length⟩ with next := v.aside })
      aside := some id
      items := rest
      position := v.position.advance text } (σ.skipped element text rest) := by
  obtain ⟨hstate, -, hposition, hend, stack, aside, ownedS, ownedQ, ownedA, hs, ha, hstack,
    hqueue, haside, hnodup⟩ := h
  have hS := hstack.not_mem_of_vacant hid
  have hQ := hqueue.not_mem_of_vacant hid
  have hA := haside.not_mem_of_vacant hid
  refine ⟨hstate, rfl, congrArg (Position.advance · text) hposition, hend, stack, id :: aside,
    ownedS, ownedQ, id :: ownedA, hs.update_of_not_mem (hs.not_mem_of_vacant hid),
    .cons (Function.update_self ..) (ha.update_of_not_mem (ha.not_mem_of_vacant hid)),
    hstack.update_of_not_mem hS, hqueue.update_of_not_mem hQ, ?_, ?_⟩
  · rw [Scene.skipped, Scene.token, ← hposition]
    exact .pushToken (n := { Node.token element text ⟨v.position, text.length⟩ with
      next := v.aside }) rfl rfl haside hA
  · rw [List.perm_middle.nodup_iff, List.nodup_cons, List.mem_append, List.mem_append, not_or,
      not_or]
    exact ⟨⟨⟨hS, hQ⟩, hA⟩, hnodup⟩

/-- Whether a tree takes what was set aside can be seen from its node. -/
lemma takes_shape {nodes : Nodes} {n : Node} {ignored carried : List NodeId}
    {kids set : List Shape} (hignored : Linked nodes n.ignored ignored none)
    (hset : Trees nodes ignored carried set) :
    Scene.takes m (n.shape kids set.reverse) =
      (n.ignored.isNone && m.grammar.isTerminal n.element) := by
  have hempty : set.reverse.isEmpty = n.ignored.isNone := by
    rw [hignored.head_eq, List.isEmpty_reverse]
    cases hset <;> rfl
  rw [← hempty]
  rfl

lemma depicts_shifted {n : Node} {rest : List NodeId} {target : StateId} {retries : Nat}
    (h : Depicts v σ) (hqueue : v.queue = id :: rest) (hn : v.nodes id = some n) :
    Depicts { v with
      nodes := Function.update v.nodes id (some { n with
        state := target
        next := v.stack
        ignored := (carried m n v.aside).or n.ignored })
      stack := some id
      queue := rest
      aside := if (carried m n v.aside).isSome then none else v.aside
      state := target
      retries := retries } (σ.shifted m target) := by
  obtain ⟨-, hitems, hposition, hend, stack, aside, ownedS, ownedQ, ownedA, hs, ha, hstack,
    htrees, haside, hnodup⟩ := h
  rw [hqueue] at htrees
  obtain ⟨n', children, ignored, below, held, ownedR, kids, set, shapes, hn', hchildren, hkids,
    hignored, hset, hrest, rfl, hshapes⟩ := htrees.of_cons
  obtain rfl : n = n' := Option.some.inj (hn.symm.trans hn')
  have hshifted : σ.shifted m target = { σ with
      state := target
      stack := { n.shape kids set.reverse with
        state := target
        ignored := if Scene.takes m (n.shape kids set.reverse) then σ.aside.reverse
          else set.reverse } :: σ.stack
      queue := shapes
      aside := if Scene.takes m (n.shape kids set.reverse) then [] else σ.aside } := by
    exact Scene.shifted_cons hshapes
  have htakes : Scene.takes m (n.shape kids set.reverse) =
      (n.ignored.isNone && m.grammar.isTerminal n.element) := takes_shape hignored hset
  have hperm : (ownedS ++ id :: (below ++ held ++ ownedR) ++ ownedA).Perm
      (id :: (ownedS ++ (below ++ held ++ ownedR) ++ ownedA)) := by
    simp only [List.append_assoc, List.cons_append]
    exact List.perm_middle
  obtain ⟨hid, hdistinct⟩ := List.nodup_cons.1 (hperm.nodup_iff.1 hnodup)
  simp only [List.mem_append, not_or] at hid
  obtain ⟨⟨hidS, ⟨hidB, hidH⟩, hidR⟩, hidA⟩ := hid
  rw [hshifted]
  cases htaken : Scene.takes m (n.shape kids set.reverse) with
  | true =>
    -- The node had nothing of its own, and takes what was set aside.
    rw [htaken, eq_comm, Bool.and_eq_true] at htakes
    have hcarried : carried m n v.aside = v.aside := if_pos ⟨htakes.1, htakes.2⟩
    have hnone : n.ignored = none := Option.isNone_iff_eq_none.1 htakes.1
    have htop : Linked v.nodes ((carried m n v.aside).or n.ignored) aside none := by
      rw [hcarried, hnone, Option.or_none]
      exact ha
    have hempty : Linked v.nodes n.ignored [] none := by
      rw [hnone]
      exact .nil none
    obtain rfl := hempty.unique hignored
    obtain ⟨rfl, rfl⟩ := hset.of_nil
    refine ⟨rfl, hitems, hposition, hend, id :: stack, [], id :: (below ++ ownedA ++ ownedS),
      ownedR, [], .cons (Function.update_self ..) (hs.update_of_not_mem fun hmem =>
        hidS (hstack.roots_subset hmem)), ?_, ?_, hrest.update_of_not_mem hidR, .nil, ?_⟩
    · rw [hcarried]
      cases v.aside <;> exact .nil none
    · exact .push (n := { n with
        state := target, next := v.stack, ignored := (carried m n v.aside).or n.ignored })
        hchildren hkids htop haside hstack (by simp [hidB, hidA, hidS])
    · refine List.Perm.nodup_iff ?_ |>.1 hnodup
      refine hperm.trans (List.perm_iff_count.2 fun j => ?_)
      simp only [List.cons_append, List.count_cons, List.count_append, List.count_nil]
      omega
  | false =>
    have hcarried : carried m n v.aside = none := by
      rw [carried, if_neg]
      rw [htaken] at htakes
      simpa using htakes.symm
    have htop : Linked v.nodes ((carried m n v.aside).or n.ignored) ignored none := by
      rw [hcarried, Option.none_or]
      exact hignored
    refine ⟨rfl, hitems, hposition, hend, id :: stack, aside, id :: (below ++ held ++ ownedS),
      ownedR, ownedA, .cons (Function.update_self ..) (hs.update_of_not_mem fun hmem =>
        hidS (hstack.roots_subset hmem)), ?_, ?_, hrest.update_of_not_mem hidR,
      haside.update_of_not_mem hidA, ?_⟩
    · rw [hcarried]
      exact ha.update_of_not_mem fun hmem => hidA (haside.roots_subset hmem)
    · exact .push (n := { n with
        state := target, next := v.stack, ignored := (carried m n v.aside).or n.ignored })
        hchildren hkids htop hset hstack (by simp [hidB, hidH, hidS])
    · refine List.Perm.nodup_iff ?_ |>.1 hnodup
      refine hperm.trans (List.perm_iff_count.2 fun j => ?_)
      simp only [List.cons_append, List.count_cons, List.count_append]
      omega

lemma depicts_reduced {production : ProductionId} {info : Grammar.Production} {tree : NodeId}
    {children : List NodeId} {below : Option NodeId} {nodes : Nodes} {state : StateId}
    {retries : Nat} (h : Depicts v σ)
    (hreduces : Reduces m v production info tree children below nodes state) :
    Depicts { v with
      nodes := nodes
      stack := below
      queue := tree :: v.queue
      state := state
      retries := retries } (σ.reduced m production info) := by
  obtain ⟨-, hitems, hposition, hend, stack, aside, ownedS, ownedQ, ownedA, hs, ha, hstack,
    hqueue, haside, hnodup⟩ := h
  obtain ⟨-, hlength, htaken, hvacant, ⟨span, hcovers, hrelinked⟩, hsiblings, hstate⟩ := hreduces
  obtain ⟨rest, rfl, hrest⟩ := htaken.behind hs
  obtain ⟨ownedC, ownedR, shapesC, shapesR, rfl, hshapes, hC, hR⟩ := hstack.split
  -- The children are the top of the stack in the other order.
  obtain ⟨ownedC', hpermC, hC'⟩ := hC.reverse
  rw [List.reverse_reverse] at hC'
  have htop : shapesC.length = info.length := by
    rw [← hC.length_eq, List.length_reverse, hlength]
  obtain ⟨htake, hdrop⟩ : σ.stack.take info.length = shapesC ∧
      σ.stack.drop info.length = shapesR := by
    rw [hshapes, ← htop]
    exact ⟨List.take_left, List.drop_left⟩
  have hspan : span = ((shapesC.reverse.map Shape.span).foldl Span.merge Span.unknown) := by
    rw [hcovers, hC'.spans]
  have hstate' : state = (shapesR.head?.map Shape.state).getD m.start := by
    cases hrest with
    | nil =>
      obtain ⟨-, rfl⟩ := hR.of_nil
      exact hstate
    | cons hn _ =>
      obtain ⟨n, -, -, -, -, -, kids, set, shapes, hn', -, -, -, -, -, -, rfl⟩ := hR.of_cons
      obtain ⟨n', hn'', rfl⟩ := hstate
      rw [hn'] at hn''
      cases hn''
      rfl
  have hreduced : σ.reduced m production info = { σ with
      state := state
      stack := shapesR
      queue := (Node.reduced info.lhs production children.head? span).shape shapesC.reverse [] ::
        σ.queue } := by
    rw [Scene.reduced, htake, hdrop, hstate', hspan]
    rfl
  have hdistinct : (ownedC' ++ (ownedR ++ ownedQ ++ ownedA)).Nodup := by
    refine ((hpermC.append_right _).nodup_iff).2 ?_
    simpa only [List.append_assoc] using hnodup
  obtain ⟨hnodupC, -, hdisjoint⟩ := List.nodup_append'.1 hdistinct
  have hvacantC := hC'.not_mem_of_vacant hvacant
  have hne {j : NodeId} (hlive : (v.nodes j).isSome) : j ≠ tree := by
    rintro rfl
    rw [hvacant] at hlive
    cases hlive
  have helsewhere {j : NodeId} (hlive : (v.nodes j).isSome) (hj : j ∉ children) :
      nodes j = v.nodes j := by
    rw [hrelinked.elsewhere j hj, Function.update_of_ne (hne hlive)]
  -- What is not among the children stays as it is.
  have hframe {ids owned : List NodeId} {shapes : List Shape}
      (htrees : Trees v.nodes ids owned shapes) (hsub : owned ⊆ ownedR ++ ownedQ ++ ownedA) :
      ∀ j ∈ owned, nodes j = v.nodes j := fun j hj =>
    helsewhere (htrees.live j hj) fun hmem => hdisjoint (hC'.roots_subset hmem) (hsub hj)
  have hframeR := hframe hR fun j hj => by simp [hj]
  have hframeQ := hframe hqueue fun j hj => by simp [hj]
  have hframeA := hframe haside fun j hj => by simp [hj]
  have hkids : Trees nodes children ownedC' shapesC.reverse := by
    refine hC'.relink hnodupC (fun j hj hjc => helsewhere (hC'.live j hj) hjc) fun j hj => ?_
    have hunlinked := hrelinked.unlinked j
    rwa [Function.update_of_ne (hne (hC'.live j (hC'.roots_subset hj)))] at hunlinked
  have htree : nodes tree = some (.reduced info.lhs production children.head? span) := by
    rw [hrelinked.elsewhere tree fun hmem => hvacantC (hC'.roots_subset hmem),
      Function.update_self]
  rw [hreduced]
  refine ⟨rfl, hitems, hposition, hend, rest, aside, ownedR, tree :: (ownedC' ++ [] ++ ownedQ),
    ownedA, hrest.congr fun j hj => hframeR j (hR.roots_subset hj),
    ha.congr fun j hj => hframeA j (haside.roots_subset hj), hR.congr hframeR,
    .cons htree hsiblings hkids (.nil none) .nil (hqueue.congr hframeQ), haside.congr hframeA, ?_⟩
  have hvacantRest : tree ∉ ownedC' ++ (ownedR ++ ownedQ ++ ownedA) := by
    simp only [List.mem_append, not_or]
    exact ⟨hvacantC, ⟨hR.not_mem_of_vacant hvacant, hqueue.not_mem_of_vacant hvacant⟩,
      haside.not_mem_of_vacant hvacant⟩
  refine List.Perm.nodup_iff ?_ |>.1 (List.nodup_cons.2 ⟨hvacantRest, hdistinct⟩)
  refine List.perm_iff_count.2 fun j => ?_
  simp only [List.count_cons, List.count_append, List.count_nil]
  omega

end Depicts

/-! ## From scene to scene -/

/-- What a parse does to a scene whose input has no trees. -/
inductive Scene.Becomes (m : Machine) (σ : Scene) : Scene → Prop
  | scanned {element : ElementId} {text : Bytes} {rest : List Item} :
    σ.queue = [] → σ.items = text.map .byte ++ rest → Scans m σ.items element text →
    Becomes m σ (σ.queued element text rest)
  | setAside {element : ElementId} {text : Bytes} {rest : List Item} :
    σ.queue = [] → σ.items = text.map .byte ++ rest → m.scanner.Names element ∧ text ≠ [] →
    Becomes m σ (σ.skipped element text rest)
  | consumed {element : ElementId} {text : Bytes} {rest : List Item} :
    σ.queue = [] → σ.items = text.map .byte ++ rest → m.grammar.generates element = true →
    Becomes m σ (σ.read text rest)
  | shifted {target : StateId} : σ.queue ≠ [] → Becomes m σ (σ.shifted m target)
  | reduced {production : ProductionId} {info : Grammar.Production} :
    m.grammar.productions[production]? = some info → info.length ≤ σ.stack.length →
    Becomes m σ (σ.reduced m production info)
  | endActionMarked {now : Bool} : Becomes m σ { σ with endActionRan := now }
  | same : Becomes m σ σ

section Becomes

variable {m : Machine} {strict : Prop} {Noted : List Record → View → Prop} {unread length : Nat}
  {record : Record} {records : List Record} {v v' base : View} {σ : Scene}

lemma Depicts.length_le {production : ProductionId} {info : Grammar.Production} {tree : NodeId}
    {children : List NodeId} {below : Option NodeId} {nodes : Nodes} {state : StateId}
    (h : Depicts v σ) (hreduces : Reduces m v production info tree children below nodes state) :
    info.length ≤ σ.stack.length := by
  obtain ⟨stack, aside, ownedS, ownedQ, ownedA, hs, -, hstack, -⟩ := h.trees
  obtain ⟨rest, rfl, -⟩ := hreduces.taken.behind hs
  rw [← hstack.length_eq, ← hreduces.length, List.length_append, List.length_reverse]
  exact Nat.le_add_right _ _

/-- What a change makes of a view, it makes of the scene. -/
lemma depicts_change (h : Depicts v σ) (hc : Change m strict unread length record v v')
    (hown : record.isOwn = true) (hbytes : trees σ.items = []) :
    ∃ σ', Depicts v' σ' ∧ σ.Becomes m σ' := by
  have hitems := h.items
  cases hc with
  | scanned hqueue hid hsplit hscans =>
    rw [hitems] at hsplit hscans
    exact ⟨_, depicts_scanned h hqueue hid, .scanned (h.queue_nil hqueue) hsplit hscans⟩
  | setAside hqueue hid hsplit hnames =>
    rw [hitems] at hsplit
    exact ⟨_, depicts_setAside h hid, .setAside (h.queue_nil hqueue) hsplit hnames⟩
  | treeQueued _ hsplit =>
    rw [← hitems, hsplit] at hbytes
    cases hbytes
  | treeSetAside _ hsplit _ _ _ =>
    rw [← hitems, hsplit] at hbytes
    cases hbytes
  | @consumed _ element text rest hqueue hsplit hnames =>
    rw [hitems] at hsplit
    exact ⟨_, depicts_read h text rest, .consumed (h.queue_nil hqueue) hsplit hnames.2.2⟩
  | shifted hqueue hn _ _ =>
    have hlength := h.queue_length
    rw [hqueue, List.length_cons] at hlength
    exact ⟨_, depicts_shifted h hqueue hn, .shifted (List.ne_nil_of_length_eq_add_one hlength)⟩
  | reduced hreduces =>
    exact ⟨_, depicts_reduced h hreduces, .reduced hreduces.known (h.length_le hreduces)⟩
  | committed => exact ⟨σ, ⟨h.state, h.items, h.position, h.endActionRan, h.trees⟩, .same⟩
  | @endActionMarked _ now _ =>
    exact ⟨{ σ with endActionRan := now }, h.marked now, .endActionMarked⟩
  | stepEnded => exact ⟨σ, ⟨h.state, h.items, h.position, h.endActionRan, h.trees⟩, .same⟩
  | sent _ => cases hown
  | textPushed _ => cases hown
  | treePushed _ _ => cases hown
  | bound => cases hown
  | dropped => cases hown
  | action => cases hown

/-- What holds of scenes along the way holds at the end of a path. -/
theorem depicts_path {I : Scene → Prop} (hbytes : ∀ σ, I σ → trees σ.items = [])
    (hstep : ∀ σ σ', I σ → σ.Becomes m σ' → I σ')
    (h : Path m strict Noted [] base unread records v)
    (hown : ∀ record ∈ records, record.isOwn = true) (hbase : Depicts base σ) (hI : I σ) :
    ∃ σ', Depicts v σ' ∧ I σ' := by
  induction h with
  | start => exact ⟨σ, hbase, hI⟩
  | change _ hc _ ih =>
    obtain ⟨σ', hdepicts, hI'⟩ := ih fun record hrecord =>
      hown record (List.mem_cons_of_mem _ hrecord)
    obtain ⟨σ'', hdepicts', hbecomes⟩ :=
      depicts_change hdepicts hc (hown _ List.mem_cons_self) (hbytes _ hI')
    exact ⟨σ'', hdepicts', hstep _ _ hI' hbecomes⟩

end Becomes

end Rewind.Run
