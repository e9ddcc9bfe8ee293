import Rewind.Proofs.Alternatives
import Rewind.Proofs.Gist
import Rewind.Proofs.Unwind

/-!
# Outlines of a view

A view `Outlines` a gist if it shows the gist's elements on its stack and in its lookahead, and its
items are the gist's input with ignored units among them (`Sifted`).  Each change that a parse makes
by itself changes the outline too, or leaves it alone when something is set aside.

Where units are ignored does not show in an outline, so runs over different items can have one
outline in common, and go on in the same way.
-/

namespace Rewind.Run

section Sifting

variable (m : Machine) (reads : Alphabet)

/-- In every state that has regions, the first of them in which the byte is a token takes it for an
ignored one. -/
def Ignorable (b : UInt8) : Prop :=
  ∀ state < m.grammar.states, ∀ regions, m.grammar.regionsOf state = .ok regions → regions ≠ [] →
    ∃ element, regions.findSome? (reads · b) = some element ∧
      m.grammar.ignores element = true ∧ m.grammar.generates element = false

/-- The items without some of those that are ignored are the input.  `elements` tells the element of
a tree. -/
inductive Sifted (elements : NodeId → Option ElementId) : List Item → List Morsel → Prop
  | nil : Sifted elements [] []
  | byte {items : List Item} {input : List Morsel} (b : UInt8) :
    Sifted elements items input → Sifted elements (.byte b :: items) (.byte b :: input)
  | leaf {items : List Item} {input : List Morsel} {id : NodeId} {element : ElementId} :
    elements id = some element → Sifted elements items input →
    Sifted elements (.tree id false :: items) (.leaf element :: input)
  | ignoredByte {items : List Item} {input : List Morsel} {b : UInt8} :
    Ignorable m reads b → Sifted elements items input →
    Sifted elements (.byte b :: items) input
  | ignoredTree {items : List Item} {input : List Morsel} {id : NodeId} :
    Sifted elements items input → Sifted elements (.tree id true :: items) input

/-- The state entered last and those on the stack are states of the tables. -/
structure Gist.Known (γ : Gist) : Prop where
  state : γ.state < m.grammar.states
  stack : ∀ entered ∈ γ.stack, entered.2 < m.grammar.states

end Sifting

/-- The element of a node. -/
def elementAt (nodes : Nodes) (id : NodeId) : Option ElementId :=
  (nodes id).map Node.element

/-- The element of a node, and the state entered when the node was put on the stack. -/
def placeAt (nodes : Nodes) (id : NodeId) : Option (ElementId × StateId) :=
  (nodes id).map fun n => (n.element, n.state)

/-- What a view shows of a gist.  Once the action at the end of the input has run, nothing is left
of the input. -/
structure Outlines (m : Machine) (reads : Alphabet) (v : View) (γ : Gist) : Prop where
  state : v.state = γ.state
  endActionRan : v.endActionRan = γ.endActionRan
  input : Sifted m reads (elementAt v.nodes) v.items γ.input
  queue : v.queue.map (elementAt v.nodes) = γ.queue.map some
  stack : ∃ ids, Linked v.nodes v.stack ids none ∧ ids.map (placeAt v.nodes) = γ.stack.map some
  exhausted : v.endActionRan = true → v.items = []
  known : γ.Known m

variable {m : Machine} {reads : Alphabet} {v v' : View} {γ : Gist} {id : NodeId} {n : Node}
  {nodes : Nodes} {items : List Item} {input : List Morsel} {element : ElementId}

lemma elementAt_update_self (nodes : Nodes) (id : NodeId) (n : Node) :
    elementAt (Function.update nodes id (some n)) id = some n.element := by
  rw [elementAt, Function.update_self]
  rfl

lemma map_placeAt_congr {nodes' : Nodes} {ids : List NodeId}
    (hsame : ∀ id ∈ ids, nodes' id = nodes id) :
    ids.map (placeAt nodes') = ids.map (placeAt nodes) :=
  List.map_congr_left fun id hid => congrArg (Option.map _) (hsame id hid)

lemma map_placeAt_update {ids : List NodeId} {x : Option Node} (hid : id ∉ ids) :
    ids.map (placeAt (Function.update nodes id x)) = ids.map (placeAt nodes) :=
  map_placeAt_congr fun _ hj => Function.update_of_ne (ne_of_mem_of_not_mem hj hid) _ _

lemma Sifted.mono {elements elements' : NodeId → Option ElementId}
    (h : Sifted m reads elements items input)
    (hsame : ∀ id element, elements id = some element → elements' id = some element) :
    Sifted m reads elements' items input := by
  induction h with
  | nil => exact .nil
  | byte b _ ih => exact .byte b ih
  | leaf helement _ ih => exact .leaf (hsame _ _ helement) ih
  | ignoredByte hignorable _ ih => exact .ignoredByte hignorable ih
  | ignoredTree _ ih => exact .ignoredTree ih

/-- Nodes that are known by their elements are so wherever they keep them. -/
lemma map_elementAt_mono {nodes' : Nodes} {ids : List NodeId} {elements : List ElementId}
    (hsame : ∀ id element, elementAt nodes id = some element → elementAt nodes' id = some element)
    (h : ids.map (elementAt nodes) = elements.map some) :
    ids.map (elementAt nodes') = elements.map some := by
  rw [← h]
  refine List.map_congr_left fun id hid => ?_
  have hmem : elementAt nodes id ∈ elements.map some := h ▸ List.mem_map_of_mem hid
  obtain ⟨element, -, helement⟩ := List.mem_map.1 hmem
  rw [hsame id element helement.symm, helement]

lemma elementAt_eq (nodes : Nodes) (id : NodeId) :
    elementAt nodes id = (placeAt nodes id).map Prod.fst := by
  rw [elementAt, placeAt, Option.map_map]
  rfl

namespace Reduces

variable {production : ProductionId} {info : Grammar.Production} {tree : NodeId}
  {children : List NodeId} {below : Option NodeId} {state : StateId}
  (h : Reduces m v production info tree children below nodes state)
include h

/-- The nodes that are linked anew keep their elements and states. -/
lemma place_eq {j : NodeId} (hj : j ≠ tree) : placeAt nodes j = placeAt v.nodes j := by
  obtain ⟨span, -, hrelinked⟩ := h.made
  have hunlinked := hrelinked.unlinked j
  rw [Function.update_of_ne hj] at hunlinked
  have hpart := congrArg (Option.map fun n : Node => (n.element, n.state)) hunlinked
  rw [Option.map_map, Option.map_map] at hpart
  exact hpart

lemma element_tree : elementAt nodes tree = some info.lhs := by
  obtain ⟨span, -, hrelinked⟩ := h.made
  have hunlinked := hrelinked.unlinked tree
  rw [Function.update_self] at hunlinked
  have hpart := congrArg (Option.map Node.element) hunlinked
  rw [Option.map_map, Option.map_map] at hpart
  exact hpart

lemma element_mono (j : NodeId) (element : ElementId)
    (hj : elementAt v.nodes j = some element) : elementAt nodes j = some element := by
  rw [elementAt_eq, h.place_eq, ← elementAt_eq, hj]
  rintro rfl
  rw [elementAt, h.vacant] at hj
  cases hj

lemma elsewhere {j : NodeId} (hchild : j ∉ children) (hj : j ≠ tree) :
    nodes j = v.nodes j := by
  obtain ⟨span, -, hrelinked⟩ := h.made
  rw [hrelinked.elsewhere j hchild, Function.update_of_ne hj]

end Reduces

/-- The state below a tree is that of the first entry there. -/
lemma below_state {below : Option NodeId} {rest : List NodeId} {state : StateId}
    {others : List (ElementId × StateId)} (hrest : Linked nodes below rest none)
    (hbelow : Below m nodes below state) (hothers : rest.map (placeAt nodes) = others.map some) :
    state = (others.head?.map Prod.snd).getD m.start := by
  cases hrest with
  | nil =>
    obtain rfl := List.map_eq_nil_iff.1 hothers.symm
    exact hbelow
  | cons hn _ =>
    obtain ⟨n, hn', rfl⟩ := hbelow
    obtain rfl := Option.some.inj (hn.symm.trans hn')
    rw [List.map_cons, placeAt, hn] at hothers
    obtain ⟨place, others, rfl, hplace, -⟩ := List.map_eq_cons_iff.1 hothers.symm
    obtain rfl := Option.some.inj hplace
    rfl

namespace Outlines

/-- The nodes of the stack are shown with their elements and states. -/
lemma queue_cons {rest : List NodeId} (h : Outlines m reads v γ) (hqueue : v.queue = id :: rest) :
    ∃ element queue, γ.queue = element :: queue ∧ elementAt v.nodes id = some element ∧
      rest.map (elementAt v.nodes) = queue.map some := by
  have hall := h.queue
  rw [hqueue, List.map_cons] at hall
  obtain ⟨element, queue, hγ, helement, hrest⟩ := List.map_eq_cons_iff.1 hall.symm
  exact ⟨element, queue, hγ, helement.symm, hrest.symm⟩

lemma queue_nil (h : Outlines m reads v γ) (hqueue : v.queue = []) : γ.queue = [] := by
  have hall := h.queue
  rw [hqueue] at hall
  exact List.map_eq_nil_iff.1 hall.symm

/-- A node off the stack is changed, but not in its element, or made anew. -/
lemma update (h : Outlines m reads v γ)
    (hstack : ∀ ids, Linked v.nodes v.stack ids none → id ∉ ids)
    (helement : ∀ n', v.nodes id = some n' → n'.element = n.element) :
    Outlines m reads { v with nodes := Function.update v.nodes id (some n) } γ := by
  have hsame (j : NodeId) (element : ElementId) (hj : elementAt v.nodes j = some element) :
      elementAt (Function.update v.nodes id (some n)) j = some element := by
    by_cases hji : j = id
    · subst hji
      obtain ⟨n', hn', rfl⟩ := Option.map_eq_some_iff.1 hj
      rw [elementAt_update_self, helement n' hn']
    · rw [elementAt, Function.update_of_ne hji]
      exact hj
  obtain ⟨ids, hlinked, hplaces⟩ := h.stack
  have hid := hstack ids hlinked
  refine ⟨h.state, h.endActionRan, h.input.mono hsame, map_elementAt_mono hsame h.queue,
    ⟨ids, hlinked.update_of_not_mem hid, ?_⟩, h.exhausted, h.known⟩
  exact (map_placeAt_update hid).trans hplaces

/-- A node is made. -/
lemma store (h : Outlines m reads v γ) (hid : v.nodes id = none) (n : Node) :
    Outlines m reads { v with nodes := Function.update v.nodes id (some n) } γ := by
  refine h.update (fun ids hlinked => hlinked.not_mem_of_vacant hid) fun n' hn' => ?_
  rw [hid] at hn'
  cases hn'

/-- Something is taken from the input. -/
lemma read (h : Outlines m reads v γ) (hinput : Sifted m reads (elementAt v.nodes) items input)
    (hran : v.endActionRan = true → items = []) (position : Position) :
    Outlines m reads { v with items, position } { γ with input } :=
  ⟨h.state, h.endActionRan, hinput, h.queue, h.stack, hran, h.known.state, h.known.stack⟩

/-- A node becomes the lookahead. -/
lemma queued (h : Outlines m reads v γ) (hid : elementAt v.nodes id = some element) :
    Outlines m reads { v with queue := [id] } { γ with queue := [element] } :=
  ⟨h.state, h.endActionRan, h.input, congrArg (· :: []) hid, h.stack, h.exhausted,
    h.known.state, h.known.stack⟩

/-- The action at the end of the input runs. -/
lemma marked (h : Outlines m reads v γ) (hempty : v.items = []) :
    Outlines m reads { v with endActionRan := true } { γ with endActionRan := true } :=
  ⟨h.state, rfl, h.input, h.queue, h.stack, fun _ => hempty, h.known.state, h.known.stack⟩

/-- What was set aside is not outlined. -/
lemma aside (h : Outlines m reads v γ) (aside : Option NodeId) :
    Outlines m reads { v with aside } γ :=
  ⟨h.state, h.endActionRan, h.input, h.queue, h.stack, h.exhausted, h.known⟩

/-- The numbers that a view keeps are not outlined. -/
lemma count (h : Outlines m reads v γ) (steps barrier retries : Nat) :
    Outlines m reads { v with steps, barrier, retries } γ :=
  ⟨h.state, h.endActionRan, h.input, h.queue, h.stack, h.exhausted, h.known⟩

section Tree

variable {strict : Prop} {unread length : Nat} (h : Outlines m reads v γ)
  (hinput : Sifted m reads (elementAt v.nodes) v'.items input)
include h hinput

/-- A tree is taken from the input. -/
lemma treeQueued (hc : Change m strict unread length (.treeTaken id false) v v')
    (hid : elementAt v.nodes id = some element) :
    Outlines m reads v' { γ with queue := [element], input } := by
  cases hc with
  | treeQueued hqueue hitems =>
    refine (h.read hinput (fun hran => ?_) v.position).queued hid
    rw [h.exhausted hran] at hitems
    cases hitems

/-- A tree is set aside. -/
lemma treeSetAside (ho : Orderly v)
    (hc : Change m strict unread length (.treeTaken id true) v v') :
    Outlines m reads v' { γ with input } := by
  cases hc with
  | @treeSetAside _ _ n state rest hqueue hitems hn hloose hstate =>
    have hread : Outlines m reads { v with items := rest } { γ with input } := by
      refine h.read hinput (fun hran => ?_) v.position
      rw [h.exhausted hran] at hitems
      cases hitems
    refine (hread.update (n := { n with next := v.aside, state }) (fun ids hlinked hmem => ?_)
      fun n' hn' => ?_).aside (some id)
    · obtain ⟨ids', hlinked', hnodup⟩ := ho.stack
      obtain rfl := Linked.unique hlinked hlinked'
      refine (List.nodup_append'.1 hnodup).2.2 hmem (List.mem_append_right _ ?_)
      rw [hitems]
      exact List.mem_cons_self
    · obtain rfl := Option.some.inj (hn.symm.trans hn')
      rfl

end Tree

lemma shifted {rest : List NodeId} {target : StateId} {ignored : Option NodeId}
    (h : Outlines m reads v γ) (ho : Orderly v) (hqueue : v.queue = id :: rest)
    (hn : v.nodes id = some n) (htarget : target < m.grammar.states) :
    Outlines m reads { v with
      nodes := Function.update v.nodes id
        (some { n with state := target, next := v.stack, ignored })
      stack := some id
      queue := rest
      state := target } (γ.shifted target) := by
  obtain ⟨element, queue, hγ, helement, hrest⟩ := h.queue_cons hqueue
  obtain ⟨ids, hlinked, hplaces⟩ := h.stack
  have hid : id ∉ ids := by
    obtain ⟨ids', hlinked', hnodup⟩ := ho.stack
    obtain rfl := hlinked.unique hlinked'
    rw [List.nodup_append'] at hnodup
    exact fun hmem => hnodup.2.2 hmem (by simp [View.waiting, hqueue])
  have hupdated : Outlines m reads { v with
      nodes := Function.update v.nodes id
        (some { n with state := target, next := v.stack, ignored }) } γ := by
    refine h.update (fun ids' hlinked' => hlinked.unique hlinked' ▸ hid) fun n' hn' => ?_
    obtain rfl := Option.some.inj (hn'.symm.trans hn)
    rfl
  have helement : n.element = element := by
    rw [elementAt, hn] at helement
    exact Option.some.inj helement
  have hqueued := hupdated.queue
  rw [hqueue, hγ] at hqueued
  rw [Gist.shifted, hγ]
  refine ⟨rfl, h.endActionRan, hupdated.input, (List.cons.inj hqueued).2,
    ⟨id :: ids, .cons (Function.update_self ..) (hlinked.update_of_not_mem hid), ?_⟩, h.exhausted,
    ⟨htarget, fun entered hmem => ?_⟩⟩
  · have htop : placeAt (Function.update v.nodes id
        (some { n with state := target, next := v.stack, ignored })) id =
          some (element, target) := by
      rw [placeAt, Function.update_self, ← helement]
      rfl
    exact congr (congrArg List.cons htop) ((map_placeAt_update hid).trans hplaces)
  · rcases List.mem_cons.1 hmem with rfl | hmem
    · exact htarget
    · exact h.known.stack entered hmem

/-- Nodes from the top of the stack on are entries of the gist, and so are those below. -/
lemma split {tops : List NodeId} {below : Option NodeId} (h : Outlines m reads v γ)
    (htaken : Linked v.nodes v.stack tops below) :
    ∃ rest entered others, Linked v.nodes v.stack (tops ++ rest) none ∧
      Linked v.nodes below rest none ∧ γ.stack = entered ++ others ∧
      tops.map (placeAt v.nodes) = entered.map some ∧
      rest.map (placeAt v.nodes) = others.map some := by
  obtain ⟨ids, hlinked, hplaces⟩ := h.stack
  obtain ⟨rest, rfl, hrest⟩ := htaken.behind hlinked
  rw [List.map_append] at hplaces
  obtain ⟨entered, others, hstack, hentered, hothers⟩ := List.map_eq_append_iff.1 hplaces.symm
  exact ⟨rest, entered, others, hlinked, hrest, hstack, hentered.symm, hothers.symm⟩

/-- The children of a tree are the top of the stack, from left to right. -/
lemma reduced {production : ProductionId} {info : Grammar.Production} {tree : NodeId}
    {children : List NodeId} {below : Option NodeId} {state : StateId}
    (h : Outlines m reads v γ) (ho : Orderly v)
    (hreduces : Reduces m v production info tree children below nodes state)
    (hstart : m.start < m.grammar.states) :
    Outlines m reads { v with nodes, stack := below, queue := tree :: v.queue, state }
        (γ.reduced m info) ∧
      info.length ≤ γ.stack.length ∧
      children.map (elementAt nodes) = (γ.children info).map some := by
  obtain ⟨rest, entered, others, hlinked, hrest, hstack, htops, hothers⟩ := h.split hreduces.taken
  have htree : tree ∉ children.reverse ++ rest := hlinked.not_mem_of_vacant hreduces.vacant
  have hkept (j : NodeId) (hj : j ∈ rest) : nodes j = v.nodes j := by
    refine hreduces.elsewhere (fun hmem => ?_) fun hjt =>
      htree (List.mem_append_right _ (hjt ▸ hj))
    obtain ⟨ids, hlinked', hnodup⟩ := ho.stack
    obtain rfl := hlinked.unique hlinked'
    have hapart := (List.nodup_append'.1 hnodup.of_append_left).2.2
    exact hapart (List.mem_reverse.2 hmem) hj
  have hlength : entered.length = info.length := by
    have hlengths := congrArg List.length htops
    rw [List.length_map, List.length_map, List.length_reverse, hreduces.length] at hlengths
    exact hlengths.symm
  have hdrop : γ.stack.drop info.length = others := by
    rw [hstack, ← hlength, List.drop_left]
  have hknown : ∀ place ∈ others, place.2 < m.grammar.states := fun place hmem =>
    h.known.stack place (hstack ▸ List.mem_append_right _ hmem)
  have hstate : state = (others.head?.map Prod.snd).getD m.start :=
    below_state hrest hreduces.state hothers
  refine ⟨⟨?_, h.endActionRan, h.input.mono hreduces.element_mono, ?_, ⟨rest, ?_, ?_⟩,
    h.exhausted, ?_⟩, ?_, ?_⟩
  · rw [Gist.reduced, hdrop]
    exact hstate
  · have hqueue : elementAt nodes tree :: v.queue.map (elementAt nodes) =
        some info.lhs :: γ.queue.map some := by
      rw [hreduces.element_tree, map_elementAt_mono hreduces.element_mono h.queue]
    exact hqueue
  · exact hrest.congr hkept
  · rw [Gist.reduced, hdrop]
    exact (map_placeAt_congr hkept).trans hothers
  · rw [Gist.reduced, hdrop]
    refine ⟨?_, hknown⟩
    cases others with
    | nil => exact hstart
    | cons place others => exact hknown place List.mem_cons_self
  · rw [hstack, List.length_append]
    omega
  · have htake : γ.stack.take info.length = entered := by
      rw [hstack, ← hlength, List.take_left]
    have hchildren : children.map (placeAt nodes) = entered.reverse.map some := by
      rw [List.map_reverse, ← htops, List.map_reverse, List.reverse_reverse]
      refine List.map_congr_left fun j hj => hreduces.place_eq ?_
      rintro rfl
      exact htree (List.mem_append_left _ (List.mem_reverse.2 hj))
    have helements := congrArg (List.map (Option.map Prod.fst)) hchildren
    rw [List.map_map, List.map_map] at helements
    rw [Gist.children, htake, ← List.map_reverse, List.map_map]
    refine (List.map_congr_left fun j _ => ?_).trans helements
    exact elementAt_eq nodes j

/-- Whether the parse is at its end can be seen from the gist. -/
lemma ended_eq (h : Outlines m reads v γ) : v.ended m = γ.ended m := by
  obtain ⟨ids, hlinked, hplaces⟩ := h.stack
  rw [View.ended, Gist.ended]
  generalize v.stack = top at hlinked
  cases hlinked with
  | nil =>
    rw [List.map_eq_nil_iff.1 hplaces.symm]
    rfl
  | @cons id n ids _ hn hrest =>
    rw [List.map_cons, placeAt, hn] at hplaces
    obtain ⟨entered, below, hstack, hentered, hbelow⟩ := List.map_eq_cons_iff.1 hplaces.symm
    obtain rfl := Option.some.inj hentered
    have halone : n.next = none ↔ below = [] := by
      rw [hrest.head_eq, Option.or_none, List.head?_eq_none_iff, ← List.map_eq_nil_iff, ← hbelow,
        List.map_eq_nil_iff]
    rw [hstack, Option.bind_some, hn]
    simp only [halone]

end Outlines

end Rewind.Run
