import Rewind.Proofs.Alternatives
import Rewind.Proofs.Frontage

/-!
# Paths of shifts

The tables of a grammar are the edges of an automaton: from a state, an element leads to the target
of its transition, if the transition has an alternative that shifts.  The stack of a run is a path
of that automaton from where it starts, and so are the children of every tree that a production
made, from wherever they stood.

Nodes on such a path are told apart from those that wait by who owns them, so no change disturbs a
path but by adding to its end, or by taking a tree's children from there.
-/

namespace Rewind

namespace Run

variable {m : Machine} {nodes nodes' : Nodes} {state from_ to_ middle target : StateId}
  {element : ElementId} {ids xs ys : List NodeId} {id tree : NodeId} {n : Node}

/-- From the state, the element leads to the target: its transition has an alternative that
shifts. -/
def Edge (m : Machine) (state : StateId) (element : ElementId) (target : StateId) : Prop :=
  ∃ transition start code, m.grammar.lookup state element = .ok (some transition) ∧
    m.grammar.targets[transition]? = some target ∧
    m.grammar.codeStarts[transition]? = some start ∧ code ∈ m.grammar.codesFrom start ∧
    code.testBit 0 = true

/-- What shifts has the bit for it. -/
lemma testBit_of_shifts {code : Nat} {action : Grammar.Action}
    (h : Grammar.Action.decode code = some action)
    (hshifts : action = .shift ∨ ∃ production, action = .shiftReduce production) :
    code.testBit 0 = true := by
  unfold Grammar.Action.decode at h
  cases hbit : code.testBit 0 with
  | true => rfl
  | false =>
    rw [hbit] at h
    cases hreduces : code.testBit 1 <;> rw [hreduces] at h <;> cases h
    rcases hshifts with hshift | ⟨production, hshift⟩ <;> cases hshift

lemma Shifts.edge {alternative : Nat} {more : Bool}
    (h : Shifts m state element alternative more target) : Edge m state element target := by
  obtain ⟨decision, hdecide, -, htarget, hshifts⟩ := h
  obtain ⟨transition, start, hlookup, hstart, -, hdecision⟩ :=
    Grammar.Tables.decide_eq_some hdecide
  obtain ⟨code, hcode, hdecode⟩ := Option.bind_eq_some_iff.1 hdecision
  obtain ⟨action, haction, rfl⟩ := Option.map_eq_some_iff.1 hdecode
  exact ⟨transition, start, code, hlookup, htarget, hstart, List.mem_of_getElem? hcode,
    testBit_of_shifts haction hshifts⟩

/-! ## Climbing -/

/-- The nodes lead from a state to another, each to the state that it tells of. -/
inductive Climbs (m : Machine) (nodes : Nodes) : StateId → List NodeId → StateId → Prop
  | stay (state : StateId) : Climbs m nodes state [] state
  | up {state target : StateId} {id : NodeId} {n : Node} {rest : List NodeId} :
    nodes id = some n → Edge m state n.element n.state → Climbs m nodes n.state rest target →
    Climbs m nodes state (id :: rest) target

namespace Climbs

lemma append (hx : Climbs m nodes from_ xs middle) (hy : Climbs m nodes middle ys to_) :
    Climbs m nodes from_ (xs ++ ys) to_ := by
  induction hx with
  | stay => exact hy
  | up hn hedge _ ih => exact .up hn hedge (ih hy)

lemma split (h : Climbs m nodes from_ (xs ++ ys) to_) :
    ∃ middle, Climbs m nodes from_ xs middle ∧ Climbs m nodes middle ys to_ := by
  induction xs generalizing from_ with
  | nil => exact ⟨from_, .stay _, h⟩
  | cons id xs ih =>
    cases h with
    | up hn hedge hrest =>
      obtain ⟨middle, hx, hy⟩ := ih hrest
      exact ⟨middle, .up hn hedge hx, hy⟩

/-- Paths have nothing to do with links. -/
lemma congr (h : Climbs m nodes from_ ids to_)
    (hsame : ∀ id ∈ ids, (nodes' id).map Node.unlinked = (nodes id).map Node.unlinked) :
    Climbs m nodes' from_ ids to_ := by
  induction h with
  | stay => exact .stay _
  | @up state target id n rest hn hedge _ ih =>
    have hid := hsame id List.mem_cons_self
    rw [hn] at hid
    obtain ⟨n', hn', hunlinked⟩ := Option.map_eq_some_iff.1 hid
    have helement : n'.element = n.element := (congrArg Node.element hunlinked :)
    have hstate : n'.state = n.state := (congrArg Node.state hunlinked :)
    refine .up hn' (helement ▸ hstate ▸ hedge) ?_
    rw [hstate]
    exact ih fun j hj => hsame j (List.mem_cons_of_mem _ hj)

/-- Where a path leads is the state of its last node. -/
lemma arrives (h : Climbs m nodes m.start ids.reverse to_) : Below m nodes ids.head? to_ := by
  cases ids with
  | nil =>
    cases h
    rfl
  | cons id ids =>
    rw [List.reverse_cons] at h
    obtain ⟨middle, -, hlast⟩ := h.split
    cases hlast with
    | up hn _ hrest =>
      cases hrest
      exact ⟨_, hn, rfl⟩

end Climbs

lemma Below.unique {top : Option NodeId} (h : Below m nodes top from_)
    (h' : Below m nodes top to_) :
    from_ = to_ := by
  cases top with
  | none => exact Eq.trans h (Eq.symm h')
  | some id =>
    obtain ⟨n, hn, rfl⟩ := h
    obtain ⟨n', hn', rfl⟩ := h'
    rw [Option.some.inj (hn.symm.trans hn')]

/-- The tree was made by a production, of children that are a path. -/
def Grown (m : Machine) (nodes : Nodes) (tree : NodeId) : Prop :=
  ∃ n production info children from_ to_, nodes tree = some n ∧ n.production = some production ∧
    m.grammar.productions[production]? = some info ∧ n.element = info.lhs ∧
    Linked nodes n.child children none ∧ children.length = info.length ∧
    Climbs m nodes from_ children to_

/-! ## What is below a node -/

end Run

namespace Trees

variable {nodes : Nodes} {ids owned : List NodeId} {shapes : List Shape} {id : NodeId} {n : Node}

/-- The children of a node are a chain, and each of them is below a root. -/
lemma children (h : Trees nodes ids owned shapes) (hnodup : owned.Nodup) (hid : id ∈ owned)
    (hn : nodes id = some n) :
    ∃ children, Linked nodes n.child children none ∧ ∀ j ∈ children, j ∈ owned ∧ j ∉ ids := by
  induction h with
  | nil => cases hid
  | @cons root m children ignored below carried rest owned kids set shapes hm hchildren hkids
    hignored
      hset hrest ihkids ihset ihrest =>
    obtain ⟨hroot, hnodup⟩ := List.nodup_cons.1 hnodup
    obtain ⟨hbelow, howned, hapart⟩ := List.nodup_append.1 hnodup
    obtain ⟨hbelow, hcarried, hapart'⟩ := List.nodup_append.1 hbelow
    -- What is below a node is neither the root nor another root.
    have hout {j : NodeId} (hj : j ∈ below ++ carried) : j ∉ root :: rest := by
      rintro (_ | ⟨_, hmem⟩)
      · exact hroot (List.mem_append_left _ hj)
      · exact hapart j hj j (hrest.roots_subset hmem) rfl
    rcases List.mem_cons.1 hid with rfl | hid
    · obtain rfl : n = m := Option.some.inj (hn.symm.trans hm)
      refine ⟨children, hchildren, fun j hj => ?_⟩
      have hmem : j ∈ below ++ carried := List.mem_append_left _ (hkids.roots_subset hj)
      exact ⟨List.mem_cons_of_mem _ (List.mem_append_left _ hmem), hout hmem⟩
    · rcases List.mem_append.1 hid with hid | hid
      · have hsome : ∃ children, Linked nodes n.child children none ∧
            ∀ j ∈ children, j ∈ below ++ carried := by
          rcases List.mem_append.1 hid with hid | hid
          · obtain ⟨children, hlinked, hmem⟩ := ihkids hbelow hid
            exact ⟨children, hlinked, fun j hj => List.mem_append_left _ (hmem j hj).1⟩
          · obtain ⟨children, hlinked, hmem⟩ := ihset hcarried hid
            exact ⟨children, hlinked, fun j hj => List.mem_append_right _ (hmem j hj).1⟩
        obtain ⟨children, hlinked, hmem⟩ := hsome
        exact ⟨children, hlinked, fun j hj =>
          ⟨List.mem_cons_of_mem _ (List.mem_append_left _ (hmem j hj)), hout (hmem j hj)⟩⟩
      · obtain ⟨children, hlinked, hmem⟩ := ihrest howned hid
        refine ⟨children, hlinked, fun j hj => ?_⟩
        obtain ⟨hj, hjroot⟩ := hmem j hj
        refine ⟨List.mem_cons_of_mem _ (List.mem_append_right _ hj), ?_⟩
        rintro (_ | ⟨_, hmem⟩)
        · exact hroot (List.mem_append_right _ hj)
        · exact hjroot hmem

end Trees

namespace Run

variable {m : Machine} {nodes nodes' : Nodes} {roots made : List NodeId} {tree id : NodeId}
  {n : Node} {records older : List Record} {record : Record} {v v' base : View}
  {lane lane' : List Item}

/-- What is below the roots stays as it was, and of every root what it is and what is below it. -/
structure Untouched (nodes nodes' : Nodes) (roots : List NodeId) : Prop where
  below : ∀ id, id ∉ roots → (nodes id).isSome → nodes' id = nodes id
  roots : ∀ id ∈ roots, ∀ n, nodes id = some n → ∃ n', nodes' id = some n' ∧
    n'.element = n.element ∧ n'.production = n.production ∧ n'.child = n.child

namespace Untouched

lemma refl (nodes : Nodes) (roots : List NodeId) : Untouched nodes nodes roots :=
  ⟨fun _ _ _ => rfl, fun _ _ n hn => ⟨n, hn, rfl, rfl, rfl⟩⟩

/-- A slot that held nothing is filled. -/
lemma fill (hid : nodes id = none) (n : Node) (roots : List NodeId) :
    Untouched nodes (Function.update nodes id (some n)) roots := by
  have hne {j : NodeId} (hj : (nodes j).isSome) : j ≠ id := by
    rintro rfl
    simp [hid] at hj
  refine ⟨fun j _ hj => Function.update_of_ne (hne hj) _ _, fun j _ k hk => ?_⟩
  exact ⟨k, by rw [Function.update_of_ne (hne (by simp [hk])), hk], rfl, rfl, rfl⟩

/-- A root is changed. -/
lemma touch {n' : Node} (hid : id ∈ roots) (hn : nodes id = some n)
    (helement : n'.element = n.element) (hproduction : n'.production = n.production)
    (hchild : n'.child = n.child) :
    Untouched nodes (Function.update nodes id (some n')) roots := by
  refine ⟨fun j hj _ => Function.update_of_ne (ne_of_mem_of_not_mem hid hj).symm _ _,
    fun j _ k hk => ?_⟩
  by_cases hj : j = id
  · subst hj
    obtain rfl : n = k := Option.some.inj (hn.symm.trans hk)
    exact ⟨n', Function.update_self _ _ _, helement, hproduction, hchild⟩
  · exact ⟨k, by rw [Function.update_of_ne hj, hk], rfl, rfl, rfl⟩

/-- Roots are linked anew. -/
lemma relink {ids : List NodeId} (h : Relinked nodes nodes' ids) (hids : ids ⊆ roots) :
    Untouched nodes nodes' roots := by
  refine ⟨fun j hj _ => h.elsewhere j fun hmem => hj (hids hmem), fun j _ n hn => ?_⟩
  have hunlinked := h.unlinked j
  rw [hn] at hunlinked
  obtain ⟨n', hn', hunlinked⟩ := Option.map_eq_some_iff.1 hunlinked
  exact ⟨n', hn', (congrArg Node.element hunlinked :), (congrArg Node.production hunlinked :),
    (congrArg Node.child hunlinked :)⟩

lemma trans {nodes'' : Nodes} (h : Untouched nodes nodes' roots)
    (h' : Untouched nodes' nodes'' roots) : Untouched nodes nodes'' roots := by
  refine ⟨fun j hj hlive => ?_, fun j hj n hn => ?_⟩
  · have hsame := h.below j hj hlive
    rw [h'.below j hj (hsame ▸ hlive), hsame]
  · obtain ⟨n', hn', helement, hproduction, hchild⟩ := h.roots j hj n hn
    obtain ⟨n'', hn'', helement', hproduction', hchild'⟩ := h'.roots j hj n' hn'
    exact ⟨n'', hn'', helement'.trans helement, hproduction'.trans hproduction,
      hchild'.trans hchild⟩

end Untouched

/-- The children of a tree are below the roots, so the tree stays what it is. -/
lemma Grown.untouched (h : Grown m nodes tree) (hrooted : Rooted nodes roots)
    (hsame : Untouched nodes nodes' roots) : Grown m nodes' tree := by
  obtain ⟨n, production, info, children, from_, to_, hn, hproduction, hinfo, helement, hchildren,
    hlength, hclimbs⟩ := h
  obtain ⟨owned, shapes, htrees, hnodup, hall⟩ := hrooted
  obtain ⟨children', hlinked, hbelow⟩ := htrees.children hnodup (hall tree (by simp [hn])) hn
  obtain rfl := hchildren.unique hlinked
  have hkept (j : NodeId) (hj : j ∈ children) : nodes' j = nodes j :=
    hsame.below j (hbelow j hj).2 (htrees.live j (hbelow j hj).1)
  have hnode : ∃ n', nodes' tree = some n' ∧ n'.element = n.element ∧
      n'.production = n.production ∧ n'.child = n.child := by
    by_cases htree : tree ∈ roots
    · exact hsame.roots tree htree n hn
    · exact ⟨n, (hsame.below tree htree (by simp [hn])).trans hn, rfl, rfl, rfl⟩
  obtain ⟨n', hn', helement', hproduction', hchild'⟩ := hnode
  refine ⟨n', production, info, children, from_, to_, hn', hproduction'.trans hproduction, hinfo,
    helement'.trans helement, ?_, hlength, hclimbs.congr fun j hj => by rw [hkept j hj]⟩
  rw [hchild']
  exact hchildren.congr hkept

/-! ## Paths of a run -/

/-- The tree that a reduction made. -/
def Record.tree? : Record → Option NodeId
  | .reduced tree _ _ _ => some tree
  | _ => none

/-- The stack is a path to the state. -/
def View.Rises (m : Machine) (v : View) : Prop :=
  ∃ ids, Linked v.nodes v.stack ids none ∧ Climbs m v.nodes m.start ids.reverse v.state

/-- The stack of a view is a path, and so are the children of the trees made, whether the log still
tells of that or not. -/
structure Ascended (m : Machine) (made : List NodeId) (records : List Record) (v : View) :
    Prop where
  rises : v.Rises m
  grown : ∀ tree ∈ made ++ records.filterMap Record.tree?, Grown m v.nodes tree

namespace View.Rises

/-- The nodes of the stack are the same. -/
lemma congr (h : v.Rises m) (hstack : v'.stack = v.stack) (hstate : v'.state = v.state)
    (hsame : ∀ ids, Linked v.nodes v.stack ids none → ∀ id ∈ ids, v'.nodes id = v.nodes id) :
    v'.Rises m := by
  obtain ⟨ids, hlinked, hclimbs⟩ := h
  refine ⟨ids, ?_, ?_⟩
  · rw [hstack]
    exact hlinked.congr (hsame ids hlinked)
  · rw [hstate]
    exact hclimbs.congr fun id hid => by rw [hsame ids hlinked id (List.mem_reverse.1 hid)]

lemma keep (h : v.Rises m) (hstack : v'.stack = v.stack) (hstate : v'.state = v.state)
    (hnodes : v'.nodes = v.nodes) : v'.Rises m :=
  h.congr hstack hstate fun _ _ id _ => congrFun hnodes id

/-- A node that is not on the stack is changed. -/
lemma update {x : Option Node} (h : v.Rises m) (hstack : v'.stack = v.stack)
    (hstate : v'.state = v.state) (hnodes : v'.nodes = Function.update v.nodes id x)
    (hid : ∀ ids, Linked v.nodes v.stack ids none → id ∉ ids) : v'.Rises m := by
  refine h.congr hstack hstate fun ids hlinked j hj => ?_
  rw [hnodes, Function.update_of_ne (ne_of_mem_of_not_mem hj (hid ids hlinked))]

lemma fill (h : v.Rises m) (hid : v.nodes id = none) (hstack : v'.stack = v.stack)
    (hstate : v'.state = v.state) (hnodes : v'.nodes = Function.update v.nodes id (some n)) :
    v'.Rises m :=
  h.update hstack hstate hnodes fun _ hlinked => hlinked.not_mem_of_vacant hid

end View.Rises

/-- A node that waits is not on the stack. -/
lemma Orderly.not_stacked {ids : List NodeId} (h : Orderly v) (hid : id ∈ v.waiting)
    (hlinked : Linked v.nodes v.stack ids none) : id ∉ ids := by
  obtain ⟨ids', hlinked', hnodup⟩ := h.stack
  obtain rfl := hlinked.unique hlinked'
  exact fun hmem => List.disjoint_of_nodup_append hnodup hmem hid

lemma mem_waiting_of_queue {rest : List NodeId} (h : v.queue = id :: rest) : id ∈ v.waiting := by
  rw [View.waiting, h]
  exact List.mem_cons_self

lemma mem_waiting_of_items {loose : List NodeId} (h : v.items = loose.map (.tree · false))
    (hid : id ∈ loose) : id ∈ v.waiting := by
  rw [View.waiting, h, trees_map_tree]
  exact List.mem_append_right _ hid

/-- A shift goes one state further. -/
lemma rises_shifted {alternative : Nat} {more : Bool} {target : StateId} {rest : List NodeId}
    {n' : Node} (h : v.Rises m) (ho : Orderly v) (hqueue : v.queue = id :: rest)
    (hshifts : Shifts m v.state n.element alternative more target)
    (helement : n'.element = n.element) (hstate : n'.state = target) (hnext : n'.next = v.stack)
    (hstack' : v'.stack = some id) (hstate' : v'.state = target)
    (hnodes' : v'.nodes = Function.update v.nodes id (some n')) : v'.Rises m := by
  obtain ⟨ids, hlinked, hclimbs⟩ := h
  have hnot : id ∉ ids := ho.not_stacked (mem_waiting_of_queue hqueue) hlinked
  have hsame (j : NodeId) (hj : j ∈ ids) : v'.nodes j = v.nodes j := by
    rw [hnodes', Function.update_of_ne (ne_of_mem_of_not_mem hj hnot)]
  have hid : v'.nodes id = some n' := by rw [hnodes', Function.update_self]
  refine ⟨id :: ids, ?_, ?_⟩
  · rw [hstack']
    exact .cons hid (hnext ▸ hlinked.congr hsame)
  · rw [List.reverse_cons, hstate', ← hstate]
    refine (hclimbs.congr fun j hj => ?_).append (.up hid ?_ (.stay _))
    · rw [hsame j (List.mem_reverse.1 hj)]
    · rw [helement, hstate]
      exact hshifts.edge

section Reduced

variable {production : ProductionId} {info : Grammar.Production} {children : List NodeId}
  {below : Option NodeId} {state : StateId}

/-- What was taken from the stack goes on where the rest of it ends. -/
lemma Reduces.parts (h : Reduces m v production info tree children below nodes state)
    (hrises : v.Rises m) (ho : Orderly v) :
    ∃ rest, Linked nodes below rest none ∧ Climbs m nodes m.start rest.reverse state ∧
      Climbs m nodes state children v.state := by
  obtain ⟨ids, hlinked, hclimbs⟩ := hrises
  obtain ⟨rest, rfl, hrest⟩ := h.taken.behind hlinked
  obtain ⟨span, -, hrelinked⟩ := h.made
  obtain ⟨_, hlinked', hnodup⟩ := ho.stack
  obtain rfl := hlinked.unique hlinked'
  have htree : tree ∉ children.reverse ++ rest := hlinked.not_mem_of_vacant h.vacant
  have hunlinked (j : NodeId) (hj : j ∈ children.reverse ++ rest) :
      (nodes j).map Node.unlinked = (v.nodes j).map Node.unlinked := by
    rw [hrelinked.unlinked, Function.update_of_ne (ne_of_mem_of_not_mem hj htree)]
  have hsame (j : NodeId) (hj : j ∈ rest) : nodes j = v.nodes j := by
    have hchildren : j ∉ children := fun hmem =>
      List.disjoint_of_nodup_append (List.nodup_append.1 hnodup).1 (List.mem_reverse.2 hmem) hj
    rw [hrelinked.elsewhere j hchildren, Function.update_of_ne
      (ne_of_mem_of_not_mem (List.mem_append_right _ hj) htree)]
  rw [List.reverse_append, List.reverse_reverse] at hclimbs
  obtain ⟨middle, hlower, hupper⟩ := hclimbs.split
  -- The state below is told by the node there, and so it is the one that the path has come to.
  have hmiddle : middle = state := by
    have hbelow := hlower.arrives
    have hhead : below = rest.head? := by simpa using hrest.head_eq
    rw [← hhead] at hbelow
    have hstate := h.state
    exact Below.unique hbelow hstate
  subst hmiddle
  refine ⟨rest, hrest.congr hsame, hlower.congr fun j hj => ?_, hupper.congr fun j hj => ?_⟩
  · rw [hsame j (List.mem_reverse.1 hj)]
  · exact hunlinked j (List.mem_append_left _ (List.mem_reverse.2 hj))

/-- A reduction makes a tree. -/
lemma Reduces.grown (h : Reduces m v production info tree children below nodes state)
    (hrises : v.Rises m) (ho : Orderly v) : Grown m nodes tree := by
  obtain ⟨_, -, -, hclimbs⟩ := h.parts hrises ho
  obtain ⟨span, -, hrelinked⟩ := h.made
  have hunlinked := hrelinked.unlinked tree
  rw [Function.update_self] at hunlinked
  obtain ⟨n, hn, hunlinked⟩ := Option.map_eq_some_iff.1 hunlinked
  have hchild : n.child = children.head? := (congrArg Node.child hunlinked :)
  exact ⟨n, production, info, children, _, _, hn, (congrArg Node.production hunlinked :), h.known,
    (congrArg Node.element hunlinked :), hchild ▸ h.siblings, h.length, hclimbs⟩

end Reduced

/-! ## Changes -/

/-- Whatever is altered, what is below the roots stays as it was. -/
lemma Alters.untouched (h : Alters m older record v lane v' lane') (ho : Owned older v) :
    ∃ roots, Rooted v.nodes roots ∧ Untouched v.nodes v'.nodes roots := by
  obtain ⟨stack, aside, dropped, hstack, -, -, hrooted⟩ := ho
  have hwaiting {id : NodeId} (hid : id ∈ v.waiting) :
      id ∈ stack ++ (v.waiting ++ (aside ++ dropped)) :=
    List.mem_append_right _ (List.mem_append_left _ hid)
  refine ⟨_, hrooted, ?_⟩
  cases h with
  | inward hinward hchange =>
    cases hchange with
    | sent hid => exact .fill hid _ _
    | shifted hqueue hn _ _ => exact .touch (hwaiting (mem_waiting_of_queue hqueue)) hn rfl rfl rfl
    | reduced hreduces =>
      obtain ⟨span, -, hrelinked⟩ := hreduces.made
      obtain ⟨rest, rfl, -⟩ := hreduces.taken.behind hstack
      refine (Untouched.fill hreduces.vacant _ _).trans (.relink hrelinked fun j hj => ?_)
      exact List.mem_append_left _ (List.mem_append_left _ (List.mem_reverse.2 hj))
    | bound => exact .refl _ _
    | dropped => exact .refl _ _
    | committed => exact .refl _ _
    | endActionMarked _ => exact .refl _ _
    | action => exact .refl _ _
    | stepEnded => exact .refl _ _
    | _ => cases hinward
  | scanned hid _ _ _ _ => exact .fill hid _ _
  | setAside hid _ _ _ _ => exact .fill hid _ _
  | treeQueued _ _ _ => exact .refl _ _
  | treeSetAside hitems hmem hn _ _ =>
    exact .touch (hwaiting (mem_waiting_of_items hitems hmem)) hn rfl rfl rfl
  | consumed _ => exact .refl _ _
  | textPushed => exact .refl _ _
  | treePushed hid _ _ => exact .fill hid _ _

/-- Whatever is altered, the stack stays a path. -/
lemma View.Rises.alters (h : v.Rises m) (ho : Orderly v)
    (halters : Alters m older record v lane v' lane') : v'.Rises m := by
  cases halters with
  | inward hinward hchange =>
    cases hchange with
    | sent hid => exact h.fill hid rfl rfl rfl
    | shifted hqueue _ _ hshifts =>
      exact rises_shifted h ho hqueue hshifts (by rfl) (by rfl) (by rfl) rfl rfl rfl
    | reduced hreduces =>
      obtain ⟨rest, hlinked, hclimbs, -⟩ := hreduces.parts h ho
      exact ⟨rest, hlinked, hclimbs⟩
    | bound => exact h.keep rfl rfl rfl
    | dropped => exact h.keep rfl rfl rfl
    | committed => exact h.keep rfl rfl rfl
    | endActionMarked _ => exact h.keep rfl rfl rfl
    | action => exact h
    | stepEnded => exact h.keep rfl rfl rfl
    | _ => cases hinward
  | scanned hid _ _ _ _ => exact h.fill hid rfl rfl rfl
  | setAside hid _ _ _ _ => exact h.fill hid rfl rfl rfl
  | treeQueued _ _ _ => exact h.keep rfl rfl rfl
  | treeSetAside hitems hmem _ _ _ =>
    exact h.update rfl rfl rfl fun _ => ho.not_stacked (mem_waiting_of_items hitems hmem)
  | consumed _ => exact h
  | textPushed => exact h
  | treePushed hid _ _ => exact h.fill hid rfl rfl rfl

/-- A tree of which the record tells is made. -/
lemma Alters.grown (h : Alters m older record v lane v' lane') (hrises : v.Rises m)
    (ho : Orderly v) (htree : record.tree? = some tree) : Grown m v'.nodes tree := by
  cases h with
  | inward _ hchange =>
    cases hchange with
    | reduced hreduces =>
      obtain rfl := Option.some.inj htree
      exact hreduces.grown hrises ho
    | _ => cases htree
  | _ => cases htree

/-- Whatever is altered, stack and trees stay paths. -/
lemma Ascended.alters (h : Ascended m made older v) (ho : Owned older v)
    (halters : Alters m older record v lane v' lane') : Ascended m made (record :: older) v' := by
  refine ⟨h.rises.alters ho.orderly halters, fun tree htree => ?_⟩
  obtain ⟨roots, hrooted, hsame⟩ := halters.untouched ho
  have hold (htree : tree ∈ made ++ older.filterMap Record.tree?) : Grown m v'.nodes tree :=
    (h.grown tree htree).untouched hrooted hsame
  cases hrecord : record.tree? with
  | none =>
    rw [List.filterMap_cons_none hrecord] at htree
    exact hold htree
  | some new =>
    rw [List.filterMap_cons_some hrecord] at htree
    rcases List.mem_append.1 htree with hmade | hlogged
    · exact hold (List.mem_append_left _ hmade)
    · rcases List.mem_cons.1 hlogged with rfl | hlogged
      · exact halters.grown h.rises ho.orderly hrecord
      · exact hold (List.mem_append_right _ hlogged)

lemma Lineage.ascended (h : Lineage m base records v lane) (hbase : Owned [] base)
    (hascended : Ascended m made [] base) : Ascended m made records v := by
  induction h with
  | base => exact hascended
  | alters hlineage halters ih => exact ih.alters (hlineage.owned hbase) halters

end Run

end Rewind
