import Rewind.Proofs.Chain
import Rewind.Proofs.Scan
import Rewind.Run.Caller

/-!
# Views of a run

A `View` is what taking back restores.  It leaves out how a run stores things: how much of its
stream is at hand, which slots are released, and what a scanner remembers.  A node that waits in
the queue or in the stream is shown without a link and a state, because it has no use for either
until it is put on the stack or set aside, and both are overwritten then.

`Change` says, record by record, what a change does to a view and when it can happen.  A `Path` is a
sequence of such changes from a base, and a log is always the records of a path to the present view.
-/

namespace Rewind

/-- A node that is in no chain and has entered no state. -/
def Node.loose (n : Node) : Node :=
  { n with next := none, state := 0 }

@[simp] lemma Node.loose_loose (n : Node) : n.loose.loose = n.loose := rfl

/-- The trees among items. -/
def trees : List Item → List NodeId
  | [] => []
  | .byte _ :: items => trees items
  | .tree id _ :: items => id :: trees items

@[simp] lemma trees_bytes_append (text : Bytes) (items : List Item) :
    trees (text.map .byte ++ items) = trees items := by
  induction text with
  | nil => rfl
  | cons b text ih => simpa [trees] using ih

namespace Run

/-- What taking back restores. -/
@[ext] structure View where
  state : StateId
  steps : Nat
  stack : Option NodeId
  queue : List NodeId
  aside : Option NodeId
  nodes : Nodes
  bindings : Bindings
  barrier : Nat
  retries : Nat
  endActionRan : Bool
  /-- The content of the stream. -/
  items : List Item
  position : Position

/-- The nodes that are in no chain: they wait in the queue or in the stream. -/
def View.waiting (v : View) : List NodeId :=
  v.queue ++ trees v.items

/-- The content of the stream. -/
def content (r : Run) : List Item :=
  (r.scanner.stream.map Stream.content).getD []

/-- The number of bytes that are not yet at hand. -/
def unread (r : Run) : Nat :=
  (r.scanner.stream.map fun s => s.unread.length).getD 0

/-- Whether the source has said that it ended. -/
def sourceEnded (r : Run) : Bool :=
  (r.scanner.stream.map Stream.sourceEnded).getD true

/-- The nodes that wait in the queue or in the stream. -/
def waiting (r : Run) : List NodeId :=
  r.queue ++ trees r.content

/-- The nodes, those that wait without link and state. -/
def shown (r : Run) : Nodes := fun id =>
  if id ∈ r.waiting then (Pool.get? r.forest id).map Node.loose else Pool.get? r.forest id

/-- What taking back restores of a run. -/
def view (r : Run) : View where
  state := r.state
  steps := r.steps
  stack := r.stack
  queue := r.queue
  aside := r.aside
  nodes := r.shown
  bindings := r.bindings
  barrier := r.barrier
  retries := r.retries
  endActionRan := r.endActionRan
  items := r.content
  position := r.position

/-! ## Nodes shown -/

section Shown

variable {r s : Run} {id : NodeId} {n : Node}

lemma shown_of_waiting (h : id ∈ r.waiting) :
    r.shown id = (Pool.get? r.forest id).map Node.loose :=
  if_pos h

lemma shown_of_not_waiting (h : id ∉ r.waiting) : r.shown id = Pool.get? r.forest id :=
  if_neg h

lemma isSome_shown (r : Run) (id : NodeId) :
    (r.shown id).isSome = (Pool.get? r.forest id).isSome := by
  unfold shown
  split
  · simp
  · rfl

lemma shown_eq_none_iff : r.shown id = none ↔ Pool.get? r.forest id = none := by
  rw [← Option.not_isSome_iff_eq_none, ← Option.not_isSome_iff_eq_none, isSome_shown]

/-- Runs that differ at one node and in whether it waits. -/
lemma shown_eq_update {x : Option Node}
    (hnodes : ∀ j, j ≠ id → Pool.get? s.forest j = Pool.get? r.forest j)
    (hwaiting : ∀ j, j ≠ id → (j ∈ s.waiting ↔ j ∈ r.waiting)) (hid : s.shown id = x) :
    s.shown = Function.update r.shown id x := by
  funext j
  by_cases hj : j = id
  · subst hj
    rw [Function.update_self, hid]
  · rw [Function.update_of_ne hj, shown, shown, hnodes j hj]
    simp only [hwaiting j hj]

/-- What is shown of a node is the node, but perhaps for its link and its state. -/
lemma exists_of_shown (h : r.shown id = some n) :
    ∃ n', Pool.get? r.forest id = some n' ∧ n'.loose = n.loose := by
  unfold shown at h
  split at h
  · obtain ⟨n', hn', rfl⟩ := Option.map_eq_some_iff.1 h
    exact ⟨n', hn', rfl⟩
  · exact ⟨n, h, rfl⟩

/-- Runs that differ at one node, where the second one shows what it did before. -/
lemma shown_eq_of_update {nodes : Nodes} {x : Option Node}
    (hr : r.shown = Function.update nodes id x)
    (hnodes : ∀ j, j ≠ id → Pool.get? s.forest j = Pool.get? r.forest j)
    (hwaiting : ∀ j, j ≠ id → (j ∈ s.waiting ↔ j ∈ r.waiting)) (hid : s.shown id = nodes id) :
    s.shown = nodes := by
  rw [shown_eq_update hnodes hwaiting hid, hr, Function.update_idem, Function.update_eq_self]

lemma shown_congr (hnodes : Pool.get? s.forest = Pool.get? r.forest)
    (hwaiting : ∀ j, j ∈ s.waiting ↔ j ∈ r.waiting) : s.shown = r.shown := by
  funext j
  rw [shown, shown, hnodes]
  simp only [hwaiting j]

end Shown

/-! ## Changes -/

/-- The ignored tokens that a node takes when it is put on the stack. -/
def carried (m : Machine) (n : Node) (aside : Option NodeId) : Option NodeId :=
  if n.ignored.isNone ∧ m.grammar.isTerminal n.element then aside else none

/-- Either nothing is taken, or the node had nothing and takes all there is. -/
lemma carried_cases (m : Machine) (n : Node) (aside : Option NodeId) :
    carried m n aside = none ∨
      ∃ id, carried m n aside = some id ∧ aside = some id ∧ n.ignored = none := by
  unfold carried
  split
  · rename_i h
    cases aside with
    | none => exact .inl rfl
    | some id => exact .inr ⟨id, rfl, rfl, by simpa using h.1⟩
  · exact .inl rfl

/-- The state below a tree. -/
def Below (m : Machine) (nodes : Nodes) : Option NodeId → StateId → Prop
  | none, state => state = m.start
  | some id, state => ∃ n, nodes id = some n ∧ state = n.state

/-- The alternative of a decision leads to a target by a shift. -/
def Shifts (m : Machine) (state : StateId) (element : ElementId) (alternative : Nat) (more : Bool)
    (target : StateId) : Prop :=
  ∃ decision, m.grammar.decide state element alternative = .ok (some decision) ∧
    decision.more = more ∧ m.grammar.targets[decision.transition]? = some target ∧
    (decision.action = .shift ∨ ∃ production, decision.action = .shiftReduce production)

/-- A token that stands for text, or for the end of the input. -/
def Scans (m : Machine) (items : List Item) (element : ElementId) (text : Bytes) : Prop :=
  m.scanner.Names element ∧ text ≠ [] ∨ element = m.grammar.eof ∧ text = [] ∧ items = []

/-- A span that covers nodes, from left to right. -/
def Covers (nodes : Nodes) (ids : List NodeId) (span : Span) : Prop :=
  span = ((ids.filterMap nodes).map Node.span).foldl Span.merge Span.unknown

/-- A tree can be made of the top of the stack, which leaves the nodes as `nodes` tells and enters a
state again. -/
structure Reduces (m : Machine) (v : View) (production : ProductionId) (info : Grammar.Production)
    (tree : NodeId) (children : List NodeId) (below : Option NodeId) (nodes : Nodes)
    (state : StateId) : Prop where
  known : m.grammar.productions[production]? = some info
  length : children.length = info.length
  taken : Linked v.nodes v.stack children.reverse below
  vacant : v.nodes tree = none
  made : ∃ span, Covers v.nodes children span ∧
    Relinked (Function.update v.nodes tree
      (some (.reduced info.lhs production children.head? span))) nodes children
  siblings : Linked nodes children.head? children none
  state : Below m v.nodes below state

section Change

variable (m : Machine) (strict : Prop) (unread length : Nat)

/-- One change of a view, as its record tells of it.  `unread` items are not at hand, `length`
records have been written before, and if `strict` then trees in the stream have entered no state. -/
inductive Change : Record → View → View → Prop
  | scanned {v : View} {id : NodeId} {element : ElementId} {text : Bytes} {rest : List Item} :
    v.queue = [] → v.nodes id = none → v.items = text.map .byte ++ rest →
    Scans m v.items element text →
    Change (.scanned id v.position) v { v with
      nodes := Function.update v.nodes id (some (.token element text ⟨v.position, text.length⟩))
      queue := [id]
      items := rest
      position := v.position.advance text }
  | setAside {v : View} {id : NodeId} {element : ElementId} {text : Bytes} {rest : List Item} :
    v.queue = [] → v.nodes id = none → v.items = text.map .byte ++ rest →
    m.scanner.Names element ∧ text ≠ [] →
    Change (.setAside id v.position) v { v with
      nodes := Function.update v.nodes id
        (some { Node.token element text ⟨v.position, text.length⟩ with next := v.aside })
      aside := some id
      items := rest
      position := v.position.advance text }
  | treeQueued {v : View} {id : NodeId} {rest : List Item} :
    v.queue = [] → v.items = .tree id false :: rest →
    Change (.treeTaken id false) v { v with
      queue := [id]
      items := rest }
  | treeSetAside {v : View} {id : NodeId} {n : Node} {state : StateId} {rest : List Item} :
    v.queue = [] → v.items = .tree id true :: rest → v.nodes id = some n → n.loose = n →
    (strict → state = 0) →
    Change (.treeTaken id true) v { v with
      nodes := Function.update v.nodes id (some { n with next := v.aside, state })
      aside := some id
      items := rest }
  | consumed {v : View} {element : ElementId} {text : Bytes} {rest : List Item} :
    v.queue = [] → v.items = text.map .byte ++ rest →
    m.scanner.Names element ∧ text ≠ [] ∧ m.grammar.generates element = true →
    Change (.consumed text v.position) v { v with
      items := rest
      position := v.position.advance text }
  | sent {v : View} {id : NodeId} {element : ElementId} {text : Bytes} :
    v.nodes id = none →
    Change (.sent id) v { v with
      nodes := Function.update v.nodes id (some (.fabricated element text))
      queue := v.queue ++ [id] }
  | textPushed {v : View} {text : Bytes} :
    unread ≤ v.items.length →
    Change (.textPushed text.length) v { v with items := text.map .byte ++ v.items }
  | treePushed {v : View} {id : NodeId} {tree : Node} {ignore : Bool} :
    v.nodes id = none → unread ≤ v.items.length →
    Change (.treePushed id) v { v with
      nodes := Function.update v.nodes id (some tree.loose)
      items := .tree id ignore :: v.items }
  | shifted {v : View} {id : NodeId} {n : Node} {rest : List NodeId} {target : StateId}
      {alternative : Nat} {more : Bool} :
    v.queue = id :: rest → v.nodes id = some n → n.loose = n →
    Shifts m v.state n.element alternative more target →
    Change (.shifted id v.state (carried m n v.aside) alternative more) v { v with
      nodes := Function.update v.nodes id (some { n with
        state := target
        next := v.stack
        ignored := (carried m n v.aside).or n.ignored })
      stack := some id
      queue := rest
      aside := if (carried m n v.aside).isSome then none else v.aside
      state := target
      retries := if more then v.retries + 1 else v.retries }
  | reduced {v : View} {production : ProductionId} {info : Grammar.Production} {tree : NodeId}
      {children : List NodeId} {below : Option NodeId} {nodes : Nodes} {state : StateId}
      {alternative : Nat} {more : Bool} :
    Reduces m v production info tree children below nodes state →
    Change (.reduced tree v.state alternative more) v { v with
      nodes := nodes
      stack := below
      queue := tree :: v.queue
      state := state
      retries := if more then v.retries + 1 else v.retries }
  | bound {v : View} {name : VariableId} {id : NodeId} :
    Change (.bound name (v.bindings.get? name)) v { v with
      bindings := v.bindings.insert name id }
  | dropped {v : View} : Change (.dropped v.aside) v { v with aside := none }
  | committed {v : View} :
    Change (.committed v.barrier v.retries) v { v with barrier := length + 1, retries := 0 }
  | endActionMarked {v : View} {now : Bool} :
    v.endActionRan = !now →
    Change (.endActionMarked v.endActionRan) v { v with endActionRan := now }
  | action {v : View} {data : Bytes} : Change (.action data) v v
  | stepEnded {v : View} : Change .stepEnded v { v with steps := v.steps + 1 }

end Change

/-! ## Paths -/

/-- The changes that lead from one log and view to another, the newest record first.  Whenever a
step was completed, the log and the view were noted. -/
inductive Path (m : Machine) (strict : Prop) (Noted : List Record → View → Prop)
    (before : List Record) (base : View) (unread : Nat) : List Record → View → Prop
  | start : Path m strict Noted before base unread before base
  | change {older : List Record} {record : Record} {v v' : View} :
    Path m strict Noted before base unread older v →
    Change m strict unread older.length record v v' →
    (record = .stepEnded → Noted (record :: older) v') →
    Path m strict Noted before base unread (record :: older) v'

/-- The stack is a chain that ends, and its nodes and those that wait are distinct and live. -/
structure Orderly (v : View) : Prop where
  stack : ∃ ids, Linked v.nodes v.stack ids none ∧ (ids ++ v.waiting).Nodup
  live : ∀ id ∈ v.waiting, (v.nodes id).isSome

section Orderly

variable {m : Machine} {strict : Prop} {unread length : Nat} {record : Record} {v v' : View}

lemma Orderly.not_waiting {id : NodeId} (h : Orderly v) (hid : v.nodes id = none) :
    id ∉ v.waiting := by
  intro hmem
  have hlive := h.live id hmem
  simp [hid] at hlive

/-- The same nodes wait. -/
lemma Orderly.keep (h : Orderly v) (hstack : v'.stack = v.stack) (hnodes : v'.nodes = v.nodes)
    (hwaiting : v'.waiting = v.waiting) : Orderly v' := by
  obtain ⟨hs, hl⟩ := h
  exact ⟨by rwa [hstack, hnodes, hwaiting], by rwa [hnodes, hwaiting]⟩

/-- A new node waits. -/
lemma Orderly.add {id : NodeId} {n : Node} (h : Orderly v) (hid : v.nodes id = none)
    (hstack : v'.stack = v.stack) (hnodes : v'.nodes = Function.update v.nodes id (some n))
    (hwaiting : v'.waiting.Perm (id :: v.waiting)) : Orderly v' := by
  obtain ⟨ids, hlinked, hnodup⟩ := h.stack
  have hstack_id := hlinked.not_mem_of_vacant hid
  refine ⟨⟨ids, ?_, ?_⟩, fun j hj => ?_⟩
  · rw [hstack, hnodes]
    exact hlinked.update_of_not_mem hstack_id
  · rw [(hwaiting.append_left ids).nodup_iff, List.perm_middle.nodup_iff, List.nodup_cons]
    exact ⟨by simp [hstack_id, h.not_waiting hid], hnodup⟩
  · rw [hnodes]
    rcases List.mem_cons.1 (hwaiting.mem_iff.1 hj) with rfl | hj
    · simp
    · by_cases hji : j = id
      · simp [hji]
      · rw [Function.update_of_ne hji]
        exact h.live j hj

/-- A node is added that does not wait. -/
lemma Orderly.store {id : NodeId} {n : Node} (h : Orderly v) (hid : v.nodes id = none)
    (hstack : v'.stack = v.stack) (hnodes : v'.nodes = Function.update v.nodes id (some n))
    (hwaiting : v'.waiting = v.waiting) : Orderly v' := by
  obtain ⟨ids, hlinked, hnodup⟩ := h.stack
  refine ⟨⟨ids, ?_, ?_⟩, fun j hj => ?_⟩
  · rw [hstack, hnodes]
    exact hlinked.update_of_not_mem (hlinked.not_mem_of_vacant hid)
  · rwa [hwaiting]
  · rw [hwaiting] at hj
    rw [hnodes, Function.update_of_ne]
    · exact h.live j hj
    · rintro rfl
      exact h.not_waiting hid hj

/-- A node that waited is not on the stack, and does not wait any more. -/
lemma Orderly.leave {id : NodeId} {n : Node} {rest : List NodeId} (h : Orderly v)
    (hwaiting : v.waiting = id :: rest) :
    (∃ ids, Linked (Function.update v.nodes id (some n)) v.stack ids none ∧
      (id :: (ids ++ rest)).Nodup) ∧
      ∀ j ∈ rest, (Function.update v.nodes id (some n) j).isSome := by
  obtain ⟨ids, hlinked, hnodup⟩ := h.stack
  rw [hwaiting, List.perm_middle.nodup_iff] at hnodup
  have hid := (List.nodup_cons.1 hnodup).1
  simp only [List.mem_append, not_or] at hid
  refine ⟨⟨ids, hlinked.update_of_not_mem hid.1, hnodup⟩, fun j hj => ?_⟩
  rw [Function.update_of_ne]
  · exact h.live j (by simp [hwaiting, hj])
  · rintro rfl
    exact hid.2 hj

/-- Whatever changes, stack and waiting nodes stay apart. -/
lemma Orderly.change (h : Orderly v) (hc : Change m strict unread length record v v') :
    Orderly v' := by
  cases hc with
  | scanned hqueue hid hitems _ =>
    refine h.add hid rfl rfl ?_
    simp [View.waiting, hqueue, hitems]
  | setAside hqueue hid hitems _ =>
    refine h.store hid rfl rfl ?_
    simp [View.waiting, hitems]
  | treeQueued hqueue hitems =>
    refine h.keep rfl rfl ?_
    simp [View.waiting, hqueue, hitems, trees]
  | treeSetAside hqueue hitems hn _ _ =>
    obtain ⟨⟨ids, hlinked, hnodup⟩, hlive⟩ := h.leave (by
      simp only [View.waiting, hqueue, hitems, trees, List.nil_append]
      rfl)
    refine ⟨⟨ids, hlinked, ?_⟩, ?_⟩
    · simpa [View.waiting, hqueue] using (List.nodup_cons.1 hnodup).2
    · simpa [View.waiting, hqueue] using hlive
  | consumed _ hitems _ =>
    refine h.keep rfl rfl ?_
    simp [View.waiting, hitems]
  | sent hid =>
    refine h.add hid rfl rfl ?_
    simp [View.waiting, List.perm_middle]
  | textPushed _ =>
    refine h.keep rfl rfl ?_
    simp [View.waiting]
  | treePushed hid _ =>
    refine h.add hid rfl rfl ?_
    simp [View.waiting, trees, List.perm_middle]
  | shifted hqueue hn _ _ =>
    obtain ⟨⟨ids, hlinked, hnodup⟩, hlive⟩ := h.leave (by
      simp only [View.waiting, hqueue, List.cons_append]
      rfl)
    exact ⟨⟨_ :: ids, .cons (Function.update_self ..) hlinked, hnodup⟩, hlive⟩
  | @reduced _ _ _ tree children below nodes _ _ _ hreduces =>
    have hvacant := hreduces.vacant
    obtain ⟨span, -, hrelinked⟩ := hreduces.made
    obtain ⟨ids, hstack, hnodup⟩ := h.stack
    obtain ⟨ys, rfl, hbelow⟩ := hreduces.taken.behind hstack
    have htree := hstack.not_mem_of_vacant hvacant
    have hwaiting := h.not_waiting hvacant
    have hsame : ∀ j, j ∈ ys ++ v.waiting → nodes j = v.nodes j := by
      intro j hj
      have hchild : j ∉ children := by
        rw [List.append_assoc, List.nodup_append'] at hnodup
        exact fun hmem => hnodup.2.2 (List.mem_reverse.2 hmem) hj
      have hne : j ≠ tree := by
        rintro rfl
        rcases List.mem_append.1 hj with hj | hj
        · exact htree (List.mem_append_right _ hj)
        · exact hwaiting hj
      rw [hrelinked.elsewhere j hchild, Function.update_of_ne hne]
    refine ⟨⟨ys, hbelow.congr fun j hj => hsame j (List.mem_append_left _ hj), ?_⟩, ?_⟩
    · have hrest : (ys ++ v.waiting).Nodup := by
        rw [List.append_assoc] at hnodup
        exact hnodup.of_append_right
      have hnot : tree ∉ ys ++ v.waiting := by
        simp only [List.mem_append, not_or] at htree ⊢
        exact ⟨htree.2, hwaiting⟩
      exact List.perm_middle.nodup_iff.2 (List.nodup_cons.2 ⟨hnot, hrest⟩)
    · intro j hj
      change (nodes j).isSome
      rcases List.mem_cons.1 hj with rfl | hj
      · rw [hrelinked.live_iff]
        simp
      · rw [hsame j (List.mem_append_right _ hj)]
        exact h.live j hj
  | bound => exact h.keep rfl rfl rfl
  | dropped => exact h.keep rfl rfl rfl
  | committed => exact h.keep rfl rfl rfl
  | endActionMarked _ => exact h.keep rfl rfl rfl
  | action => exact h
  | stepEnded => exact h.keep rfl rfl rfl

/-- A change stays one when more of the stream is at hand. -/
lemma Change.mono {unread' : Nat} (h : Change m strict unread length record v v')
    (hle : unread' ≤ unread) : Change m strict unread' length record v v' := by
  cases h
  case textPushed hitems => exact .textPushed (Nat.le_trans hle hitems)
  case treePushed hid hitems => exact .treePushed hid (Nat.le_trans hle hitems)
  all_goals constructor <;> assumption

/-- Steps are completed one at a time. -/
lemma Change.steps (h : Change m strict unread length record v v') :
    v'.steps = if record = .stepEnded then v.steps + 1 else v.steps := by
  cases h <;> rfl

end Orderly

namespace Path

variable {m : Machine} {strict : Prop} {unread unread' : Nat} {v w base : View}
  {records before later : List Record} {Noted Noted' : List Record → View → Prop}

/-- Along a path, the stack and the waiting nodes stay apart. -/
lemma orderly (h : Path m strict Noted before base unread records v) (hbase : Orderly base) :
    Orderly v := by
  induction h with
  | start => exact hbase
  | change _ hc _ ih => exact ih.change hc

/-- A path stays one when more of the stream is at hand. -/
lemma mono (h : Path m strict Noted before base unread records v) (hle : unread' ≤ unread) :
    Path m strict Noted before base unread' records v := by
  induction h with
  | start => exact .start
  | change _ hc hnoted ih => exact ih.change (hc.mono hle) hnoted

lemma trans (h : Path m strict Noted before base unread records v)
    (h' : Path m strict Noted records v unread later w) :
    Path m strict Noted before base unread later w := by
  induction h' with
  | start => exact h
  | change _ hc hnoted ih => exact ih.change hc hnoted

lemma single {record : Record} (hc : Change m strict unread before.length record base v)
    (hnoted : record = .stepEnded → Noted (record :: before) v) :
    Path m strict Noted before base unread (record :: before) v :=
  .change .start hc hnoted

lemma suffix (h : Path m strict Noted before base unread records v) :
    ∃ newer, records = newer ++ before := by
  induction h with
  | start => exact ⟨[], rfl⟩
  | change _ _ _ ih =>
    obtain ⟨newer, rfl⟩ := ih
    exact ⟨_ :: newer, rfl⟩

/-- A path on which nothing was written leads nowhere. -/
lemma of_same (h : Path m strict Noted before base unread before v) : v = base := by
  generalize hrecords : before = records at h
  cases h with
  | start => rfl
  | change hpath _ _ =>
    obtain ⟨newer, hnewer⟩ := hpath.suffix
    have hlength := congrArg List.length hnewer
    simp only [List.length_cons, List.length_append] at hlength
    omega

lemma of_single {record : Record}
    (h : Path m strict Noted before base unread (record :: before) v) :
    Change m strict unread before.length record base v := by
  generalize hrecords : record :: before = records at h
  cases h with
  | start =>
    have hlength := congrArg List.length hrecords
    simp only [List.length_cons] at hlength
    omega
  | change hpath hc _ =>
    obtain ⟨rfl, rfl⟩ := List.cons.inj hrecords
    rwa [hpath.of_same] at hc

lemma steps_le (h : Path m strict Noted before base unread records v) :
    base.steps ≤ v.steps := by
  induction h with
  | start => exact Nat.le_refl _
  | change _ hc _ ih =>
    rw [hc.steps]
    split <;> omega

/-- What was noted on the way was noted after one step at least, and no later than at the end. -/
lemma weaken (h : Path m strict Noted before base unread records v)
    (hnoted : ∀ records w, base.steps < w.steps → w.steps ≤ v.steps → Noted records w →
      Noted' records w) : Path m strict Noted' before base unread records v := by
  induction h with
  | start => exact .start
  | change hpath hc hnote ih =>
    have hsteps := hc.steps
    refine .change (ih fun records w hlt hle => hnoted records w hlt ?_) hc fun hrecord => ?_
    · split at hsteps <;> omega
    · have hle := hpath.steps_le
      rw [if_pos hrecord] at hsteps
      exact hnoted _ _ (by omega) (Nat.le_refl _) (hnote hrecord)

end Path

/-! ## Runs in order -/

/-- What a run keeps in order whatever its view: a stream is attached, the pool is sound, and if
`strict` then the nodes that wait really have neither link nor state. -/
structure Tidy (strict : Prop) (r : Run) : Prop where
  attached : r.scanner.stream.isSome
  pool : Pool.Sound r.forest
  loose : strict → ∀ id ∈ r.waiting, ∀ n, Pool.get? r.forest id = some n → n.loose = n

/-- The second run is the first after changes that its log tells of. -/
structure Moves (m : Machine) (strict : Prop) (Noted : List Record → View → Prop) (r s : Run) :
    Prop where
  tidy : Tidy strict s
  unread : s.unread ≤ r.unread
  path : Path m strict Noted r.log.records r.view s.unread s.log.records s.view
  aborted : s.aborted = r.aborted

end Run

end Rewind
