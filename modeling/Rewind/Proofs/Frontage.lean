import Rewind.Proofs.Ownership

/-!
# Runs without their streams

What becomes of nodes has little to do with what is left to read.  `bare` shows a run in front of
nothing but trees: those that were pushed and not taken, wherever the stream that held them may be.
`Alters` says, record by record, what a change does to such a view.  A `Lineage` is a sequence of
such changes, which lasts while streams come and go.

Trees return to the stream that is attached when they are taken back, and so a `lane` goes with the
view: what the stream would begin with had it never been replaced, at least as far as its last tree.
-/

namespace Rewind

/-- The stream that holds nothing but trees. -/
def Stream.ofTrees (ids : List NodeId) : Stream :=
  { buffered := ids.map (.tree · false) }

lemma trees_append (items items' : List Item) :
    trees (items ++ items') = trees items ++ trees items' := by
  induction items with
  | nil => rfl
  | cons item items ih =>
    cases item with
    | byte b => exact ih
    | tree id ignore => exact congrArg (id :: ·) ih

@[simp] lemma trees_map_tree (ids : List NodeId) : trees (ids.map (.tree · false)) = ids := by
  induction ids with
  | nil => rfl
  | cons id ids ih => exact congrArg (id :: ·) ih

lemma content_ofTrees (ids : List NodeId) :
    (Stream.ofTrees ids).content = ids.map (.tree · false) :=
  List.append_nil _

namespace Run

/-- The run in front of nothing but trees. -/
def inFront (r : Run) (loose : List NodeId) : Run :=
  { r with scanner := { Scanner.detached with stream := some (.ofTrees loose) } }

/-- What is ahead of the run: what its stream holds, or what was kept of it if there is none. -/
def ahead (r : Run) (kept : List Item) : List Item :=
  (r.scanner.stream.map Stream.content).getD kept

/-- The view of a run whose stream does not matter. -/
def bare (r : Run) (loose : List NodeId) : View :=
  (r.inFront loose).view

variable {m : Machine} {r s : Run} {loose : List NodeId} {older records : List Record}
  {record : Record} {v v' base : View} {lane lane' : List Item} {id : NodeId}

lemma ahead_eq {stream : Stream} {kept : List Item} (hs : r.scanner.stream = some stream) :
    r.ahead kept = stream.content := by
  simp [ahead, hs]

lemma content_inFront (r : Run) (loose : List NodeId) :
    (r.inFront loose).content = loose.map (.tree · false) :=
  content_ofTrees loose

lemma waiting_inFront (r : Run) (loose : List NodeId) :
    (r.inFront loose).waiting = r.queue ++ loose := by
  rw [waiting, content_inFront, trees_map_tree]
  rfl

lemma waiting_bare (r : Run) (loose : List NodeId) :
    (r.bare loose).waiting = r.queue ++ loose :=
  waiting_inFront r loose

lemma tidy_inFront (hpool : Pool.Sound r.forest) (loose : List NodeId) :
    Tidy False (r.inFront loose) :=
  ⟨rfl, hpool, nofun⟩

/-- Whether the change that a record tells of has nothing to do with the stream. -/
def Record.isInward : Record → Bool
  | .sent _ | .shifted .. | .reduced .. | .bound _ _ | .dropped _ | .committed _ _
  | .endActionMarked _ | .action _ | .stepEnded => true
  | _ => false

/-- The lane feeds text, unless the lane ends before its last tree. -/
def Feeds (text : Bytes) (lane lane' : List Item) : Prop :=
  lane = text.map .byte ++ lane' ∨ lane' = []

/-- A tree is taken from the lane.  One that the log tells of is in the lane. -/
def Picks (older : List Record) (id : NodeId) (ignore : Bool) (lane lane' : List Item) : Prop :=
  lane = .tree id ignore :: lane' ∨ lane' = [] ∧ .treePushed id ∉ older

/-- One change of a bare view and its lane, as its record tells of it. -/
inductive Alters (m : Machine) (older : List Record) :
    Record → View → List Item → View → List Item → Prop
  | inward {record : Record} {v v' : View} {lane : List Item} {length : Nat} :
    record.isInward = true → Change m False 0 length record v v' →
    Alters m older record v lane v' lane
  | scanned {v : View} {id : NodeId} {start : Position} {n : Node} {lane lane' : List Item} :
    v.nodes id = none → n.loose = n → n.child = none → n.ignored = none →
    Feeds n.text lane lane' →
    Alters m older (.scanned id start) v lane { v with
      nodes := Function.update v.nodes id (some n)
      queue := v.queue ++ [id] } lane'
  | setAside {v : View} {id : NodeId} {start : Position} {n : Node} {lane lane' : List Item} :
    v.nodes id = none → n.next = v.aside → n.child = none → n.ignored = none →
    Feeds n.text lane lane' →
    Alters m older (.setAside id start) v lane { v with
      nodes := Function.update v.nodes id (some n)
      aside := some id } lane'
  | treeQueued {v : View} {id : NodeId} {loose : List NodeId} {lane lane' : List Item} :
    v.items = loose.map (.tree · false) → id ∈ loose → Picks older id false lane lane' →
    Alters m older (.treeTaken id false) v lane { v with
      queue := v.queue ++ [id]
      items := (loose.erase id).map (.tree · false) } lane'
  | treeSetAside {v : View} {id : NodeId} {n : Node} {state : StateId} {loose : List NodeId}
      {lane lane' : List Item} :
    v.items = loose.map (.tree · false) → id ∈ loose → v.nodes id = some n → n.loose = n →
    Picks older id true lane lane' →
    Alters m older (.treeTaken id true) v lane { v with
      nodes := Function.update v.nodes id (some { n with next := v.aside, state })
      aside := some id
      items := (loose.erase id).map (.tree · false) } lane'
  | consumed {v : View} {text : Bytes} {start : Position} {lane lane' : List Item} :
    Feeds text lane lane' → Alters m older (.consumed text start) v lane v lane'
  | textPushed {v : View} {text : Bytes} {lane : List Item} :
    Alters m older (.textPushed text.length) v lane v (text.map .byte ++ lane)
  | treePushed {v : View} {id : NodeId} {tree : Node} {ignore : Bool} {lane : List Item} :
    v.nodes id = none → tree.child = none → tree.ignored = none →
    Alters m older (.treePushed id) v lane { v with
      nodes := Function.update v.nodes id (some tree.loose)
      items := .tree id false :: v.items } (.tree id ignore :: lane)

/-! ## Owners -/

/-- The order in which nodes wait has nothing to do with who owns them. -/
lemma Owned.reorder (h : Owned records v) (hstack : v'.stack = v.stack)
    (haside : v'.aside = v.aside) (hnodes : v'.nodes = v.nodes)
    (hwaiting : v'.waiting.Perm v.waiting) : Owned records v' := by
  obtain ⟨stack, aside, dropped, hs, ha, hd, hroots⟩ := h
  refine ⟨stack, aside, dropped, ?_, ?_, ?_, ?_⟩
  · rwa [hnodes, hstack]
  · rwa [hnodes, haside]
  · rwa [hnodes]
  · rw [hnodes]
    exact hroots.perm ((hwaiting.symm.append_right _).append_left _)

/-- Only a chain that is dropped is kept by the log. -/
lemma Owned.log (h : Owned records v) (hdropped : record.dropped? = none) :
    Owned (record :: records) v :=
  h.keep rfl rfl rfl rfl (List.filterMap_cons_none hdropped)

lemma waiting_of_erase {loose : List NodeId} (hitems : v.items = loose.map (.tree · false))
    (hid : id ∈ loose) :
    v.waiting.Perm (id :: (v.queue ++ loose.erase id)) := by
  rw [View.waiting, hitems, trees_map_tree]
  exact ((List.perm_cons_erase hid).append_left _).trans List.perm_middle

/-- Whatever is altered, every node keeps one owner. -/
lemma Owned.alters (h : Owned older v) (halters : Alters m older record v lane v' lane') :
    Owned (record :: older) v' := by
  cases halters with
  | inward hinward hchange =>
    refine h.change hchange ?_
    rintro id rfl
    cases hinward
  | scanned hid _ hchild hignored _ =>
    refine (h.log rfl).add hid hchild hignored rfl rfl rfl ?_
    rw [View.waiting, View.waiting, List.append_assoc]
    exact List.perm_middle
  | setAside hid hnext hchild hignored _ =>
    exact (h.log rfl).setAside hid hchild hignored hnext rfl rfl rfl rfl
  | treeQueued hitems hmem _ =>
    refine (h.log rfl).reorder rfl rfl rfl (.trans ?_ (waiting_of_erase hitems hmem).symm)
    rw [View.waiting, trees_map_tree, List.append_assoc]
    exact List.perm_middle
  | @treeSetAside _ id n state loose _ _ hitems hmem hn _ _ =>
    -- The tree is brought to the front, from where it is set aside.
    have hfront : Owned older { v with
        queue := []
        items := .tree id true :: (v.queue ++ loose.erase id).map (.tree · false) } := by
      refine h.reorder rfl rfl rfl ?_
      change ([] ++ id :: trees _).Perm _
      rw [trees_map_tree]
      exact (waiting_of_erase hitems hmem).symm
    refine ((owned_treeSetAside hfront rfl rfl hn).log rfl).reorder rfl rfl rfl ?_
    rw [View.waiting, View.waiting, trees_map_tree, trees_map_tree]
    rfl
  | consumed _ => exact h.log rfl
  | textPushed => exact h.log rfl
  | @treePushed _ id tree ignore _ hid hchild hignored =>
    exact (h.log rfl).add (n := tree.loose) hid hchild hignored rfl rfl rfl List.perm_middle

/-! ## Lanes -/

/-- The trees of a lane wait. -/
structure Laned (lane : List Item) (v : View) : Prop where
  nodup : (trees lane).Nodup
  waits : ∀ id ∈ trees lane, id ∈ trees v.items

lemma Laned.feeds {text : Bytes} (h : Laned lane v) (hfeeds : Feeds text lane lane') :
    Laned lane' v := by
  rcases hfeeds with rfl | rfl
  · exact ⟨by simpa using h.nodup, fun id hid => h.waits id (by simpa using hid)⟩
  · exact ⟨.nil, nofun⟩

lemma Laned.picks {ignore : Bool} (h : Laned lane v)
    (hitems : v.items = loose.map (.tree · false)) (hpicks : Picks older id ignore lane lane') :
    (trees lane').Nodup ∧ ∀ j ∈ trees lane', j ∈ loose.erase id := by
  rcases hpicks with rfl | ⟨rfl, -⟩
  · obtain ⟨hid, hnodup⟩ := List.nodup_cons.1 h.nodup
    refine ⟨hnodup, fun j hj => ?_⟩
    have hwaits := h.waits j (List.mem_cons_of_mem _ hj)
    rw [hitems, trees_map_tree] at hwaits
    refine (List.mem_erase_of_ne ?_).2 hwaits
    rintro rfl
    exact hid hj
  · exact ⟨.nil, nofun⟩

lemma Laned.alters (h : Laned lane v) (ho : Orderly v)
    (halters : Alters m older record v lane v' lane') : Laned lane' v' := by
  cases halters with
  | inward hinward hchange =>
    refine ⟨h.nodup, ?_⟩
    have hitems : v'.items = v.items := by cases hchange <;> first | rfl | cases hinward
    rw [hitems]
    exact h.waits
  | scanned _ _ _ _ hfeeds => exact ⟨(h.feeds hfeeds).nodup, (h.feeds hfeeds).waits⟩
  | setAside _ _ _ _ hfeeds => exact ⟨(h.feeds hfeeds).nodup, (h.feeds hfeeds).waits⟩
  | treeQueued hitems _ hpicks =>
    obtain ⟨hnodup, hwaits⟩ := h.picks hitems hpicks
    exact ⟨hnodup, fun j hj => (trees_map_tree _).symm ▸ hwaits j hj⟩
  | treeSetAside hitems _ _ _ hpicks =>
    obtain ⟨hnodup, hwaits⟩ := h.picks hitems hpicks
    exact ⟨hnodup, fun j hj => (trees_map_tree _).symm ▸ hwaits j hj⟩
  | consumed hfeeds => exact h.feeds hfeeds
  | textPushed => exact ⟨by simpa using h.nodup, fun id hid => h.waits id (by simpa using hid)⟩
  | @treePushed _ id _ _ _ hid _ _ =>
    have hfresh : id ∉ trees lane := fun hmem =>
      ho.not_waiting hid (List.mem_append_right _ (h.waits id hmem))
    refine ⟨List.nodup_cons.2 ⟨hfresh, h.nodup⟩, fun j hj => ?_⟩
    rcases List.mem_cons.1 hj with rfl | hj
    · exact List.mem_cons_self
    · exact List.mem_cons_of_mem _ (h.waits j hj)

/-! ## Lineages -/

/-- The changes that lead from a base to a bare view and its lane, the newest record first. -/
inductive Lineage (m : Machine) (base : View) : List Record → View → List Item → Prop
  | base : Lineage m base [] base []
  | alters {older : List Record} {record : Record} {v v' : View} {lane lane' : List Item} :
    Lineage m base older v lane → Alters m older record v lane v' lane' →
    Lineage m base (record :: older) v' lane'

lemma Lineage.owned (h : Lineage m base records v lane) (hbase : Owned [] base) :
    Owned records v := by
  induction h with
  | base => exact hbase
  | alters _ halters ih => exact ih.alters halters

lemma Lineage.laned (h : Lineage m base records v lane) (hbase : Owned [] base) :
    Laned lane v := by
  induction h with
  | base => exact ⟨.nil, nofun⟩
  | alters hlineage halters ih => exact ih.alters (hlineage.owned hbase).orderly halters

end Run

end Rewind
