import Rewind.Proofs.Undo

/-!
# Going forward along a path

Whatever an operation changes, it writes down.  For each kind of record there is one lemma here,
which says that writing it together with the change it tells of is one step along a path
(`Moves`).  The operations of a run are put together from these steps.
-/

namespace Rewind.Run

open Attempt Op

variable {m : Machine} {strict : Prop} {Noted : List Record → View → Prop} {r s t : Run}

namespace Moves

lemma refl (ht : Tidy strict r) : Moves m strict Noted r r :=
  ⟨ht, Nat.le_refl _, .start, rfl⟩

lemma trans (h : Moves m strict Noted r s) (h' : Moves m strict Noted s t) :
    Moves m strict Noted r t :=
  ⟨h'.tidy, Nat.le_trans h'.unread h.unread, (h.path.mono h'.unread).trans h'.path,
    h'.aborted.trans h.aborted⟩

lemma orderly (h : Moves m strict Noted r s) (ho : Orderly r.view) : Orderly s.view :=
  h.path.orderly ho

/-- Only what no record tells of has changed. -/
lemma quiet (ht : Tidy strict s) (hv : s.view = r.view) (hlog : s.log = r.log)
    (hu : s.unread ≤ r.unread) (ha : s.aborted = r.aborted) : Moves m strict Noted r s :=
  ⟨ht, hu, by rw [hv, hlog]; exact .start, ha⟩

lemma of_change {record : Record} {v : View}
    (hc : Change m strict s.unread r.log.length record r.view v) (hv : s.view = v)
    (hlog : s.log = r.log.append record) (hnoted : record = .stepEnded → Noted s.log.records v)
    (ht : Tidy strict s) (hu : s.unread ≤ r.unread) (ha : s.aborted = r.aborted) :
    Moves m strict Noted r s := by
  refine ⟨ht, hu, ?_, ha⟩
  rw [hlog] at hnoted ⊢
  rw [hv]
  exact .single hc hnoted

end Moves

/-- A single change, which leads to the view `v`, was written down. -/
structure Writes (m : Machine) (strict : Prop) (record : Record) (r : Run) (v : View) (s : Run) :
    Prop where
  change : Change m strict s.unread r.log.length record r.view v
  view : s.view = v
  log : s.log = r.log.append record
  tidy : Tidy strict s
  unread : s.unread ≤ r.unread
  aborted : s.aborted = r.aborted

lemma Writes.moves {record : Record} {v : View} (h : Writes m strict record r v s)
    (hnoted : record = .stepEnded → Noted s.log.records v) : Moves m strict Noted r s :=
  .of_change h.change h.view h.log hnoted h.tidy h.unread h.aborted

/-! ## Allocating and changing a node -/

section Node

variable {id : NodeId} {n n' : Node} {forest : Forest}

/-- A new node is in a slot that held nothing. -/
lemma shown_of_alloc (ht : Tidy strict r) (ho : Orderly r.view)
    (halloc : Pool.alloc r.forest n = (.ok id, forest)) (hforest : s.forest = forest)
    (hwaiting : ∀ j, j ≠ id → (j ∈ s.waiting ↔ j ∈ r.waiting)) :
    r.view.nodes id = none ∧ id ∉ r.waiting ∧ s.shown =
      Function.update r.shown id (some (if id ∈ s.waiting then n.loose else n)) := by
  obtain ⟨hvacant, hnodes⟩ := Pool.get?_of_alloc ht.pool halloc
  have hnone : r.view.nodes id = none := shown_eq_none_iff.2 hvacant
  refine ⟨hnone, ho.not_waiting hnone, shown_eq_update (fun j hj => ?_) hwaiting ?_⟩
  · rw [hforest, hnodes, Function.update_of_ne hj]
  · rw [shown, hforest, hnodes, Function.update_self]
    split <;> rfl

lemma Tidy.alloc (ht : Tidy strict r) (halloc : Pool.alloc r.forest n = (.ok id, forest))
    (hattached : s.scanner.stream.isSome) (hforest : s.forest = forest)
    (hwaiting : ∀ j, j ≠ id → (j ∈ s.waiting ↔ j ∈ r.waiting))
    (hloose : id ∈ s.waiting → strict → n.loose = n) : Tidy strict s := by
  obtain ⟨hvacant, hnodes⟩ := Pool.get?_of_alloc ht.pool halloc
  subst hforest
  refine ht.keep hattached (Pool.sound_of_alloc ht.pool halloc) fun j hj n' hn' => ?_
  rw [hnodes] at hn'
  by_cases hji : j = id
  · subst hji
    rw [Function.update_self] at hn'
    cases hn'
    exact .inl (hloose hj)
  · rw [Function.update_of_ne hji] at hn'
    exact .inr ⟨(hwaiting j hji).1 hj, hn'⟩

end Node

lemma waiting_of_cons {id : NodeId} (h : r.waiting = id :: s.waiting) :
    ∀ j, j ≠ id → (j ∈ s.waiting ↔ j ∈ r.waiting) := by
  intro j hj
  simp [h, hj]

/-! ## Taking input -/

/-- The run that has noted that something was taken from the stream. -/
def marked (r : Run) : Run :=
  if r.endActionRan then
    { r with log := r.log.append (.endActionMarked true), endActionRan := false }
  else r

lemma tookInput_apply (r : Run) : tookInput r = .ok () (marked r) := by
  unfold tookInput marked
  rw [get_bind]
  split <;> rfl

lemma marked_scanner (r : Run) (scanner : Scanner) :
    marked { r with scanner } = { marked r with scanner } := by
  unfold marked
  split <;> simp_all

lemma sameCourse_marked (r : Run) :
    (marked r).scanner = r.scanner ∧ (marked r).forest = r.forest ∧
      (marked r).queue = r.queue ∧ (marked r).aside = r.aside := by
  unfold marked
  split <;> simp

/-- It is noted whether the action at the end of the input is due. -/
lemma writes_endActionMarked (ht : Tidy strict r) (now : Bool) (hran : r.endActionRan = !now)
    (point : Point) :
    Writes m strict (.endActionMarked !now) r { r.view with endActionRan := now } { r with
      point
      log := r.log.append (.endActionMarked !now)
      endActionRan := now } := by
  have hc : Change m strict r.unread r.log.length (.endActionMarked r.view.endActionRan) r.view
      { r.view with endActionRan := now } := .endActionMarked hran
  rw [show r.view.endActionRan = !now from hran] at hc
  refine ⟨hc, rfl, rfl, ?_, Nat.le_refl _, rfl⟩
  exact ht.keep ht.attached ht.pool fun j hj n hn => .inr ⟨hj, hn⟩

lemma moves_marked (ht : Tidy strict r) : Moves m strict Noted r (marked r) := by
  unfold marked
  split
  · rename_i hran
    exact (writes_endActionMarked ht false hran r.point).moves (by simp)
  · exact .refl ht

section Input

variable {stream rest : Stream} {text : Bytes} {element : ElementId} {id : NodeId}
  {forest : Forest} {scanner : Scanner}

/-- What taking text from a stream does to it. -/
structure Takes (stream rest : Stream) (text : Bytes) : Prop where
  content : stream.content = text.map .byte ++ rest.content
  position : rest.position = stream.position.advance text
  unread : rest.unread.length ≤ stream.unread.length

lemma takes_extract {n : Nat} (h : stream.extract n = (text, rest)) : Takes stream rest text := by
  obtain ⟨hcontent, hposition, hunread, -⟩ := Stream.content_extract h
  exact ⟨hcontent, hposition, Nat.le_of_eq (congrArg List.length hunread)⟩

lemma takes_nothing (stream : Stream) : Takes stream stream [] :=
  ⟨rfl, rfl, Nat.le_refl _⟩

/-- What a run shows of its stream. -/
lemma content_eq (hs : r.scanner.stream = some stream) :
    r.content = stream.content ∧ r.position = stream.position ∧
      r.unread = stream.unread.length := by
  simp [content, position, Run.unread, Scanner.position?, hs]

/-- A token is queued. -/
lemma writes_scanned (ht : Tidy strict r) (ho : Orderly r.view)
    (hs : r.scanner.stream = some stream) (hs' : scanner.stream = some rest)
    (htakes : Takes stream rest text) (hqueue : r.queue = [])
    (hscans : Scans m r.content element text)
    (halloc : Pool.alloc r.forest (.token element text ⟨r.position, text.length⟩) =
      (.ok id, forest)) (events : List Event) :
    Writes m strict (.scanned id r.position) r { r.view with
      nodes := Function.update r.view.nodes id
        (some (.token element text ⟨r.position, text.length⟩))
      queue := [id]
      items := rest.content
      position := r.position.advance text } { r with
      scanner, forest, events
      queue := r.queue ++ [id]
      log := r.log.append (.scanned id r.position) } := by
  obtain ⟨hcontent, hposition, hunread⟩ := content_eq hs
  let s : Run := { r with
    scanner, forest, events
    queue := r.queue ++ [id]
    log := r.log.append (.scanned id r.position) }
  obtain ⟨hcontent', hposition', hunread'⟩ := content_eq (r := s) hs'
  have hitems : r.content = text.map .byte ++ rest.content := by
    rw [hcontent, htakes.content]
  have hwaiting : ∀ j, j ≠ id → (j ∈ s.waiting ↔ j ∈ r.waiting) := by
    intro j hj
    simp [waiting, hitems, show s.content = rest.content from hcontent', hj, s]
  obtain ⟨hvacant, -, hshown⟩ := shown_of_alloc ht ho halloc rfl hwaiting
  have hc : Change m strict s.unread r.log.length (.scanned id r.view.position) r.view _ :=
    .scanned hqueue hvacant hitems hscans
  refine ⟨hc, View.ext rfl rfl rfl ?_ rfl ?_ rfl rfl rfl rfl hcontent' ?_, rfl, ?_, ?_, rfl⟩
  · simp [view, hqueue]
  · have hin : id ∈ s.waiting := by simp [waiting, s]
    rw [show s.view.nodes = s.shown from rfl, hshown, if_pos hin]
    rfl
  · rw [show s.view.position = s.position from rfl, hposition', htakes.position, ← hposition]
  · refine ht.alloc halloc ?_ rfl hwaiting fun _ _ => rfl
    simp [hs']
  · rw [hunread', hunread]
    exact htakes.unread

/-- A token is set aside. -/
lemma writes_setAside (ht : Tidy strict r) (ho : Orderly r.view)
    (hs : r.scanner.stream = some stream) (hs' : scanner.stream = some rest)
    (htakes : Takes stream rest text) (hqueue : r.queue = [])
    (hscans : m.scanner.Names element ∧ text ≠ [])
    (halloc : Pool.alloc r.forest (.token element text ⟨r.position, text.length⟩) =
      (.ok id, forest)) (events : List Event) :
    Writes m strict (.setAside id r.position) r { r.view with
      nodes := Function.update r.view.nodes id
        (some { Node.token element text ⟨r.position, text.length⟩ with next := r.aside })
      aside := some id
      items := rest.content
      position := r.position.advance text } { r with
      scanner, events
      forest := forest.put id
        { Node.token element text ⟨r.position, text.length⟩ with next := r.aside }
      aside := some id
      log := r.log.append (.setAside id r.position) } := by
  obtain ⟨hcontent, hposition, hunread⟩ := content_eq hs
  let s : Run := { r with
    scanner, events
    forest := forest.put id
      { Node.token element text ⟨r.position, text.length⟩ with next := r.aside }
    aside := some id
    log := r.log.append (.setAside id r.position) }
  obtain ⟨hcontent', hposition', hunread'⟩ := content_eq (r := s) hs'
  have hitems : r.content = text.map .byte ++ rest.content := by
    rw [hcontent, htakes.content]
  have hwaiting : s.waiting = r.waiting := by
    rw [waiting, waiting, hitems, hcontent', trees_bytes_append]
  obtain ⟨hnone, hnodes⟩ := Pool.get?_of_alloc ht.pool halloc
  have hvacant : r.view.nodes id = none := shown_eq_none_iff.2 hnone
  have hout : id ∉ s.waiting := hwaiting ▸ ho.not_waiting hvacant
  have hid : Pool.get? forest id = some (.token element text ⟨r.position, text.length⟩) := by
    rw [hnodes, Function.update_self]
  have hother : ∀ j, j ≠ id → Pool.get? s.forest j = Pool.get? r.forest j := by
    intro j hj
    rw [Pool.get?_put_of_ne hj, hnodes, Function.update_of_ne hj]
  have hc : Change m strict s.unread r.log.length (.setAside id r.view.position) r.view _ :=
    .setAside hqueue hvacant hitems hscans
  refine ⟨hc, View.ext rfl rfl rfl rfl rfl ?_ rfl rfl rfl rfl hcontent' ?_, rfl, ?_, ?_, rfl⟩
  · refine shown_eq_update hother (fun j _ => by rw [hwaiting]) ?_
    rw [shown_of_not_waiting hout]
    exact Pool.get?_put_self hid
  · rw [show s.view.position = s.position from rfl, hposition', htakes.position, ← hposition]
  · refine ht.keep ?_ ((Pool.sound_of_alloc ht.pool halloc).put hid) fun j hj n hn => .inr ?_
    · simp [hs']
    · have hne : j ≠ id := by
        rintro rfl
        exact hout hj
      rw [hother j hne] at hn
      exact ⟨hwaiting ▸ hj, hn⟩
  · rw [hunread', hunread]
    exact htakes.unread

/-- Text is given to the caller. -/
lemma writes_consumed (ht : Tidy strict r) (hs : r.scanner.stream = some stream)
    (hs' : scanner.stream = some rest) (htakes : Takes stream rest text) (hqueue : r.queue = [])
    (hscans : m.scanner.Names element ∧ text ≠ [] ∧ m.grammar.generates element = true)
    (point : Point) :
    Writes m strict (.consumed text r.position) r { r.view with
      items := rest.content
      position := r.position.advance text } { r with
      scanner, point
      log := r.log.append (.consumed text r.position) } := by
  obtain ⟨hcontent, hposition, hunread⟩ := content_eq hs
  let s : Run := { r with scanner, point, log := r.log.append (.consumed text r.position) }
  obtain ⟨hcontent', hposition', hunread'⟩ := content_eq (r := s) hs'
  have hitems : r.content = text.map .byte ++ rest.content := by
    rw [hcontent, htakes.content]
  have hwaiting : s.waiting = r.waiting := by
    rw [waiting, waiting, hitems, hcontent', trees_bytes_append]
  have hc : Change m strict s.unread r.log.length (.consumed text r.view.position) r.view _ :=
    .consumed hqueue hitems hscans
  refine ⟨hc, View.ext rfl rfl rfl rfl rfl ?_ rfl rfl rfl rfl hcontent' ?_, rfl, ?_, ?_, rfl⟩
  · exact shown_congr rfl fun j => by rw [hwaiting]
  · rw [show s.view.position = s.position from rfl, hposition', htakes.position, ← hposition]
  · refine ht.keep ?_ ht.pool fun j hj n hn => .inr ⟨hwaiting ▸ hj, hn⟩
    simp [hs']
  · rw [hunread', hunread]
    exact htakes.unread

/-- A tree is queued. -/
lemma moves_treeQueued (ht : Tidy strict r) (hs : r.scanner.stream = some stream)
    (hs' : scanner.stream = some rest) (hcontent : stream.content = .tree id false :: rest.content)
    (hposition : rest.position = stream.position) (hunread : rest.unread = stream.unread)
    (hqueue : r.queue = []) (events : List Event) :
    Moves m strict Noted r { r with
      scanner, events
      queue := r.queue ++ [id]
      log := r.log.append (.treeTaken id false) } := by
  let s : Run := { r with
    scanner, events
    queue := r.queue ++ [id]
    log := r.log.append (.treeTaken id false) }
  obtain ⟨hrcontent, hrposition, hrunread⟩ := content_eq hs
  obtain ⟨hscontent, hsposition, hsunread⟩ := content_eq (r := s) hs'
  have hitems : r.content = .tree id false :: s.content := by
    rw [hrcontent, hscontent, hcontent]
  have hwaiting : s.waiting = r.waiting := by
    simp only [waiting, hitems, trees, s, hqueue]
    rfl
  have hc : Change m strict s.unread r.log.length (.treeTaken id false) r.view _ :=
    .treeQueued hqueue hitems
  refine .of_change hc (View.ext rfl rfl rfl ?_ rfl ?_ rfl rfl rfl rfl rfl ?_) rfl
    (by simp) ?_ ?_ rfl
  · simp [view, hqueue]
  · exact shown_congr rfl fun j => by rw [hwaiting]
  · rw [show s.view.position = s.position from rfl, hsposition, hposition, ← hrposition]
    rfl
  · refine ht.keep ?_ ht.pool fun j hj n hn => .inr ⟨hwaiting ▸ hj, hn⟩
    simp [hs']
  · exact Nat.le_of_eq (by rw [hsunread, hrunread, hunread])

/-- A tree is set aside. -/
lemma moves_treeSetAside {n : Node} (ht : Tidy strict r) (ho : Orderly r.view)
    (hs : r.scanner.stream = some stream) (hs' : scanner.stream = some rest)
    (hcontent : stream.content = .tree id true :: rest.content)
    (hposition : rest.position = stream.position) (hunread : rest.unread = stream.unread)
    (hqueue : r.queue = []) (hn : Pool.get? r.forest id = some n) (events : List Event) :
    Moves m strict Noted r { r with
      scanner, events
      forest := r.forest.put id { n with next := r.aside }
      aside := some id
      log := r.log.append (.treeTaken id true) } := by
  let s : Run := { r with
    scanner, events
    forest := r.forest.put id { n with next := r.aside }
    aside := some id
    log := r.log.append (.treeTaken id true) }
  obtain ⟨hrcontent, hrposition, hrunread⟩ := content_eq hs
  obtain ⟨hscontent, hsposition, hsunread⟩ := content_eq (r := s) hs'
  have hitems : r.content = .tree id true :: s.content := by
    rw [hrcontent, hscontent, hcontent]
  have hwaiting : r.waiting = id :: s.waiting := by
    simp only [waiting, hitems, trees, s, hqueue]
    rfl
  have hin : id ∈ r.waiting := by simp [hwaiting]
  have hout : id ∉ s.waiting := by
    obtain ⟨ids, -, hnodup⟩ := ho.stack
    have hwait : r.waiting.Nodup := hnodup.of_append_right
    rw [hwaiting] at hwait
    exact (List.nodup_cons.1 hwait).1
  have hshown : r.view.nodes id = some n.loose :=
    (shown_of_waiting hin).trans (by rw [hn, Option.map_some])
  have hstate : strict → n.state = 0 := fun h => congrArg Node.state (ht.loose h id hin n hn).symm
  have hc : Change m strict s.unread r.log.length (.treeTaken id true) r.view _ :=
    .treeSetAside hqueue hitems hshown (Node.loose_loose n) hstate
  have hother : ∀ j, j ≠ id → Pool.get? s.forest j = Pool.get? r.forest j :=
    fun j hj => Pool.get?_put_of_ne hj
  refine .of_change hc (View.ext rfl rfl rfl rfl rfl ?_ rfl rfl rfl rfl rfl ?_) rfl
    (by simp) ?_ ?_ rfl
  · refine shown_eq_update hother (waiting_of_cons hwaiting) ?_
    rw [shown_of_not_waiting hout]
    exact Pool.get?_put_self hn
  · rw [show s.view.position = s.position from rfl, hsposition, hposition, ← hrposition]
    rfl
  · refine ht.keep ?_ (ht.pool.put hn) fun j hj n' hn' => .inr ?_
    · simp [hs']
    · have hne : j ≠ id := by
        rintro rfl
        exact hout hj
      rw [hother j hne] at hn'
      exact ⟨by simp [hwaiting, show j ∈ s.waiting from hj], hn'⟩
  · exact Nat.le_of_eq (by rw [hsunread, hrunread, hunread])

end Input

/-! ## Shifting and reducing -/

/-- The nodes of the stack do not wait, so they are shown as they are. -/
lemma stack_shown (ho : Orderly r.view) :
    ∃ ids, Linked (Pool.get? r.forest) r.stack ids none ∧ (ids ++ r.waiting).Nodup ∧
      ∀ id ∈ ids, id ∉ r.waiting ∧ r.shown id = Pool.get? r.forest id := by
  obtain ⟨ids, hlinked, hnodup⟩ := ho.stack
  have hout : ∀ id ∈ ids, id ∉ r.waiting := fun id hid =>
    fun hmem => (List.nodup_append'.1 hnodup).2.2 hid hmem
  refine ⟨ids, hlinked.congr fun id hid => ?_, hnodup, fun id hid => ⟨hout id hid, ?_⟩⟩
  · exact (shown_of_not_waiting (hout id hid)).symm
  · exact shown_of_not_waiting (hout id hid)

lemma writes_shifted {id : NodeId} {rest : List NodeId} {n : Node} {target : StateId}
    {alternative : Nat} {more : Bool} (ht : Tidy strict r) (ho : Orderly r.view)
    (hqueue : r.queue = id :: rest) (hn : Pool.get? r.forest id = some n)
    (hshifts : Shifts m r.state n.element alternative more target) (retry : Nat)
    (events : List Event) :
    Writes m strict (.shifted id r.state (carried m n r.aside) alternative more) r { r.view with
      nodes := Function.update r.view.nodes id (some { n with
        state := target
        next := r.stack
        ignored := (carried m n r.aside).or n.ignored })
      stack := some id
      queue := rest
      aside := if (carried m n r.aside).isSome then none else r.aside
      state := target
      retries := if more then r.retries + 1 else r.retries } { r with
      retry, events
      retries := if more then r.retries + 1 else r.retries
      queue := rest
      aside := if (carried m n r.aside).isSome then none else r.aside
      forest := r.forest.put id { n with
        state := target
        next := r.stack
        ignored := (carried m n r.aside).or n.ignored }
      stack := some id
      state := target
      log := r.log.append (.shifted id r.state (carried m n r.aside) alternative more) } := by
  let s : Run := { r with
    retry, events
    retries := if more then r.retries + 1 else r.retries
    queue := rest
    aside := if (carried m n r.aside).isSome then none else r.aside
    forest := r.forest.put id { n with
      state := target
      next := r.stack
      ignored := (carried m n r.aside).or n.ignored }
    stack := some id
    state := target
    log := r.log.append (.shifted id r.state (carried m n r.aside) alternative more) }
  have hwaiting : r.waiting = id :: s.waiting := by
    rw [waiting, hqueue]
    rfl
  have hin : id ∈ r.waiting := by simp [hwaiting]
  have hout : id ∉ s.waiting := by
    obtain ⟨ids, -, hnodup⟩ := ho.stack
    have hwait : r.waiting.Nodup := hnodup.of_append_right
    rw [hwaiting] at hwait
    exact (List.nodup_cons.1 hwait).1
  have hshown : r.view.nodes id = some n.loose :=
    (shown_of_waiting hin).trans (by rw [hn, Option.map_some])
  have hother : ∀ j, j ≠ id → Pool.get? s.forest j = Pool.get? r.forest j :=
    fun j hj => Pool.get?_put_of_ne hj
  have hc : Change m strict s.unread r.log.length
      (.shifted id r.view.state (carried m n.loose r.view.aside) alternative more) r.view _ :=
    .shifted hqueue hshown (Node.loose_loose n) hshifts
  refine ⟨hc, View.ext rfl rfl rfl rfl rfl ?_ rfl rfl rfl rfl rfl rfl, rfl, ?_, Nat.le_refl _, rfl⟩
  · refine shown_eq_update hother (waiting_of_cons hwaiting) ?_
    rw [shown_of_not_waiting hout]
    exact Pool.get?_put_self hn
  · refine ht.keep ht.attached (ht.pool.put hn) fun j hj n' hn' => .inr ?_
    have hne : j ≠ id := by
      rintro rfl
      exact hout hj
    rw [hother j hne] at hn'
    exact ⟨by simp [hwaiting, show j ∈ s.waiting from hj], hn'⟩

lemma spans_of_spanOf {f : Forest} {ids : List NodeId} {first span : Span}
    (h : ids.foldlM (fun span id => do return span.merge (← Pool.read f id).span) first =
      .ok span) :
    span = ((ids.filterMap (Pool.get? f)).map Node.span).foldl Span.merge first := by
  induction ids generalizing first with
  | nil =>
    cases h
    rfl
  | cons id ids ih =>
    rw [List.foldlM_cons] at h
    obtain ⟨next, hnext, hrest⟩ := Except.bind_eq_ok.1 h
    obtain ⟨n, hread, hmerge⟩ := Except.bind_eq_ok.1 hnext
    cases hmerge
    rw [List.filterMap_cons_some (read_eq_ok.1 hread)]
    exact ih hrest

/-- A tree was made of nodes that do not wait, and nothing else was changed. -/
structure Made (r : Run) (tree : NodeId) (children : List NodeId) (n : Node) (made : Forest) :
    Prop where
  sound : Pool.Sound made
  vacant : Pool.get? r.forest tree = none
  apart : ∀ j ∈ children, j ≠ tree ∧ j ∉ r.waiting
  relinked : Relinked (Function.update (Pool.get? r.forest) tree (some n)) (Pool.get? made) children
  siblings : Linked (Pool.get? made) children.head? children none

namespace Made

variable {s : Run} {tree : NodeId} {children : List NodeId} {n : Node} {made : Forest}

lemma tree_eq (h : Made r tree children n made) : Pool.get? made tree = some n := by
  rw [h.relinked.elsewhere tree fun hmem => (h.apart tree hmem).1 rfl, Function.update_self]

lemma elsewhere (h : Made r tree children n made) {j : NodeId} (hj : j ≠ tree)
    (hjc : j ∉ children) : Pool.get? made j = Pool.get? r.forest j := by
  rw [h.relinked.elsewhere j hjc, Function.update_of_ne hj]

/-- What is shown changes where the forest does. -/
lemma shown (h : Made r tree children n made) (hn : n.loose = n) (hforest : s.forest = made)
    (hwaiting : s.waiting = tree :: r.waiting) :
    Relinked (Function.update r.shown tree (some n)) s.shown children ∧
      Linked s.shown children.head? children none := by
  have hchild : ∀ j ∈ children, s.shown j = Pool.get? made j := by
    intro j hj
    rw [shown_of_not_waiting, hforest]
    rw [hwaiting, List.mem_cons, not_or]
    exact h.apart j hj
  have helsewhere : ∀ j, j ∉ children →
      s.shown j = Function.update r.shown tree (some n) j := by
    intro j hjc
    by_cases hj : j = tree
    · subst hj
      rw [Function.update_self, shown_of_waiting (by simp [hwaiting]), hforest, h.tree_eq,
        Option.map_some, hn]
    · rw [Function.update_of_ne hj, Run.shown, Run.shown, hforest, hwaiting, h.elsewhere hj hjc]
      simp only [List.mem_cons, hj, false_or]
  refine ⟨⟨helsewhere, fun j => ?_⟩, h.siblings.congr hchild⟩
  by_cases hjc : j ∈ children
  · obtain ⟨hne, hout⟩ := h.apart j hjc
    have hunlinked := h.relinked.unlinked j
    rw [Function.update_of_ne hne] at hunlinked
    rw [hchild j hjc, hunlinked, Function.update_of_ne hne, shown_of_not_waiting hout]
  · rw [helsewhere j hjc]

end Made

section Reduced

variable {production : ProductionId} {info : Grammar.Production} {span : Span}
  {children : List NodeId} {below : Option NodeId} {tree : NodeId} {made linked : Forest}
  {state : StateId}

lemma made_of_unstack (ht : Tidy strict r) (ho : Orderly r.view) {n : Node} {needed : Nat}
    (hunstack : unstack r.forest needed r.stack [] = .ok (.ok (children, below)))
    (halloc : Pool.alloc r.forest n = (.ok tree, made))
    (hlink : linkSiblings children { r with forest := made } =
      .ok () { r with forest := linked }) : Made r tree children n linked := by
  obtain ⟨taken, hchildren, -, hlinked⟩ := linked_of_unstack hunstack
  rw [List.append_nil] at hchildren
  obtain ⟨ids, hstack, hnodup, hout⟩ := stack_shown ho
  obtain ⟨ys, rfl, -⟩ := hlinked.behind hstack
  obtain ⟨hvacant, hmade⟩ := Pool.get?_of_alloc ht.pool halloc
  have htaken : ∀ j ∈ children, j ∈ taken ++ ys := by
    intro j hj
    rw [hchildren, List.mem_reverse] at hj
    exact List.mem_append_left _ hj
  have hdistinct : children.Nodup := by
    rw [hchildren, List.nodup_reverse]
    exact (hnodup.of_append_left).of_append_left
  obtain ⟨forest, hforest, hsound, hrelinked, hsiblings⟩ :=
    linkSiblings_ok hlink hdistinct (Pool.sound_of_alloc ht.pool halloc)
  obtain rfl : linked = forest := congrArg Run.forest hforest
  dsimp only at hrelinked
  refine ⟨hsound, hvacant, fun j hj => ⟨?_, (hout j (htaken j hj)).1⟩, ?_, hsiblings⟩
  · rintro rfl
    exact hstack.not_mem_of_vacant hvacant (htaken j hj)
  · rw [← hmade]
    exact hrelinked

/-- A reduction, as far as the nodes go. -/
lemma reduces_of_unstack {s : Run} (ho : Orderly r.view)
    (hinfo : m.grammar.productions[production]? = some info)
    (hunstack : unstack r.forest info.length r.stack [] = .ok (.ok (children, below)))
    (hspan : spanOf r.forest children = .ok span)
    (hmade : Made r tree children (.reduced info.lhs production children.head? span) linked)
    (hstate : stateOf m linked below = .ok state) (hforest : s.forest = linked)
    (hwaiting : s.waiting = tree :: r.waiting) :
    Reduces m r.view production info tree children below s.shown state := by
  obtain ⟨taken, hchildren, hlength, hlinked⟩ := linked_of_unstack hunstack
  rw [List.append_nil] at hchildren
  obtain ⟨ids, hstack, hnodup, hout⟩ := stack_shown ho
  obtain ⟨ys, rfl, hbelow⟩ := hlinked.behind hstack
  have htaken : ∀ j ∈ taken, r.view.nodes j = Pool.get? r.forest j :=
    fun j hj => (hout j (List.mem_append_left _ hj)).2
  obtain ⟨hrelinked, hsiblings⟩ := hmade.shown rfl hforest hwaiting
  refine ⟨hinfo, by rw [hchildren, List.length_reverse, hlength], ?_,
    shown_eq_none_iff.2 hmade.vacant, ⟨span, ?_, hrelinked⟩, hsiblings, ?_⟩
  · rw [hchildren, List.reverse_reverse]
    exact hlinked.congr htaken
  · rw [Covers, spans_of_spanOf hspan]
    have hsame : children.filterMap r.view.nodes = children.filterMap (Pool.get? r.forest) := by
      refine List.filterMap_congr fun j hj => ?_
      rw [hchildren, List.mem_reverse] at hj
      exact htaken j hj
    rw [hsame]
  · cases hbelow with
    | nil => exact (Except.ok.inj hstate).symm
    | @cons top n rest _ hn _ =>
      have htop : top ∈ taken ++ top :: rest := by simp
      have hne : top ≠ tree := by
        rintro rfl
        exact hstack.not_mem_of_vacant hmade.vacant htop
      have hnot : top ∉ children := by
        rw [hchildren, List.mem_reverse]
        exact fun hmem => (List.nodup_append'.1 hnodup.of_append_left).2.2 hmem (by simp)
      have hread : Pool.read linked top = .ok n := by
        rw [read_eq_ok, hmade.elsewhere hne hnot, hn]
      simp only [stateOf, hread] at hstate
      exact ⟨n, (hout top htop).2.trans hn, (Except.ok.inj hstate).symm⟩

lemma writes_reduced (alternative : Nat) (more : Bool) (ht : Tidy strict r) (ho : Orderly r.view)
    (hinfo : m.grammar.productions[production]? = some info)
    (hunstack : unstack r.forest info.length r.stack [] = .ok (.ok (children, below)))
    (hspan : spanOf r.forest children = .ok span)
    (halloc : Pool.alloc r.forest (.reduced info.lhs production children.head? span) =
      (.ok tree, made))
    (hlink : linkSiblings children { r with forest := made } =
      .ok () { r with forest := linked })
    (hstate : stateOf m linked below = .ok state) (retry : Nat) (point : Point)
    (events : List Event) :
    ∃ nodes, Reduces m r.view production info tree children below nodes state ∧
      Writes m strict (.reduced tree r.state alternative more) r { r.view with
        nodes := nodes
        stack := below
        queue := tree :: r.queue
        state := state
        retries := if more then r.retries + 1 else r.retries } { r with
        retry, events, point, state
        retries := if more then r.retries + 1 else r.retries
        forest := linked
        stack := below
        queue := tree :: r.queue
        log := r.log.append (.reduced tree r.state alternative more) } := by
  let s : Run := { r with
    retry, events, point, state
    retries := if more then r.retries + 1 else r.retries
    forest := linked
    stack := below
    queue := tree :: r.queue
    log := r.log.append (.reduced tree r.state alternative more) }
  have hmade := made_of_unstack ht ho hunstack halloc hlink
  have hreduces : Reduces m r.view production info tree children below s.shown state :=
    reduces_of_unstack ho hinfo hunstack hspan hmade hstate rfl rfl
  have hc : Change m strict s.unread r.log.length (.reduced tree r.view.state alternative more)
      r.view _ := .reduced hreduces
  refine ⟨s.shown, hreduces, hc, rfl, rfl, ?_, Nat.le_refl _, rfl⟩
  refine ht.keep ht.attached hmade.sound fun j hj n hn => ?_
  by_cases hjt : j = tree
  · subst hjt
    rw [show Pool.get? s.forest j = _ from hmade.tree_eq] at hn
    cases hn
    exact .inl fun _ => rfl
  · have hwaits : j ∈ r.waiting :=
      (List.mem_cons.1 (show j ∈ tree :: r.waiting from hj)).resolve_left hjt
    have hjc : j ∉ children := fun hmem => (hmade.apart j hmem).2 hwaits
    rw [show Pool.get? s.forest j = _ from hmade.elsewhere hjt hjc] at hn
    exact .inr ⟨hwaits, hn⟩

end Reduced

/-! ## Ends of steps -/

lemma writes_committed (ht : Tidy strict r) :
    Writes m strict (.committed r.barrier r.retries) r { r.view with
      barrier := r.log.length + 1
      retries := 0 } { r with
      log := r.log.append (.committed r.barrier r.retries)
      barrier := r.log.length + 1
      retries := 0 } := by
  have hc : Change m strict r.unread r.log.length (.committed r.view.barrier r.view.retries)
      r.view _ := .committed
  refine ⟨hc, rfl, rfl, ?_, Nat.le_refl _, rfl⟩
  exact ht.keep ht.attached ht.pool fun j hj n hn => .inr ⟨hj, hn⟩

lemma writes_stepEnded (ht : Tidy strict r) :
    Writes m strict .stepEnded r { r.view with steps := r.steps + 1 } { r with
      log := r.log.append .stepEnded
      steps := r.steps + 1 } := by
  have hc : Change m strict r.unread r.log.length .stepEnded r.view _ := .stepEnded
  refine ⟨hc, rfl, rfl, ?_, Nat.le_refl _, rfl⟩
  exact ht.keep ht.attached ht.pool fun j hj n hn => .inr ⟨hj, hn⟩

/-! ## What callers do -/

lemma moves_sent {id : NodeId} {forest : Forest} {element : ElementId} {text : Bytes}
    (ht : Tidy strict r) (ho : Orderly r.view)
    (halloc : Pool.alloc r.forest (.fabricated element text) = (.ok id, forest)) :
    Moves m strict Noted r { r with
      forest
      queue := r.queue ++ [id]
      log := r.log.append (.sent id) } := by
  let s : Run := { r with forest, queue := r.queue ++ [id], log := r.log.append (.sent id) }
  have hwaiting : ∀ j, j ≠ id → (j ∈ s.waiting ↔ j ∈ r.waiting) := by
    intro j hj
    have hcontent : s.content = r.content := rfl
    simp [waiting, hcontent, hj, s]
  obtain ⟨hvacant, -, hshown⟩ := shown_of_alloc ht ho halloc rfl hwaiting
  have hc : Change m strict s.unread r.log.length (.sent id) r.view { r.view with
      nodes := Function.update r.view.nodes id (some (.fabricated element text))
      queue := r.view.queue ++ [id] } := .sent hvacant
  refine .of_change hc (View.ext rfl rfl rfl rfl rfl ?_ rfl rfl rfl rfl rfl rfl) rfl (by simp) ?_
    (Nat.le_refl _) rfl
  · have hin : id ∈ s.waiting := by simp [waiting, s]
    rw [show s.view.nodes = s.shown from rfl, hshown, if_pos hin]
    rfl
  · exact ht.alloc halloc ht.attached rfl hwaiting fun _ _ => rfl

lemma moves_textPushed {stream : Stream} {text : Bytes} (ht : Tidy strict r)
    (hs : r.scanner.stream = some stream) :
    Moves m strict Noted r { r with
      scanner := { r.scanner with stream := some (stream.pushText text) }
      log := r.log.append (.textPushed text.length) } := by
  let s : Run := { r with
    scanner := { r.scanner with stream := some (stream.pushText text) }
    log := r.log.append (.textPushed text.length) }
  obtain ⟨hcontent, hposition, hunread⟩ := content_eq hs
  have hitems : s.content = text.map .byte ++ r.content := by
    rw [hcontent]
    exact Stream.content_pushText text stream
  have hwaiting : s.waiting = r.waiting := by
    rw [waiting, waiting, hitems, trees_bytes_append]
  have hlong : r.unread ≤ r.content.length := by
    rw [hcontent, hunread, Stream.content, List.length_append, List.length_map]
    omega
  have hsunread : s.unread = r.unread := by
    rw [hunread]
    rfl
  have hc : Change m strict s.unread r.log.length (.textPushed text.length) r.view _ :=
    .textPushed (hsunread ▸ hlong)
  refine .of_change hc (View.ext rfl rfl rfl rfl rfl ?_ rfl rfl rfl rfl hitems ?_) rfl (by simp) ?_
    (Nat.le_of_eq hsunread) rfl
  · exact shown_congr rfl fun j => by rw [hwaiting]
  · exact hposition.symm
  · exact ht.keep rfl ht.pool fun j hj n hn => .inr ⟨hwaiting ▸ hj, hn⟩

lemma moves_treePushed {stream : Stream} {tree : Node} {ignore : Bool} {id : NodeId}
    {forest : Forest} (ht : Tidy strict r) (ho : Orderly r.view)
    (hs : r.scanner.stream = some stream) (hloose : strict → tree.loose = tree)
    (halloc : Pool.alloc r.forest tree = (.ok id, forest)) :
    Moves m strict Noted r { r with
      forest
      scanner := { r.scanner with stream := some (stream.pushTree id ignore) }
      log := r.log.append (.treePushed id) } := by
  let s : Run := { r with
    forest
    scanner := { r.scanner with stream := some (stream.pushTree id ignore) }
    log := r.log.append (.treePushed id) }
  obtain ⟨hcontent, hposition, hunread⟩ := content_eq hs
  have hitems : s.content = .tree id ignore :: r.content := by
    rw [hcontent]
    exact Stream.content_pushTree id ignore stream
  have hwaiting : ∀ j, j ≠ id → (j ∈ s.waiting ↔ j ∈ r.waiting) := by
    intro j hj
    simp [waiting, hitems, trees, hj, s]
  have hlong : r.unread ≤ r.content.length := by
    rw [hcontent, hunread, Stream.content, List.length_append, List.length_map]
    omega
  have hsunread : s.unread = r.unread := by
    rw [hunread]
    rfl
  obtain ⟨hvacant, -, hshown⟩ := shown_of_alloc ht ho halloc rfl hwaiting
  have hc : Change m strict s.unread r.log.length (.treePushed id) r.view { r.view with
      nodes := Function.update r.view.nodes id (some tree.loose)
      items := .tree id ignore :: r.view.items } := .treePushed hvacant (hsunread ▸ hlong)
  refine .of_change hc (View.ext rfl rfl rfl rfl rfl ?_ rfl rfl rfl rfl hitems ?_) rfl (by simp) ?_
    (Nat.le_of_eq hsunread) rfl
  · have hin : id ∈ s.waiting := by simp [waiting, hitems, trees]
    rw [show s.view.nodes = s.shown from rfl, hshown, if_pos hin]
    rfl
  · exact hposition.symm
  · exact ht.alloc halloc rfl rfl hwaiting fun _ => hloose

lemma moves_bound (ht : Tidy strict r) (name : VariableId) (id : NodeId) :
    Moves m strict Noted r { r with
      log := r.log.append (.bound name (r.bindings.get? name))
      bindings := r.bindings.insert name id } := by
  have hc : Change m strict r.unread r.log.length (.bound name (r.view.bindings.get? name)) r.view
      { r.view with bindings := r.view.bindings.insert name id } := .bound
  refine .of_change hc rfl rfl (by simp) ?_ (Nat.le_refl _) rfl
  exact ht.keep ht.attached ht.pool fun j hj n hn => .inr ⟨hj, hn⟩

lemma moves_dropped (ht : Tidy strict r) :
    Moves m strict Noted r { r with log := r.log.append (.dropped r.aside), aside := none } := by
  have hc : Change m strict r.unread r.log.length (.dropped r.view.aside) r.view _ := .dropped
  refine .of_change hc rfl rfl (by simp) ?_ (Nat.le_refl _) rfl
  exact ht.keep ht.attached ht.pool fun j hj n hn => .inr ⟨hj, hn⟩

lemma moves_action (ht : Tidy strict r) (data : Bytes) :
    Moves m strict Noted r { r with log := r.log.append (.action data) } := by
  have hc : Change m strict r.unread r.log.length (.action data) r.view _ := .action
  refine .of_change hc rfl rfl (by simp) ?_ (Nat.le_refl _) rfl
  exact ht.keep ht.attached ht.pool fun j hj n hn => .inr ⟨hj, hn⟩

end Rewind.Run
