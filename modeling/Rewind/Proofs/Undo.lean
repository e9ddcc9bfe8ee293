import Mathlib.Order.Basic
import Rewind.Proofs.View

/-!
# Taking one change back

`undo` is exact: on a run whose view is the one a change led to, it restores the view the change
began with (`undo_change`).  Nothing is assumed about how the run came to that view, so the records
of a path can be taken back one after the other, the newest first.
-/

namespace Rewind

namespace Bindings

/-- Sorted entries are those below a variable, that of the variable, and those above. -/
lemma entries_eq_parts {l : List (VariableId × NodeId)} (h : l.Pairwise fun a b => a.1 < b.1)
    (v : VariableId) :
    l = l.filter (·.1 < v) ++ ((l.lookup v).toList.map (v, ·) ++ l.filter (v < ·.1)) := by
  induction l with
  | nil => rfl
  | cons entry l ih =>
    obtain ⟨k, x⟩ := entry
    obtain ⟨hk, hl⟩ := List.pairwise_cons.1 h
    have habove : v ≤ k → l.filter (·.1 < v) = [] ∧ l.lookup v = none ∧ l.filter (v < ·.1) = l := by
      intro hle
      have hgt : ∀ a ∈ l, v < a.1 := fun a ha => Nat.lt_of_le_of_lt hle (hk a ha)
      refine ⟨?_, ?_, ?_⟩
      · rw [List.filter_eq_nil_iff]
        intro a ha
        simpa using Nat.le_of_lt (hgt a ha)
      · rw [List.lookup_eq_none_iff]
        intro a ha
        simpa using Nat.ne_of_lt (hgt a ha)
      · rw [List.filter_eq_self]
        intro a ha
        simpa using hgt a ha
    rcases Nat.lt_trichotomy k v with hlt | rfl | hgt
    · have hne : (v == k) = false := by simpa using Nat.ne_of_gt hlt
      simp only [List.filter_cons, hlt, decide_true, if_true, List.lookup_cons, hne,
        Nat.not_lt_of_gt hlt, decide_false, Bool.false_eq_true, if_false, List.cons_append]
      rw [← ih hl]
    · obtain ⟨h1, h2, h3⟩ := habove (Nat.le_refl k)
      simp [h1, h3]
    · obtain ⟨h1, h2, h3⟩ := habove (Nat.le_of_lt hgt)
      have hne : (v == k) = false := by simpa using Nat.ne_of_lt hgt
      simp [List.lookup_cons, h1, h2, h3, hne, hgt, Nat.not_lt_of_gt hgt]

/-- A variable bound anew is put back to what it was. -/
lemma restore_insert (b : Bindings) (v : VariableId) (node : NodeId) :
    (b.insert v node).restore v (b.get? v) = b := by
  have hparts := entries_eq_parts b.sorted v
  apply ext
  cases hv : b.get? v with
  | none =>
    rw [get?] at hv
    rw [hv] at hparts
    refine Eq.trans ?_ hparts.symm
    simp only [restore, erase, insert, List.filter_append, List.filter_cons, List.filter_filter,
      ne_eq, not_true_eq_false, decide_false, Bool.false_eq_true, if_false]
    congr 1
    · refine List.filter_congr fun a _ => ?_
      by_cases ha : a.1 < v
      · simp [ha, Nat.ne_of_lt ha]
      · simp [ha]
    · refine List.filter_congr fun a _ => ?_
      by_cases ha : v < a.1
      · simp [ha, Nat.ne_of_gt ha]
      · simp [ha]
  | some old =>
    rw [get?] at hv
    rw [hv] at hparts
    refine Eq.trans ?_ hparts.symm
    simp only [restore, insert, List.filter_append, List.filter_cons, List.filter_filter,
      Nat.lt_irrefl, decide_false, Bool.false_eq_true, if_false]
    have hapart : ∀ a ∈ b.entries, ¬(decide (v < a.1) && decide (a.1 < v)) = true := by
      intro a _
      simp only [Bool.and_eq_true, decide_eq_true_eq]
      exact fun h => Nat.lt_asymm h.1 h.2
    have hapart' : ∀ a ∈ b.entries, ¬(decide (a.1 < v) && decide (v < a.1)) = true := by
      intro a _
      simp only [Bool.and_eq_true, decide_eq_true_eq]
      exact fun h => Nat.lt_asymm h.1 h.2
    rw [List.filter_eq_nil_iff.2 hapart, List.filter_eq_nil_iff.2 hapart']
    simp only [Bool.and_self, List.append_nil, List.nil_append]
    rfl
end Bindings

namespace Run

open Attempt Op

/-! ## What taking back leaves alone -/

/-- The parts of a run that no record tells of are the same. -/
structure SameCourse (r s : Run) : Prop where
  log : s.log = r.log
  target : s.target = r.target
  retry : s.retry = r.retry
  point : s.point = r.point
  stopping : s.stopping = r.stopping
  halted : s.halted = r.halted
  aborted : s.aborted = r.aborted
  rejecting : s.rejecting = r.rejecting
  events : s.events = r.events

lemma sameCourse (r : Run) (scanner : Scanner) (forest : Forest) (state : StateId)
    (stack : Option NodeId) (queue : List NodeId) (aside : Option NodeId) (bindings : Bindings)
    (steps retries barrier : Nat) (endActionRan : Bool) :
    SameCourse r { r with
      scanner, forest, state, stack, queue, aside, bindings, steps, retries, barrier,
      endActionRan } :=
  ⟨rfl, rfl, rfl, rfl, rfl, rfl, rfl, rfl, rfl⟩

variable {m : Machine} {strict : Prop} {unread length : Nat} {r s : Run} {v v' : View}

lemma Tidy.stream (h : Tidy strict r) : ∃ stream, r.scanner.stream = some stream :=
  Option.isSome_iff_exists.1 h.attached

/-- If what waits is really loose, then nodes are shown as they are. -/
lemma Tidy.shown_eq (h : Tidy True r) : r.shown = Pool.get? r.forest := by
  funext id
  by_cases hwaits : id ∈ r.waiting
  · rw [shown_of_waiting hwaits]
    cases hn : Pool.get? r.forest id with
    | none => rfl
    | some n => rw [Option.map_some, h.loose trivial id hwaits n hn]
  · exact shown_of_not_waiting hwaits

/-- The nodes that wait are those that waited before, and those that are loose. -/
lemma Tidy.keep (h : Tidy strict r) (hattached : s.scanner.stream.isSome)
    (hpool : Pool.Sound s.forest) (hloose : ∀ id ∈ s.waiting, ∀ n,
      Pool.get? s.forest id = some n → (strict → n.loose = n) ∨
        id ∈ r.waiting ∧ Pool.get? r.forest id = some n) : Tidy strict s := by
  refine ⟨hattached, hpool, fun hstrict id hid n hn => ?_⟩
  rcases hloose id hid n hn with hl | ⟨hid', hn'⟩
  · exact hl hstrict
  · exact h.loose hstrict id hid' n hn'

/-- What taking back the change of a record reports. -/
def Record.takenBack : Record → TakenBack
  | .shifted _ _ _ alternative more => if more then .decision alternative else .plain
  | .reduced _ _ alternative more => if more then .decision alternative else .plain
  | .action data => .action data
  | _ => .plain

lemma takeBackDecision_ok (alternative : Nat) (more : Bool) (r : Run) :
    takeBackDecision alternative more r =
      .ok (if more then .decision alternative else .plain)
        { r with retries := if more then r.retries - 1 else r.retries } := by
  cases more <;> rfl

lemma unscan_ok {id : NodeId} {start : Position} {n : Node} {stream : Stream}
    (hn : Pool.get? r.forest id = some n) (hs : r.scanner.stream = some stream) :
    unscan id start r = .ok () { r with
      forest := r.forest.vacate id
      scanner := { r.scanner with stream := some (stream.putBack n.text start) } } := by
  rw [unscan, bind_ok (release_ok hn)]
  exact changeStream_ok hs

/-- Taking back a shift, as one equation: the node loses its state and what it took. -/
lemma undo_shifted_ok {id : NodeId} {previous : StateId} {ignored : Option NodeId}
    {alternative : Nat} {more : Bool} {n : Node} (hn : Pool.get? r.forest id = some n) :
    undo (.shifted id previous ignored alternative more) r =
      .ok (if more then .decision alternative else .plain) { r with
        stack := n.next
        forest := r.forest.put id { n with
          next := none
          state := 0
          ignored := if ignored.isSome then none else n.ignored }
        aside := ignored.or r.aside
        queue := id :: r.queue
        state := previous
        retries := if more then r.retries - 1 else r.retries } := by
  have hunlinked : Pool.get? (r.forest.put id { n with next := none, state := 0 }) id =
      some { n with next := none, state := 0 } := Pool.get?_put_self hn
  rw [undo, bind_ok (node_ok hn), modify_bind,
    bind_ok (change_ok (r := { r with stack := n.next }) hn)]
  cases ignored with
  | none =>
    simp only [Option.isSome_none, Bool.false_eq_true, if_false, putFront, modify_bind,
      takeBackDecision_ok, Option.none_or]
  | some first =>
    simp only [Option.isSome_some, if_true, putFront, Option.some_or]
    rw [bind_ok (change_ok (n := { n with next := none, state := 0 }) hunlinked)]
    simp only [modify_bind, takeBackDecision_ok, Pool.put_put]

/-- Taking back a reduction, as one equation: the children are on the stack again, and their tree is
gone. -/
lemma undo_reduced_ok {tree : NodeId} {previous : StateId} {alternative : Nat} {more : Bool}
    {children queue : List NodeId} {forest : Forest} {stack : Option NodeId} {n : Node}
    (hqueue : r.queue = tree :: queue) (hchildren : Forest.children r.forest tree = .ok children)
    (hrestack : restack children { r with queue } = .ok () { r with queue, forest, stack })
    (hn : Pool.get? forest tree = some n) :
    undo (.reduced tree previous alternative more) r =
      .ok (if more then .decision alternative else .plain) { r with
        queue
        forest := forest.vacate tree
        stack
        state := previous
        retries := if more then r.retries - 1 else r.retries } := by
  have htake : takeFront tree r = .ok () { r with queue } := takeFront_eq_ok.2 ⟨queue, hqueue, rfl⟩
  rw [undo, bind_ok htake, get_bind]
  simp only [hchildren]
  rw [lookup_ok_bind, bind_ok hrestack]
  refine (bind_ok (release_ok (n := n) hn) _).trans ?_
  rw [modify_bind, takeBackDecision_ok]

/-! ## What taking back comes to -/

lemma takeBack_eq_ok {id : NodeId} {u : Unit} (h : takeBack id r = .ok u s) :
    s = { r with queue := r.queue.dropLast } := by
  rw [takeBack, get_bind] at h
  split at h <;> cases h
  rfl

/-- What taking back a record comes to, where it succeeds. -/
inductive Undoing (r : Run) : Record → Run → Prop
  | scanned {id : NodeId} {start : Position} {s : Run} :
    unscan id start { r with queue := r.queue.dropLast } = .ok () s →
    Undoing r (.scanned id start) s
  | setAside {id : NodeId} {start : Position} {n : Node} {s : Run} :
    Pool.get? r.forest id = some n → unscan id start { r with aside := n.next } = .ok () s →
    Undoing r (.setAside id start) s
  | treeSkipped {id : NodeId} {n : Node} {stream : Stream} :
    Pool.get? r.forest id = some n → r.scanner.stream = some stream →
    Undoing r (.treeTaken id true) { r with
      aside := n.next
      forest := r.forest.put id { n with next := none }
      scanner := { r.scanner with stream := some (stream.pushTree id true) } }
  | treeQueued {id : NodeId} {stream : Stream} : r.scanner.stream = some stream →
    Undoing r (.treeTaken id false) { r with
      queue := r.queue.dropLast
      scanner := { r.scanner with stream := some (stream.pushTree id false) } }
  | consumed {text : Bytes} {start : Position} {stream : Stream} :
    r.scanner.stream = some stream →
    Undoing r (.consumed text start) { r with
      scanner := { r.scanner with stream := some (stream.putBack text start) } }
  | sent {id : NodeId} {s : Run} :
    releaseTree id { r with queue := r.queue.dropLast } = .ok () s → Undoing r (.sent id) s
  | textPushed {count : Nat} {stream : Stream} : r.scanner.stream = some stream →
    Undoing r (.textPushed count) { r with
      scanner := { r.scanner with stream := some (stream.pushback count).2 } }
  | treePushed {id : NodeId} {stream : Stream} {found : Option Node} {s : Run} :
    r.scanner.stream = some stream →
    release id { r with scanner := { r.scanner with stream := some (stream.pushback 1).2 } } =
      .ok found s →
    Undoing r (.treePushed id) s
  | shifted {id : NodeId} {previous : StateId} {ignored : Option NodeId} {alternative : Nat}
      {more : Bool} {n : Node} : Pool.get? r.forest id = some n →
    Undoing r (.shifted id previous ignored alternative more) { r with
      stack := n.next
      forest := r.forest.put id { n with
        next := none
        state := 0
        ignored := if ignored.isSome then none else n.ignored }
      aside := ignored.or r.aside
      queue := id :: r.queue
      state := previous
      retries := if more then r.retries - 1 else r.retries }
  | reduced {tree : NodeId} {previous : StateId} {alternative : Nat} {more : Bool}
      {children queue : List NodeId} {found : Option Node} {s t : Run} :
    r.queue = tree :: queue → restack children { r with queue } = .ok () t →
    release tree t = .ok found s →
    Undoing r (.reduced tree previous alternative more) { s with
      state := previous
      retries := if more then s.retries - 1 else s.retries }
  | bound {name : VariableId} {previous : Option NodeId} :
    Undoing r (.bound name previous) { r with bindings := r.bindings.restore name previous }
  | dropped {chain : Option NodeId} : Undoing r (.dropped chain) { r with aside := chain }
  | committed {barrier retries : Nat} :
    Undoing r (.committed barrier retries) { r with barrier, retries }
  | endActionMarked {endActionRan : Bool} :
    Undoing r (.endActionMarked endActionRan) { r with endActionRan }
  | action {data : Bytes} : Undoing r (.action data) r
  | stepEnded : Undoing r .stepEnded { r with steps := r.steps - 1 }

lemma undo_ok {record : Record} {taken : TakenBack} (h : undo record r = .ok taken s) :
    taken = record.takenBack ∧ Undoing r record s := by
  cases record with
  | scanned id start =>
    obtain ⟨u, t, htake, h1⟩ := bind_eq_ok.1 h
    obtain rfl := takeBack_eq_ok htake
    obtain ⟨u, t, hback, h2⟩ := bind_eq_ok.1 h1
    cases h2
    exact ⟨rfl, .scanned hback⟩
  | setAside id start =>
    obtain ⟨n, t, hnode, h1⟩ := bind_eq_ok.1 h
    obtain ⟨hn, rfl⟩ := node_eq_ok.1 hnode
    rw [modify_bind] at h1
    obtain ⟨u, t, hback, h2⟩ := bind_eq_ok.1 h1
    cases h2
    exact ⟨rfl, .setAside hn hback⟩
  | treeTaken id ignore =>
    cases ignore with
    | true =>
      obtain ⟨n, t, hnode, h1⟩ := bind_eq_ok.1 h
      obtain ⟨hn, rfl⟩ := node_eq_ok.1 hnode
      rw [modify_bind] at h1
      obtain ⟨u, t, hchange, h2⟩ := bind_eq_ok.1 h1
      obtain ⟨n', hn', rfl⟩ := change_eq_ok.1 hchange
      obtain rfl : n = n' := Option.some.inj (hn.symm.trans hn')
      obtain ⟨u, t, hpush, h3⟩ := bind_eq_ok.1 h2
      obtain ⟨stream, hs, rfl⟩ := changeStream_eq_ok.1 hpush
      cases h3
      exact ⟨rfl, .treeSkipped hn hs⟩
    | false =>
      obtain ⟨u, t, htake, h1⟩ := bind_eq_ok.1 h
      obtain rfl := takeBack_eq_ok htake
      obtain ⟨u, t, hpush, h2⟩ := bind_eq_ok.1 h1
      obtain ⟨stream, hs, rfl⟩ := changeStream_eq_ok.1 hpush
      cases h2
      exact ⟨rfl, .treeQueued hs⟩
  | consumed text start =>
    obtain ⟨u, t, hput, h1⟩ := bind_eq_ok.1 h
    obtain ⟨stream, hs, rfl⟩ := changeStream_eq_ok.1 hput
    cases h1
    exact ⟨rfl, .consumed hs⟩
  | sent id =>
    obtain ⟨u, t, htake, h1⟩ := bind_eq_ok.1 h
    obtain rfl := takeBack_eq_ok htake
    obtain ⟨u, t, hfree, h2⟩ := bind_eq_ok.1 h1
    cases h2
    exact ⟨rfl, .sent hfree⟩
  | textPushed count =>
    obtain ⟨u, t, hdrop, h1⟩ := bind_eq_ok.1 h
    obtain ⟨stream, hs, rfl⟩ := changeStream_eq_ok.1 hdrop
    cases h1
    exact ⟨rfl, .textPushed hs⟩
  | treePushed id =>
    obtain ⟨u, t, hdrop, h1⟩ := bind_eq_ok.1 h
    obtain ⟨stream, hs, rfl⟩ := changeStream_eq_ok.1 hdrop
    obtain ⟨found, t, hrelease, h2⟩ := bind_eq_ok.1 h1
    cases h2
    exact ⟨rfl, .treePushed hs hrelease⟩
  | shifted id previous ignored alternative more =>
    obtain ⟨n, t, hnode, -⟩ := bind_eq_ok.1 h
    obtain ⟨hn, -⟩ := node_eq_ok.1 hnode
    rw [undo_shifted_ok hn] at h
    cases h
    exact ⟨rfl, .shifted hn⟩
  | reduced tree previous alternative more =>
    obtain ⟨u, t, htake, h1⟩ := bind_eq_ok.1 h
    obtain ⟨queue, hqueue, rfl⟩ := takeFront_eq_ok.1 htake
    rw [get_bind] at h1
    obtain ⟨children, t, hlook, h2⟩ := bind_eq_ok.1 h1
    obtain ⟨-, rfl⟩ := lookup_eq_ok.1 hlook
    obtain ⟨u, t, hrestack, h3⟩ := bind_eq_ok.1 h2
    obtain ⟨found, t', hrelease, h4⟩ := bind_eq_ok.1 h3
    rw [modify_bind, takeBackDecision_ok] at h4
    cases h4
    exact ⟨rfl, .reduced (s := t') hqueue hrestack hrelease⟩
  | bound name previous =>
    cases h
    exact ⟨rfl, .bound⟩
  | dropped chain =>
    cases h
    exact ⟨rfl, .dropped⟩
  | committed barrier retries =>
    cases h
    exact ⟨rfl, .committed⟩
  | endActionMarked previous =>
    cases h
    exact ⟨rfl, .endActionMarked⟩
  | action data =>
    cases h
    exact ⟨rfl, .action⟩
  | stepEnded =>
    cases h
    exact ⟨rfl, .stepEnded⟩

/-! ## Releasing and changing a node -/

section Node

variable {id : NodeId} {n n' : Node} {nodes : Nodes} {x : Option Node}

lemma shown_of_vacate (hr : r.shown = Function.update nodes id x) (hid : nodes id = none)
    (hforest : s.forest = r.forest.vacate id)
    (hwaiting : ∀ j, j ≠ id → (j ∈ s.waiting ↔ j ∈ r.waiting)) : s.shown = nodes := by
  refine shown_eq_of_update hr (fun j hj => ?_) hwaiting ?_
  · rw [hforest, Pool.get?_vacate_of_ne hj]
  · rw [hid, shown_eq_none_iff, hforest, Pool.get?_vacate_self]

lemma Tidy.vacate (ht : Tidy strict r) (hn : Pool.get? r.forest id = some n)
    (hattached : s.scanner.stream.isSome) (hforest : s.forest = r.forest.vacate id)
    (hwaiting : ∀ j, j ≠ id → (j ∈ s.waiting ↔ j ∈ r.waiting)) : Tidy strict s := by
  refine ht.keep hattached (hforest ▸ ht.pool.vacate hn) fun j hj n' hn' => .inr ?_
  rw [hforest] at hn'
  have hji : j ≠ id := by
    rintro rfl
    rw [Pool.get?_vacate_self] at hn'
    cases hn'
  rw [Pool.get?_vacate_of_ne hji] at hn'
  exact ⟨(hwaiting j hji).1 hj, hn'⟩

lemma shown_of_put (hr : r.shown = Function.update nodes id x)
    (hn : Pool.get? r.forest id = some n) (hforest : s.forest = r.forest.put id n')
    (hwaiting : ∀ j, j ≠ id → (j ∈ s.waiting ↔ j ∈ r.waiting)) (hid : id ∈ s.waiting)
    (hloose : nodes id = some n'.loose) : s.shown = nodes := by
  refine shown_eq_of_update hr (fun j hj => ?_) hwaiting ?_
  · rw [hforest, Pool.get?_put_of_ne hj]
  · rw [shown_of_waiting hid, hforest, Pool.get?_put_self hn, hloose, Option.map_some]

lemma Tidy.put (ht : Tidy strict r) (hn : Pool.get? r.forest id = some n)
    (hattached : s.scanner.stream.isSome) (hforest : s.forest = r.forest.put id n')
    (hwaiting : ∀ j, j ≠ id → (j ∈ s.waiting ↔ j ∈ r.waiting))
    (hloose : strict → n'.loose = n') : Tidy strict s := by
  refine ht.keep hattached (hforest ▸ ht.pool.put hn) fun j hj n'' hn'' => ?_
  rw [hforest] at hn''
  by_cases hji : j = id
  · subst hji
    rw [Pool.get?_put_self hn] at hn''
    cases hn''
    exact .inl hloose
  · rw [Pool.get?_put_of_ne hji] at hn''
    exact .inr ⟨(hwaiting j hji).1 hj, hn''⟩

end Node

/-! ## What taking back makes of slots and nodes -/

/-- The slot that the change of a record took. -/
def Record.slot? : Record → Option NodeId
  | .scanned id _ | .setAside id _ | .sent id | .treePushed id | .reduced id _ _ _ => some id
  | _ => none

/-- The node that was put on the stack. -/
def Record.shifted? : Record → Option NodeId
  | .shifted id _ _ _ _ => some id
  | _ => none

/-- A node that waits again, now that the change of a record is taken back. -/
def Record.freed : Record → Node → Node
  | .shifted _ _ ignored _ _, n =>
    { n with next := none, state := 0, ignored := if ignored.isSome then none else n.ignored }
  | _, n => { n with next := none }

/-- How far the source of the stream was read is the same. -/
structure SameSource (r s : Run) : Prop where
  unread : s.unread = r.unread
  ended : s.sourceEnded = r.sourceEnded

lemma sameSource {stream rest : Stream} (hs : r.scanner.stream = some stream)
    (hs' : s.scanner.stream = some rest) (hsource : rest.source = stream.source)
    (hended : rest.sourceEnded = stream.sourceEnded) : SameSource r s := by
  constructor
  · simp [unread, hs, hs', Stream.unread, hsource, hended]
  · simp [sourceEnded, hs, hs', hended]

/-- The second run is the first with the change of a record taken back: the slot that it took is
released, nodes that wait in both are as they were, one that waits again is free, and no other node
enters a state. -/
structure Returns (record : Record) (r s : Run) : Prop extends SameSource r s where
  slots : Pool.SameSlots { r.forest with
    released := record.slot?.toList ++ r.forest.released } s.forest
  node : ∀ ⦃id n'⦄, Pool.get? s.forest id = some n' → ∃ n, Pool.get? r.forest id = some n ∧
    (id ∈ s.waiting → n' = if id ∈ r.waiting then n else record.freed n) ∧
    (record.shifted? ≠ some id → n'.state = n.state)

section Returns

variable {record : Record} {id : NodeId} {n n' : Node}

/-- No node is changed. -/
lemma returns_quiet (hsource : SameSource r s) (hslot : record.slot? = none)
    (hforest : s.forest = r.forest) (hwaiting : s.waiting = r.waiting) : Returns record r s := by
  refine ⟨hsource, ?_, fun id n hn => ⟨n, hforest ▸ hn, fun hid => ?_, fun _ => rfl⟩⟩
  · rw [hslot, hforest]
    exact .refl _
  · rw [if_pos (hwaiting ▸ hid)]

/-- A node is released. -/
lemma returns_vacate (hsource : SameSource r s) (hslot : record.slot? = some id)
    (hforest : s.forest = r.forest.vacate id)
    (hwaiting : ∀ j, j ≠ id → (j ∈ s.waiting ↔ j ∈ r.waiting)) : Returns record r s := by
  refine ⟨hsource, ?_, fun j n hn => ?_⟩
  · rw [hslot, hforest]
    exact Pool.sameSlots_vacate ..
  · rw [hforest] at hn
    have hj : j ≠ id := by
      rintro rfl
      rw [Pool.get?_vacate_self] at hn
      cases hn
    rw [Pool.get?_vacate_of_ne hj] at hn
    exact ⟨n, hn, fun hid => by rw [if_pos ((hwaiting j hj).1 hid)], fun _ => rfl⟩

/-- A node waits again. -/
lemma returns_put (hsource : SameSource r s) (hslot : record.slot? = none)
    (hforest : s.forest = r.forest.put id n') (hn : Pool.get? r.forest id = some n)
    (hwaiting : ∀ j, j ≠ id → (j ∈ s.waiting ↔ j ∈ r.waiting)) (hout : id ∉ r.waiting)
    (hfreed : n' = record.freed n) (hstate : record.shifted? ≠ some id → n'.state = n.state) :
    Returns record r s := by
  refine ⟨hsource, ?_, fun j n'' hn'' => ?_⟩
  · rw [hslot, hforest]
    exact Pool.sameSlots_put ..
  · rw [hforest] at hn''
    by_cases hj : j = id
    · subst hj
      rw [Pool.get?_put_self hn] at hn''
      cases hn''
      exact ⟨n, hn, fun _ => by rw [if_neg hout, hfreed], hstate⟩
    · rw [Pool.get?_put_of_ne hj] at hn''
      exact ⟨n'', hn'', fun hid => by rw [if_pos ((hwaiting j hj).1 hid)], fun _ => rfl⟩

end Returns

/-! ## Children back on the stack -/

/-- The tree and its children lie apart, and no child waits. -/
lemma Reduces.apart {production : ProductionId} {info : Grammar.Production} {tree : NodeId}
    {children : List NodeId} {below : Option NodeId} {nodes : Nodes} {state : StateId}
    (h : Reduces m v production info tree children below nodes state) (ho : Orderly v) :
    tree ∉ children ∧ children.Nodup ∧ ∀ j ∈ children, j ∉ v.waiting := by
  obtain ⟨ids, hids, hnodup⟩ := ho.stack
  obtain ⟨ys, rfl, -⟩ := h.taken.behind hids
  rw [List.append_assoc, List.nodup_append'] at hnodup
  refine ⟨fun hmem => ?_, List.nodup_reverse.1 hnodup.1, fun j hj hmem => ?_⟩
  · exact h.taken.not_mem_of_vacant h.vacant (List.mem_reverse.2 hmem)
  · exact hnodup.2.2 (List.mem_reverse.2 hj) (List.mem_append_right _ hmem)

section Restacked

variable {production : ProductionId} {info : Grammar.Production} {tree : NodeId}
  {children : List NodeId} {below stack : Option NodeId} {state : StateId} {forest : Forest}

/-- The children of a tree are the chain that the run has. -/
lemma children_of_reduces (h : Reduces m v production info tree children below r.shown state)
    (ho : Orderly v) (hwaiting : r.waiting = tree :: v.waiting) :
    Forest.children r.forest tree = .ok children ∧
      Linked (Pool.get? r.forest) children.head? children none ∧
      (∃ n, Pool.get? r.forest tree = some n) ∧
      ∀ j ∈ children, Pool.get? r.forest j = r.shown j := by
  obtain ⟨htree, hnodup, hout⟩ := h.apart ho
  obtain ⟨span, -, hrelinked⟩ := h.made
  have hsame : ∀ j ∈ children, Pool.get? r.forest j = r.shown j := by
    intro j hj
    rw [shown_of_not_waiting]
    rw [hwaiting, List.mem_cons]
    rintro (rfl | hmem)
    · exact htree hj
    · exact hout j hj hmem
  have hlinked : Linked (Pool.get? r.forest) children.head? children none :=
    h.siblings.congr hsame
  obtain ⟨n, hn, hloose⟩ := exists_of_shown
    (r := r) (n := .reduced info.lhs production children.head? span)
    (by rw [hrelinked.elsewhere tree htree, Function.update_self])
  have hchild : n.child = children.head? := congrArg Node.child hloose
  refine ⟨?_, hlinked, ⟨n, hn⟩, hsame⟩
  rw [Forest.children, read_eq_ok.2 hn]
  exact (congrArg (Forest.chain r.forest) hchild).trans (Forest.chain_of_linked hlinked hnodup)

/-- Where the children are back on the stack and their tree is gone, the nodes are shown as they
were before the reduction. -/
lemma shown_restacked (h : Reduces m v production info tree children below r.shown state)
    (ho : Orderly v) (hwaiting : r.waiting = tree :: v.waiting) (hleft : s.waiting = v.waiting)
    (hforest : s.forest = forest.vacate tree)
    (hagain : Relinked (Pool.get? r.forest) (Pool.get? forest) children)
    (hrestacked : Linked (Pool.get? forest) stack children.reverse below) :
    s.shown = v.nodes := by
  obtain ⟨htree, -, hout⟩ := h.apart ho
  obtain ⟨span, -, hrelinked⟩ := h.made
  obtain ⟨-, -, -, hsame⟩ := children_of_reduces h ho hwaiting
  have helsewhere : ∀ j, j ∉ children → s.shown j = v.nodes j := by
    intro j hjc
    by_cases hj : j = tree
    · subst hj
      rw [h.vacant, shown_eq_none_iff, hforest]
      exact Pool.get?_vacate_self
    · have hbefore := hrelinked.elsewhere j hjc
      rw [Function.update_of_ne hj] at hbefore
      rw [← hbefore, shown, shown, hforest, Pool.get?_vacate_of_ne hj, hagain.elsewhere j hjc,
        hleft, hwaiting]
      simp only [List.mem_cons, hj, false_or]
  have hchild : ∀ j ∈ children, s.shown j = Pool.get? forest j := by
    intro j hj
    have hne : j ≠ tree := fun h => htree (h ▸ hj)
    rw [shown_of_not_waiting (hleft ▸ hout j hj), hforest]
    exact Pool.get?_vacate_of_ne hne
  have hlinks : Relinked v.nodes s.shown children := by
    refine ⟨helsewhere, fun j => ?_⟩
    by_cases hj : j ∈ children
    · have hne : j ≠ tree := fun h => htree (h ▸ hj)
      have hbefore := hrelinked.unlinked j
      rw [Function.update_of_ne hne] at hbefore
      rw [hchild j hj, hagain.unlinked j, hsame j hj, hbefore]
    · rw [helsewhere j hj]
  have hlinked : Linked s.shown stack children.reverse below :=
    hrestacked.congr fun j hj => hchild j (List.mem_reverse.1 hj)
  exact (hlinks.mono fun j => List.mem_reverse.2).eq_of_linked h.taken hlinked

/-- Neither the tree nor its children wait, and only the links of the children are changed. -/
lemma returns_restacked {previous : StateId} {alternative : Nat} {more : Bool}
    (hsource : SameSource r s) (hout : ∀ j ∈ children, j ∉ v.waiting)
    (hwaiting : r.waiting = tree :: v.waiting) (hleft : s.waiting = v.waiting)
    (hforest : s.forest = forest.vacate tree)
    (hagain : Relinked (Pool.get? r.forest) (Pool.get? forest) children)
    (hslots : Pool.SameSlots r.forest forest) :
    Returns (.reduced tree previous alternative more) r s := by
  refine ⟨hsource, ?_, fun j n hn => ?_⟩
  · rw [hforest]
    exact ⟨hslots.blockLength, hslots.blockLimit,
      (Pool.sameSlots_vacate forest tree).size.trans hslots.size,
      congrArg (tree :: ·) hslots.released⟩
  · rw [hforest] at hn
    have hj : j ≠ tree := by
      rintro rfl
      cases Pool.get?_vacate_self.symm.trans hn
    have hn' : Pool.get? forest j = some n := (Pool.get?_vacate_of_ne hj).symm.trans hn
    have hunlinked := hagain.unlinked j
    rw [hn'] at hunlinked
    obtain ⟨n', hbefore, hsame⟩ := Option.map_eq_some_iff.1 hunlinked.symm
    refine ⟨n', hbefore, fun hid => ?_, fun _ => (congrArg Node.state hsame).symm⟩
    have hid' : j ∈ v.waiting := hleft ▸ hid
    rw [if_pos (hwaiting ▸ List.mem_cons_of_mem _ hid')]
    rw [hagain.elsewhere j fun hmem => hout j hmem hid', hbefore] at hn'
    exact (Option.some.inj hn').symm

end Restacked

/-! ## Each change -/

/-- What `undo` comes to when it takes back a change that led to the view of a run. -/
def Undoes (strict : Prop) (record : Record) (v : View) (r : Run) : Prop :=
  ∃ s, undo record r = .ok record.takenBack s ∧ s.view = v ∧ Tidy strict s ∧
    Returns record r s ∧ SameCourse r s

section Undoes

variable {id : NodeId} {start : Position} (ht : Tidy strict r)

include ht

lemma undoes_scanned (hc : Change m strict unread length (.scanned id start) v v')
    (hv : r.view = v') : Undoes strict (.scanned id start) v r := by
  cases hc with
  | @scanned _ _ element text rest hqueue hid hitems _ =>
    obtain ⟨stream, hs⟩ := ht.stream
    obtain ⟨hstate, hsteps, hstack, hrqueue, haside, hnodes, hbindings, hbarrier, hretries,
      hend, hritems, -⟩ := View.ext_iff.1 hv
    dsimp only [view] at *
    obtain ⟨n, hn, hloose⟩ :=
      exists_of_shown (n := .token element text ⟨v.position, text.length⟩)
        (by rw [hnodes, Function.update_self])
    have htext : n.text = text := congrArg Node.text hloose
    let s : Run := { r with
      queue := []
      forest := r.forest.vacate id
      scanner := { r.scanner with stream := some (stream.putBack n.text v.position) } }
    have hcontent : s.content = v.items := by
      have hr : stream.content = rest := by simpa [content, hs] using hritems
      rw [hitems, ← htext, ← hr]
      exact Stream.content_putBack n.text v.position stream
    have hwaiting : ∀ j, j ≠ id → (j ∈ s.waiting ↔ j ∈ r.waiting) := by
      intro j hj
      simp [waiting, hcontent, hrqueue, hritems, hitems, hj, s]
    refine ⟨s, ?_, ?_, ht.vacate hn rfl rfl hwaiting,
      returns_vacate (sameSource hs rfl rfl rfl) rfl rfl hwaiting, sameCourse ..⟩
    · have htake := takeBack_ok (show r.queue = [] ++ [id] from hrqueue)
      rw [undo, bind_ok htake, bind_ok (unscan_ok (r := { r with queue := [] }) hn hs)]
      rfl
    · exact View.ext hstate hsteps hstack hqueue.symm haside
        (shown_of_vacate hnodes hid rfl hwaiting) hbindings hbarrier hretries hend hcontent rfl

lemma undoes_setAside (ho : Orderly v)
    (hc : Change m strict unread length (.setAside id start) v v') (hv : r.view = v') :
    Undoes strict (.setAside id start) v r := by
  cases hc with
  | @setAside _ _ element text rest hqueue hid hitems _ =>
    obtain ⟨stream, hs⟩ := ht.stream
    obtain ⟨hstate, hsteps, hstack, hrqueue, haside, hnodes, hbindings, hbarrier, hretries,
      hend, hritems, -⟩ := View.ext_iff.1 hv
    dsimp only [view] at *
    have hout : id ∉ r.waiting := by
      have hnot := ho.not_waiting hid
      simpa [View.waiting, waiting, hrqueue, hritems, hitems] using hnot
    have hn : Pool.get? r.forest id =
        some { Node.token element text ⟨v.position, text.length⟩ with next := v.aside } := by
      rw [← shown_of_not_waiting hout, hnodes, Function.update_self]
    let s : Run := { r with
      aside := v.aside
      forest := r.forest.vacate id
      scanner := { r.scanner with stream := some (stream.putBack text v.position) } }
    have hcontent : s.content = v.items := by
      have hr : stream.content = rest := by simpa [content, hs] using hritems
      rw [hitems, ← hr]
      exact Stream.content_putBack text v.position stream
    have hwaiting : ∀ j, j ≠ id → (j ∈ s.waiting ↔ j ∈ r.waiting) := by
      intro j _
      rw [waiting, waiting, hcontent, hritems, hitems, trees_bytes_append]
    refine ⟨s, ?_, ?_, ht.vacate hn rfl rfl hwaiting,
      returns_vacate (sameSource hs rfl rfl rfl) rfl rfl hwaiting, sameCourse ..⟩
    · rw [undo, bind_ok (node_ok hn), modify_bind,
        bind_ok (unscan_ok (r := { r with aside := v.aside }) hn hs)]
      rfl
    · exact View.ext hstate hsteps hstack hrqueue rfl
        (shown_of_vacate hnodes hid rfl hwaiting) hbindings hbarrier hretries hend hcontent rfl

lemma undoes_treeTaken {ignore : Bool} (ho : Orderly v)
    (hc : Change m strict unread length (.treeTaken id ignore) v v') (hv : r.view = v') :
    Undoes strict (.treeTaken id ignore) v r := by
  obtain ⟨stream, hs⟩ := ht.stream
  cases hc with
  | @treeQueued _ _ rest hqueue hitems =>
    obtain ⟨hstate, hsteps, hstack, hrqueue, haside, hnodes, hbindings, hbarrier, hretries,
      hend, hritems, hposition⟩ := View.ext_iff.1 hv
    dsimp only [view] at *
    let s : Run := { r with
      queue := []
      scanner := { r.scanner with stream := some (stream.pushTree id false) } }
    have hcontent : s.content = v.items := by
      have hr : stream.content = rest := by simpa [content, hs] using hritems
      rw [hitems, ← hr]
      exact Stream.content_pushTree id false stream
    have hwaiting : s.waiting = r.waiting := by
      simp [waiting, hcontent, hrqueue, hritems, hitems, trees, s]
    refine ⟨s, ?_, ?_, ?_, returns_quiet (sameSource hs rfl rfl rfl) rfl rfl hwaiting,
      sameCourse ..⟩
    · have htake := takeBack_ok (show r.queue = [] ++ [id] from hrqueue)
      rw [undo, bind_ok htake, bind_ok (changeStream_ok (r := { r with queue := [] }) hs)]
      rfl
    · refine View.ext hstate hsteps hstack hqueue.symm haside ?_ hbindings hbarrier hretries hend
        hcontent ?_
      · rw [← hnodes]
        exact shown_congr rfl fun j => by rw [hwaiting]
      · rw [← hposition]
        simp [view, position, Scanner.position?, s, hs, Stream.pushTree]
    · exact ht.keep rfl ht.pool fun j hj n hn => .inr ⟨hwaiting ▸ hj, hn⟩
  | @treeSetAside _ _ n state rest hqueue hitems hn hloose hstrict =>
    obtain ⟨hstate, hsteps, hstack, hrqueue, haside, hnodes, hbindings, hbarrier, hretries,
      hend, hritems, hposition⟩ := View.ext_iff.1 hv
    dsimp only [view] at *
    have hout : id ∉ r.waiting := by
      obtain ⟨ids, -, hnodup⟩ := ho.stack
      have hwait := hnodup.of_append_right
      simp only [View.waiting, hqueue, hitems, trees, List.nil_append, List.nodup_cons] at hwait
      simpa [waiting, hrqueue, hqueue, hritems] using hwait.1
    have hn' : Pool.get? r.forest id = some { n with next := v.aside, state } := by
      rw [← shown_of_not_waiting hout, hnodes, Function.update_self]
    let s : Run := { r with
      aside := v.aside
      forest := r.forest.put id { n with next := none, state }
      scanner := { r.scanner with stream := some (stream.pushTree id true) } }
    have hcontent : s.content = v.items := by
      have hr : stream.content = rest := by simpa [content, hs] using hritems
      rw [hitems, ← hr]
      exact Stream.content_pushTree id true stream
    have hwaiting : ∀ j, j ≠ id → (j ∈ s.waiting ↔ j ∈ r.waiting) := by
      intro j hj
      simp [waiting, hcontent, hritems, hitems, trees, hj, s]
    refine ⟨s, ?_, ?_, ht.put hn' rfl rfl hwaiting ?_, returns_put (sameSource hs rfl rfl rfl) rfl
      rfl hn' hwaiting hout rfl (fun _ => rfl), sameCourse ..⟩
    · rw [undo, bind_ok (node_ok hn'), modify_bind,
        bind_ok (change_ok (r := { r with aside := v.aside }) hn')]
      refine bind_ok (changeStream_ok ?_) _
      exact hs
    · refine View.ext hstate hsteps hstack hrqueue rfl
        (shown_of_put hnodes hn' rfl hwaiting ?_ ?_) hbindings hbarrier hretries hend hcontent ?_
      · simp [waiting, hcontent, hitems, trees]
      · rw [hn, ← hloose]
        rfl
      · rw [← hposition]
        simp [view, position, Scanner.position?, s, hs, Stream.pushTree]
    · intro h
      have hn0 : n.loose = { n with next := none, state } := by rw [hstrict h]; rfl
      rw [← hn0, Node.loose_loose]

lemma undoes_consumed {text : Bytes}
    (hc : Change m strict unread length (.consumed text start) v v') (hv : r.view = v') :
    Undoes strict (.consumed text start) v r := by
  cases hc with
  | @consumed _ element _ rest hqueue hitems _ =>
    obtain ⟨stream, hs⟩ := ht.stream
    obtain ⟨hstate, hsteps, hstack, hrqueue, haside, hnodes, hbindings, hbarrier, hretries,
      hend, hritems, -⟩ := View.ext_iff.1 hv
    dsimp only [view] at *
    let s : Run := { r with
      scanner := { r.scanner with stream := some (stream.putBack text v.position) } }
    have hcontent : s.content = v.items := by
      have hr : stream.content = rest := by simpa [content, hs] using hritems
      rw [hitems, ← hr]
      exact Stream.content_putBack text v.position stream
    have hwaiting : s.waiting = r.waiting := by
      rw [waiting, waiting, hcontent, hritems, hitems, trees_bytes_append]
    refine ⟨s, ?_, ?_, ?_, returns_quiet (sameSource hs rfl rfl rfl) rfl rfl hwaiting,
      sameCourse ..⟩
    · rw [undo, bind_ok (changeStream_ok hs)]
      rfl
    · refine View.ext hstate hsteps hstack hrqueue haside ?_ hbindings hbarrier hretries hend
        hcontent rfl
      rw [← hnodes]
      exact shown_congr rfl fun j => by rw [hwaiting]
    · exact ht.keep rfl ht.pool fun j hj n hn => .inr ⟨hwaiting ▸ hj, hn⟩

lemma undoes_sent (hc : Change m strict unread length (.sent id) v v') (hv : r.view = v') :
    Undoes strict (.sent id) v r := by
  cases hc with
  | @sent _ _ element text hid =>
    obtain ⟨hstate, hsteps, hstack, hrqueue, haside, hnodes, hbindings, hbarrier, hretries,
      hend, hritems, hposition⟩ := View.ext_iff.1 hv
    dsimp only [view] at *
    obtain ⟨n, hn, hloose⟩ := exists_of_shown (n := .fabricated element text)
      (by rw [hnodes, Function.update_self])
    have hfree : Forest.freeTree r.forest id = .ok (r.forest.vacate id) :=
      Forest.freeTree_leaf hn (congrArg Node.child hloose) (congrArg Node.ignored hloose)
    let s : Run := { r with queue := v.queue, forest := r.forest.vacate id }
    have hwaiting : ∀ j, j ≠ id → (j ∈ s.waiting ↔ j ∈ r.waiting) := by
      intro j hj
      have hcontent : s.content = r.content := rfl
      simp [waiting, hcontent, hrqueue, hj, s]
    refine ⟨s, ?_, ?_, ht.vacate hn ht.attached rfl hwaiting,
      returns_vacate ⟨rfl, rfl⟩ rfl rfl hwaiting, sameCourse ..⟩
    · have hrelease : releaseTree id { r with queue := v.queue } = .ok () s := by
        simp only [releaseTree, hfree, s]
      rw [undo, bind_ok (takeBack_ok hrqueue), bind_ok hrelease]
      rfl
    · exact View.ext hstate hsteps hstack rfl haside (shown_of_vacate hnodes hid rfl hwaiting)
        hbindings hbarrier hretries hend hritems hposition

lemma undoes_textPushed {count : Nat} (hu : r.unread ≤ unread)
    (hc : Change m strict unread length (.textPushed count) v v') (hv : r.view = v') :
    Undoes strict (.textPushed count) v r := by
  cases hc with
  | @textPushed _ text hlong =>
    obtain ⟨stream, hs⟩ := ht.stream
    obtain ⟨hstate, hsteps, hstack, hrqueue, haside, hnodes, hbindings, hbarrier, hretries,
      hend, hritems, hposition⟩ := View.ext_iff.1 hv
    dsimp only [view] at *
    let s : Run := { r with
      scanner := { r.scanner with stream := some (stream.pushback text.length).2 } }
    have hcontent : s.content = v.items := by
      have hr : stream.content = text.map .byte ++ v.items := by
        simpa [content, hs] using hritems
      have hle : stream.unread.length ≤ v.items.length := by
        have hle := Nat.le_trans hu hlong
        simpa [Run.unread, hs] using hle
      have hdrop := Stream.content_pushback (n := text.length) hr (by simpa using hle)
      rw [List.drop_left' (by simp)] at hdrop
      exact hdrop
    have hwaiting : s.waiting = r.waiting := by
      rw [waiting, waiting, hcontent, hritems, trees_bytes_append]
    refine ⟨s, ?_, ?_, ?_, returns_quiet (sameSource hs rfl rfl rfl) rfl rfl hwaiting,
      sameCourse ..⟩
    · rw [undo, bind_ok (changeStream_ok hs)]
      rfl
    · refine View.ext hstate hsteps hstack hrqueue haside ?_ hbindings hbarrier hretries hend
        hcontent ?_
      · rw [← hnodes]
        exact shown_congr rfl fun j => by rw [hwaiting]
      · rw [← hposition]
        simp [view, position, Scanner.position?, s, hs, Stream.pushback]
    · exact ht.keep rfl ht.pool fun j hj n hn => .inr ⟨hwaiting ▸ hj, hn⟩

lemma undoes_treePushed (hu : r.unread ≤ unread)
    (hc : Change m strict unread length (.treePushed id) v v') (hv : r.view = v') :
    Undoes strict (.treePushed id) v r := by
  cases hc with
  | @treePushed _ _ tree ignore hid hlong =>
    obtain ⟨stream, hs⟩ := ht.stream
    obtain ⟨hstate, hsteps, hstack, hrqueue, haside, hnodes, hbindings, hbarrier, hretries,
      hend, hritems, hposition⟩ := View.ext_iff.1 hv
    dsimp only [view] at *
    obtain ⟨n, hn, -⟩ := exists_of_shown (n := tree.loose)
      (by rw [hnodes, Function.update_self])
    let s : Run := { r with
      forest := r.forest.vacate id
      scanner := { r.scanner with stream := some (stream.pushback 1).2 } }
    have hcontent : s.content = v.items := by
      have hr : stream.content = .tree id ignore :: v.items := by
        simpa [content, hs] using hritems
      have hle : stream.unread.length ≤ v.items.length := by
        have hle := Nat.le_trans hu hlong
        simpa [Run.unread, hs] using hle
      exact Stream.content_pushback (n := 1) hr (by simpa [Nat.add_comm 1] using hle)
    have hwaiting : ∀ j, j ≠ id → (j ∈ s.waiting ↔ j ∈ r.waiting) := by
      intro j hj
      simp [waiting, hcontent, hritems, trees, hj, s]
    refine ⟨s, ?_, ?_, ht.vacate hn rfl rfl hwaiting,
      returns_vacate (sameSource hs rfl rfl rfl) rfl rfl hwaiting, sameCourse ..⟩
    · rw [undo, bind_ok (changeStream_ok hs)]
      refine bind_ok (release_ok (n := n) ?_) _
      exact hn
    · refine View.ext hstate hsteps hstack hrqueue haside
        (shown_of_vacate hnodes hid rfl hwaiting) hbindings hbarrier hretries hend hcontent ?_
      rw [← hposition]
      simp [view, position, Scanner.position?, s, hs, Stream.pushback]

lemma undoes_shifted {previous : StateId} {ignored : Option NodeId} {alternative : Nat}
    {more : Bool} (ho : Orderly v)
    (hc : Change m strict unread length (.shifted id previous ignored alternative more) v v')
    (hv : r.view = v') : Undoes strict (.shifted id previous ignored alternative more) v r := by
  cases hc with
  | @shifted _ _ n rest target _ _ hqueue hn hloose _ =>
    obtain ⟨hstate, hsteps, hstack, hrqueue, haside, hnodes, hbindings, hbarrier, hretries,
      hend, hritems, hposition⟩ := View.ext_iff.1 hv
    dsimp only [view] at *
    have hout : id ∉ r.waiting := by
      obtain ⟨ids, -, hnodup⟩ := ho.stack
      have hwait := hnodup.of_append_right
      rw [View.waiting, hqueue, List.cons_append, List.nodup_cons] at hwait
      rw [waiting, hrqueue, hritems]
      exact hwait.1
    have hnode : Pool.get? r.forest id = some { n with
        state := target
        next := v.stack
        ignored := (carried m n v.aside).or n.ignored } := by
      rw [← shown_of_not_waiting hout, hnodes, Function.update_self]
    let s : Run := { r with
      stack := v.stack
      forest := r.forest.put id n
      aside := v.aside
      queue := id :: r.queue
      state := v.state
      retries := if more then r.retries - 1 else r.retries }
    have hwaiting : ∀ j, j ≠ id → (j ∈ s.waiting ↔ j ∈ r.waiting) := by
      intro j hj
      have hcontent : s.content = r.content := rfl
      simp [waiting, hcontent, hj, s]
    have hretried : s.retries = v.retries := by
      simp only [s, hretries]
      cases more <;> simp
    have hrestored : { n with
        next := none
        state := 0
        ignored := if (carried m n v.aside).isSome then none
          else (carried m n v.aside).or n.ignored } = n ∧
        (carried m n v.aside).or r.aside = v.aside := by
      have hbare : { n with next := none, state := 0 } = n := hloose
      rcases carried_cases m n v.aside with hnone | ⟨first, hsome, hfirst, hempty⟩
      · simp [hnone, haside, hbare]
      · have hwhole : { n.loose with ignored := none } = n := by
          rw [hloose, ← hempty]
        rw [hsome, hfirst]
        exact ⟨hwhole, rfl⟩
    refine ⟨s, ?_, ?_, ht.put hnode ht.attached rfl hwaiting fun _ => hloose,
      returns_put ⟨rfl, rfl⟩ rfl rfl hnode hwaiting hout hrestored.1.symm (fun h => absurd rfl h),
      sameCourse ..⟩
    · rw [undo_shifted_ok hnode, hrestored.1, hrestored.2]
      rfl
    · refine View.ext rfl hsteps rfl ?_ rfl (shown_of_put hnodes hnode rfl hwaiting ?_ ?_)
        hbindings hbarrier hretried hend hritems hposition
      · rw [hqueue, ← hrqueue]
        rfl
      · simp [waiting, s]
      · rw [hn, hloose]

lemma undoes_reduced {tree : NodeId} {previous : StateId} {alternative : Nat} {more : Bool}
    (ho : Orderly v)
    (hc : Change m strict unread length (.reduced tree previous alternative more) v v')
    (hv : r.view = v') : Undoes strict (.reduced tree previous alternative more) v r := by
  cases hc with
  | @reduced _ production info _ children below nodes state _ _ hreduces =>
    obtain ⟨hstate, hsteps, hstack, hrqueue, haside, rfl, hbindings, hbarrier, hretries,
      hend, hritems, hposition⟩ := View.ext_iff.1 hv
    dsimp only [view] at *
    obtain ⟨htree, hnodup, hout⟩ := hreduces.apart ho
    have hwaiting : r.waiting = tree :: v.waiting := by
      rw [waiting, hrqueue, hritems]
      rfl
    obtain ⟨hchildren, hlinked, ⟨n, hn⟩, -⟩ := children_of_reduces hreduces ho hwaiting
    obtain ⟨forest, stack, hrestack, hsound, hagain, hrestacked, hslots⟩ :=
      restack_ok (r := { r with queue := v.queue }) hnodup ht.pool hlinked.live
    dsimp only at hagain hrestacked hslots
    rw [hstack] at hrestacked
    have hn' : Pool.get? forest tree = some n := (hagain.elsewhere tree htree).trans hn
    let s : Run := { r with
      queue := v.queue
      forest := forest.vacate tree
      stack := stack
      state := v.state
      retries := if more then r.retries - 1 else r.retries }
    have hleft : s.waiting = v.waiting := by
      rw [waiting, View.waiting, ← hritems]
      rfl
    have htop : stack = v.stack := hrestacked.head_eq.trans hreduces.taken.head_eq.symm
    have hretried : s.retries = v.retries := by
      simp only [s, hretries]
      cases more <;> simp
    refine ⟨s, undo_reduced_ok hrqueue hchildren hrestack hn', ?_, ?_,
      returns_restacked ⟨rfl, rfl⟩ hout hwaiting hleft rfl hagain hslots, sameCourse ..⟩
    · exact View.ext rfl hsteps htop rfl haside
        (shown_restacked hreduces ho hwaiting hleft rfl hagain hrestacked) hbindings hbarrier
        hretried hend hritems hposition
    · refine ht.keep ht.attached (hsound.vacate hn') fun j hj k hk => .inr ?_
      have hj' : j ∈ v.waiting := hleft ▸ hj
      have hne : j ≠ tree := by
        rintro rfl
        exact ho.not_waiting hreduces.vacant hj'
      rw [hwaiting]
      refine ⟨List.mem_cons_of_mem _ hj', ?_⟩
      rw [← hk, ← hagain.elsewhere j fun hmem => hout j hmem hj']
      exact (Pool.get?_vacate_of_ne hne).symm

/-- A change of nothing but fields of the run itself. -/
lemma undoes_fields {record : Record} {bindings : Bindings} {aside : Option NodeId}
    {barrier retries steps : Nat} {endActionRan : Bool} (hslot : record.slot? = none)
    (hundo : undo record r = .ok record.takenBack { r with
      bindings, aside, barrier, retries, steps, endActionRan })
    (hv : { r.view with bindings, aside, barrier, retries, steps, endActionRan } = v) :
    Undoes strict record v r :=
  ⟨_, hundo, hv, ht.keep ht.attached ht.pool fun _ hj _ hn => .inr ⟨hj, hn⟩,
    returns_quiet ⟨rfl, rfl⟩ hslot rfl rfl, sameCourse ..⟩

/-- A change is taken back exactly. -/
theorem undoes {record : Record} (ho : Orderly v) (hu : r.unread ≤ unread)
    (hc : Change m strict unread length record v v') (hv : r.view = v') :
    Undoes strict record v r := by
  cases record with
  | scanned id start => exact undoes_scanned ht hc hv
  | setAside id start => exact undoes_setAside ht ho hc hv
  | treeTaken id ignore => exact undoes_treeTaken ht ho hc hv
  | consumed text start => exact undoes_consumed ht hc hv
  | sent id => exact undoes_sent ht hc hv
  | textPushed count => exact undoes_textPushed ht hu hc hv
  | treePushed id => exact undoes_treePushed ht hu hc hv
  | shifted id previous ignored alternative more => exact undoes_shifted ht ho hc hv
  | reduced tree previous alternative more => exact undoes_reduced ht ho hc hv
  | bound name previous =>
    cases hc with
    | @bound _ _ id =>
      obtain ⟨h1, h2, h3, h4, h5, h6, hbindings, h8, h9, h10, h11, h12⟩ := View.ext_iff.1 hv
      have hrestored : r.bindings.restore name (v.bindings.get? name) = v.bindings := by
        rw [show r.bindings = v.bindings.insert name id from hbindings, Bindings.restore_insert]
      exact undoes_fields ht rfl rfl (View.ext h1 h2 h3 h4 h5 h6 hrestored h8 h9 h10 h11 h12)
  | dropped chain =>
    cases hc
    obtain ⟨h1, h2, h3, h4, -, h6, h7, h8, h9, h10, h11, h12⟩ := View.ext_iff.1 hv
    exact undoes_fields ht rfl rfl (View.ext h1 h2 h3 h4 rfl h6 h7 h8 h9 h10 h11 h12)
  | committed previousBarrier previousRetries =>
    cases hc
    obtain ⟨h1, h2, h3, h4, h5, h6, h7, -, -, h10, h11, h12⟩ := View.ext_iff.1 hv
    exact undoes_fields ht rfl rfl (View.ext h1 h2 h3 h4 h5 h6 h7 rfl rfl h10 h11 h12)
  | endActionMarked previous =>
    cases hc
    obtain ⟨h1, h2, h3, h4, h5, h6, h7, h8, h9, -, h11, h12⟩ := View.ext_iff.1 hv
    exact undoes_fields ht rfl rfl (View.ext h1 h2 h3 h4 h5 h6 h7 h8 h9 rfl h11 h12)
  | action data =>
    cases hc
    exact undoes_fields ht rfl rfl hv
  | stepEnded =>
    cases hc
    obtain ⟨h1, hsteps, h3, h4, h5, h6, h7, h8, h9, h10, h11, h12⟩ := View.ext_iff.1 hv
    have hback : r.steps - 1 = v.steps := by
      rw [show r.steps = v.steps + 1 from hsteps, Nat.add_sub_cancel]
    exact undoes_fields ht rfl rfl (View.ext h1 hback h3 h4 h5 h6 h7 h8 h9 h10 h11 h12)

end Undoes

end Run

end Rewind
