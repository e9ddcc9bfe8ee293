import Rewind.Proofs.Retries

/-!
# What a record gives back

Interpreting a record, once all newer ones have been interpreted, gives back the run as it was when
the change was about to be made that the record tells of.  A `Juncture` is such a run, and `Logged`
follows a run from one change to the next with a juncture for each record of its log.

One thing is not given back, since no record tells of it.  A node that was put on the stack, and is
taken from there again, has neither a link nor a state, and one that was set aside has no link.  For
a token that was scanned it is what it had before.  A caller may push any node, a copy of a parsed
one among them, and then it is not (`undo_unfaithful`).
-/

namespace Rewind.Run

open Attempt Op

variable {m : Machine} {strict : Prop} {unread length : Nat} {record : Record}
  {records older : List Record} {r s t : Run} {v v' : View} {id : NodeId} {n : Node}

/-! ## Nodes that wait no more -/

/-- The node that stops waiting: it is put on the stack, or a tree is set aside. -/
def Record.leaves? : Record → Option NodeId
  | .shifted id _ _ _ _ => some id
  | .treeTaken id true => some id
  | _ => none

/-- What taking a record back makes of the link and the state of a node. -/
def Record.clear (record : Record) (id : NodeId) (n : Node) : Node :=
  match record with
  | .shifted j _ _ _ _ => if j = id then n.loose else n
  | .treeTaken j true => if j = id then { n with next := none } else n
  | _ => n

lemma Record.loose_clear (record : Record) (id : NodeId) (n : Node) :
    (record.clear id n).loose = n.loose := by
  unfold Record.clear
  split
  · split <;> rfl
  · split <;> rfl
  · rfl

lemma Record.clear_of_ne (h : record.leaves? ≠ some id) (n : Node) : record.clear id n = n := by
  unfold Record.clear
  split
  · exact if_neg fun heq => h (congrArg some heq)
  · exact if_neg fun heq => h (congrArg some heq)
  · rfl

/-- A node that waits again is a node with what taking back clears. -/
lemma Record.freed_eq_clear {n' : Node} (hleaves : record.leaves? = some id)
    (hloose : (record.freed n).loose = n'.loose)
    (hstate : record.shifted? ≠ some id → n.state = n'.state) :
    record.freed n = record.clear id n' := by
  cases record with
  | shifted j previous ignored alternative more =>
    cases hleaves
    rw [Record.clear, if_pos rfl]
    exact hloose
  | treeTaken j ignore =>
    cases ignore <;> cases hleaves
    rw [Record.clear, if_pos rfl]
    have hsame : n.loose = n'.loose := hloose
    have hfull : { n.loose with state := n.state } = { n'.loose with state := n'.state } := by
      rw [hsame, hstate nofun]
    exact hfull
  | _ => cases hleaves

/-- What taking records back makes of a node, the first of them last. -/
def cleared (undone : List Record) (id : NodeId) (n : Node) : Node :=
  undone.foldr (fun record n => record.clear id n) n

lemma loose_cleared (undone : List Record) (id : NodeId) (n : Node) :
    (cleared undone id n).loose = n.loose := by
  induction undone with
  | nil => rfl
  | cons record undone ih => exact (record.loose_clear id _).trans ih

lemma cleared_of_ne {undone : List Record} (h : ∀ record ∈ undone, record.leaves? ≠ some id)
    (n : Node) : cleared undone id n = n := by
  induction undone with
  | nil => rfl
  | cons record undone ih =>
    rw [cleared, List.foldr_cons, Record.clear_of_ne (h record List.mem_cons_self)]
    exact ih fun other hother => h other (List.mem_cons_of_mem _ hother)

/-- A node without link and state has nothing that could be cleared. -/
lemma cleared_of_loose {undone : List Record} (h : n.loose = n) : cleared undone id n = n := by
  induction undone with
  | nil => rfl
  | cons record undone ih =>
    rw [cleared, List.foldr_cons, show undone.foldr _ n = n from ih]
    unfold Record.clear
    have hnext : { n with next := none } = n := by
      rw [← h]
      rfl
    split
    · split
      · exact h
      · rfl
    · split
      · exact hnext
      · rfl
    · rfl

namespace Change

/-- No change releases a node. -/
lemma live (hc : Change m strict unread length record v v') (hid : (v.nodes id).isSome) :
    (v'.nodes id).isSome := by
  have hupdate {j : NodeId} {n : Node} : (Function.update v.nodes j (some n) id).isSome := by
    by_cases hj : id = j
    · rw [hj, Function.update_self]
      rfl
    · rwa [Function.update_of_ne hj]
  cases hc with
  | scanned => exact hupdate
  | setAside => exact hupdate
  | treeSetAside => exact hupdate
  | sent => exact hupdate
  | treePushed => exact hupdate
  | shifted => exact hupdate
  | reduced hreduces =>
    obtain ⟨span, -, hrelinked⟩ := hreduces.made
    exact (hrelinked.live_iff id).2 hupdate
  | _ => exact hid

/-- A node begins to wait when it is made. -/
lemma waits (hc : Change m strict unread length record v v') (hid : id ∈ v'.waiting)
    (hlive : (v.nodes id).isSome) : id ∈ v.waiting := by
  have hnew {j : NodeId} (hvacant : v.nodes j = none) (h : id = j ∨ id ∈ v.waiting) :
      id ∈ v.waiting := by
    refine h.resolve_left fun heq => ?_
    rw [heq, hvacant] at hlive
    cases hlive
  cases hc with
  | scanned hqueue hvacant hitems _ =>
    refine hnew hvacant ?_
    simpa [View.waiting, hqueue, hitems] using hid
  | setAside hqueue _ hitems _ => simpa [View.waiting, hqueue, hitems] using hid
  | treeQueued hqueue hitems => simpa [View.waiting, hqueue, hitems, trees] using hid
  | treeSetAside hqueue hitems _ _ _ =>
    simp only [View.waiting, hqueue, hitems, trees, List.nil_append] at hid ⊢
    exact List.mem_cons_of_mem _ hid
  | consumed hqueue hitems _ => simpa [View.waiting, hqueue, hitems] using hid
  | sent hvacant =>
    refine hnew hvacant ?_
    simpa [View.waiting, or_assoc, or_left_comm] using hid
  | textPushed _ => simpa [View.waiting] using hid
  | treePushed hvacant _ =>
    refine hnew hvacant ?_
    simpa [View.waiting, trees, or_left_comm] using hid
  | shifted hqueue _ _ _ =>
    simp only [View.waiting, hqueue, List.cons_append] at hid ⊢
    exact List.mem_cons_of_mem _ hid
  | reduced hreduces => exact hnew hreduces.vacant (List.mem_cons.1 hid)
  | _ => exact hid

/-- A node that stops waiting is the one that the record names. -/
lemma leaves (hc : Change m strict unread length record v v') (hid : id ∈ v.waiting)
    (hout : id ∉ v'.waiting) : record.leaves? = some id := by
  cases hc with
  | scanned hqueue _ hitems _ => simp_all [View.waiting]
  | setAside hqueue _ hitems _ => simp_all [View.waiting]
  | treeQueued hqueue hitems => simp_all [View.waiting, trees]
  | treeSetAside hqueue hitems _ _ _ =>
    simp only [View.waiting, hqueue, hitems, trees, List.nil_append] at hid hout
    exact congrArg some ((List.mem_cons.1 hid).resolve_right hout).symm
  | consumed hqueue hitems _ => simp_all [View.waiting]
  | sent _ => simp_all [View.waiting]
  | textPushed _ => simp_all [View.waiting]
  | treePushed _ _ => simp_all [View.waiting, trees]
  | shifted hqueue _ _ _ =>
    simp only [View.waiting, hqueue, List.cons_append] at hid hout
    exact congrArg some ((List.mem_cons.1 hid).resolve_right hout).symm
  | reduced _ => exact absurd (List.mem_cons_of_mem _ hid) hout
  | _ => exact absurd hid hout

/-- The node that the record names waited until then. -/
lemma left (hc : Change m strict unread length record v v') (ho : Orderly v)
    (hleaves : record.leaves? = some id) : id ∈ v.waiting ∧ id ∉ v'.waiting := by
  obtain ⟨ids, -, hnodup⟩ := ho.stack
  have hwaiting : v.waiting.Nodup := hnodup.of_append_right
  cases hc with
  | treeSetAside hqueue hitems _ _ _ =>
    cases hleaves
    simp only [View.waiting, hqueue, hitems, trees, List.nil_append] at hwaiting ⊢
    exact ⟨List.mem_cons_self, (List.nodup_cons.1 hwaiting).1⟩
  | shifted hqueue _ _ _ =>
    cases hleaves
    simp only [View.waiting, hqueue, List.cons_append] at hwaiting ⊢
    exact ⟨List.mem_cons_self, (List.nodup_cons.1 hwaiting).1⟩
  | _ => cases hleaves

end Change

/-! ## Junctures -/

/-- A run that was about to change, and the records taken back since, the last one first. -/
structure Juncture where
  run : Run
  undone : List Record := []

namespace Juncture

/-- A record was taken back since. -/
def note (record : Record) (p : Juncture) : Juncture :=
  { p with undone := record :: p.undone }

/-- The nodes of the run, but that taking back has cleared some. -/
def nodes (p : Juncture) : Nodes := fun id =>
  (Pool.get? p.run.forest id).map (cleared p.undone id)

lemma nodes_note (record : Record) (p : Juncture) (id : NodeId) :
    (p.note record).nodes id = (p.nodes id).map (record.clear id) := by
  rw [nodes, nodes, Option.map_map]
  rfl

/-- The change that the record tells of led from the juncture to a view, and left the nodes alone
that it had nothing to do with. -/
structure Precedes (m : Machine) (unread : Nat) (p : Juncture) (record : Record)
    (older : List Record) (v : View) (nodes : Nodes) : Prop where
  orderly : Orderly p.run.view
  log : p.run.log.records = older
  change : Change m False unread older.length record p.run.view v
  stays : ∀ id ∈ p.run.waiting, id ∈ v.waiting → nodes id = p.nodes id
  states : ∀ ⦃id n⦄, record.shifted? ≠ some id → p.nodes id = some n →
    ∃ n', nodes id = some n' ∧ n'.state = n.state
  waited : ∀ undone ∈ p.undone, ∀ ⦃id⦄, undone.leaves? = some id →
    (p.run.view.nodes id).isSome → id ∈ p.run.waiting

/-- For every record of a log, the juncture at which the change was made that it tells of. -/
inductive Trail (m : Machine) (unread : Nat) :
    List Record → List Juncture → View → Nodes → Prop
  | nil {v : View} {nodes : Nodes} : Trail m unread [] [] v nodes
  | cons {p : Juncture} {record : Record} {older : List Record} {past : List Juncture} {v : View}
      {nodes : Nodes} :
    Trail m unread older past p.run.view p.nodes → p.Precedes m unread record older v nodes →
    Trail m unread (record :: older) (p :: past) v nodes

variable {p : Juncture} {past : List Juncture} {nodes : Nodes}

lemma Precedes.mono {unread' : Nat} (h : p.Precedes m unread record older v nodes)
    (hle : unread' ≤ unread) : p.Precedes m unread' record older v nodes :=
  ⟨h.orderly, h.log, h.change.mono hle, h.stays, h.states, h.waited⟩

lemma Trail.mono {unread' : Nat} (h : Trail m unread records past v nodes)
    (hle : unread' ≤ unread) : Trail m unread' records past v nodes := by
  induction h with
  | nil => exact .nil
  | cons _ hp ih => exact .cons ih (hp.mono hle)

lemma Trail.length_eq (h : Trail m unread records past v nodes) :
    past.length = records.length := by
  induction h with
  | nil => rfl
  | cons _ _ ih => rw [List.length_cons, List.length_cons, ih]

/-- What is cleared now is cleared at all junctures.  A node waited wherever it was live, if it is
one that waits now. -/
lemma Trail.note {undone : Record} (h : Trail m unread records past v nodes)
    (hwaits : ∀ id, undone.leaves? = some id → (v.nodes id).isSome → id ∈ v.waiting) :
    Trail m unread records (past.map (Juncture.note undone)) v
      fun id => (nodes id).map (undone.clear id) := by
  induction h with
  | nil => exact .nil
  | @cons p record older past v nodes _ hp ih =>
    have hwaited : ∀ id, undone.leaves? = some id → (p.run.view.nodes id).isSome →
        id ∈ p.run.waiting := fun id hleaves hlive =>
      hp.change.waits (hwaits id hleaves (hp.change.live hlive)) hlive
    have hnodes : (p.note undone).nodes = fun id => (p.nodes id).map (undone.clear id) :=
      funext (nodes_note undone p)
    have htrail := ih hwaited
    rw [← hnodes] at htrail
    refine .cons htrail ⟨hp.orderly, hp.log, hp.change, fun id hid hid' => ?_, ?_, ?_⟩
    · rw [nodes_note, hp.stays id hid hid']
    · intro id n hshifted hn
      rw [nodes_note] at hn
      obtain ⟨n₀, hn₀, rfl⟩ := Option.map_eq_some_iff.1 hn
      obtain ⟨n', hn', hstate⟩ := hp.states hshifted hn₀
      refine ⟨undone.clear id n', by rw [hn', Option.map_some], ?_⟩
      unfold Record.clear
      split
      · split
        · rfl
        · exact hstate
      · split <;> exact hstate
      · exact hstate
    · intro record' hrecord'
      rcases List.mem_cons.1 hrecord' with rfl | hrecord'
      · exact hwaited
      · exact hp.waited record' hrecord'

/-- Taking back the change gives back the juncture, but for what it clears. -/
lemma Precedes.regains (ht : Tidy False r)
    (h : p.Precedes m r.unread record older r.view (Pool.get? r.forest)) (events : List Event) :
    ∃ s, undo record { r with log := ⟨older⟩, events } = .ok record.takenBack s ∧
      Tidy False s ∧ s.unread = r.unread ∧ s.log.records = older ∧ s.view = p.run.view ∧
      Pool.get? s.forest = (p.note record).nodes := by
  let t : Run := { r with log := ⟨older⟩, events }
  have htidy : Tidy False t := ⟨ht.attached, ht.pool, ht.loose⟩
  obtain ⟨s, hundo, hview, hs, hreturns, hcourse⟩ :=
    undoes htidy h.orderly (Nat.le_refl _) h.change rfl
  refine ⟨s, hundo, hs, hreturns.unread, congrArg Journal.records hcourse.log, hview, ?_⟩
  have hwaiting : s.waiting = p.run.waiting := congrArg View.waiting hview
  funext id
  have hshown : s.shown id = p.run.shown id := congrFun (congrArg View.nodes hview) id
  rw [nodes_note, nodes]
  by_cases hid : id ∈ p.run.waiting
  · rw [shown_of_waiting (hwaiting ▸ hid), shown_of_waiting hid] at hshown
    cases hn : Pool.get? p.run.forest id with
    | none =>
      rw [hn] at hshown
      exact Option.map_eq_none_iff.1 hshown
    | some n₀ =>
      rw [hn] at hshown
      obtain ⟨n', hn', hloose⟩ := Option.map_eq_some_iff.1 hshown
      obtain ⟨n, hlive, hwaits, -⟩ := hreturns.node hn'
      have hwaits := hwaits (hwaiting ▸ hid)
      have hnode : p.nodes id = some (cleared p.undone id n₀) := by rw [nodes, hn, Option.map_some]
      rw [hn', Option.map_some, Option.map_some]
      by_cases hstill : id ∈ r.waiting
      · rw [if_pos (show id ∈ t.waiting from hstill)] at hwaits
        have hsame := (h.stays id hid hstill).symm.trans hlive
        rw [hnode] at hsame
        rw [hwaits, Option.some.inj hsame,
          Record.clear_of_ne fun hleaves => (h.change.left h.orderly hleaves).2 hstill]
      · rw [if_neg (show id ∉ t.waiting from hstill)] at hwaits
        rw [hwaits]
        have hleaves := h.change.leaves hid hstill
        refine congrArg some (Record.freed_eq_clear hleaves ?_ fun hother => ?_)
        · rw [← hwaits, loose_cleared, hloose]
        · obtain ⟨n'', hn'', hstate⟩ := h.states hother hnode
          cases hn''.symm.trans hlive
          exact hstate
  · rw [shown_of_not_waiting (hwaiting ▸ hid), shown_of_not_waiting hid] at hshown
    rw [hshown]
    cases hn : Pool.get? p.run.forest id with
    | none => rfl
    | some n =>
      -- A node that does not wait is none that was cleared.
      have hlive : (p.run.view.nodes id).isSome := by
        rw [show p.run.view.nodes id = _ from shown_of_not_waiting hid, hn]
        rfl
      have hkept : cleared p.undone id n = n := cleared_of_ne (fun undone hundone hleaves =>
        hid (h.waited undone hundone hleaves hlive)) n
      rw [Option.map_some, Option.map_some, hkept,
        Record.clear_of_ne (fun hleaves => hid (h.change.left h.orderly hleaves).1)]

end Juncture

/-! ## From change to change -/

/-- A change leaves the nodes alone that it has nothing to do with. -/
structure LeavesAlone (record : Record) (r s : Run) : Prop where
  stays : ∀ id ∈ r.waiting, id ∈ s.waiting → Pool.get? s.forest id = Pool.get? r.forest id
  states : ∀ ⦃id n⦄, record.shifted? ≠ some id → Pool.get? r.forest id = some n →
    ∃ n', Pool.get? s.forest id = some n' ∧ n'.state = n.state

/-- The first run changed into the second one, and the record tells of it. -/
structure Mutates (m : Machine) (record : Record) (r s : Run) : Prop
    extends LeavesAlone record r s where
  log : s.log = r.log.append record
  change : Change m False s.unread r.log.length record r.view s.view
  unread : s.unread ≤ r.unread
  tidy : Tidy False s

/-- Nothing that a record could tell of is different. -/
structure Silent (r s : Run) : Prop where
  log : s.log = r.log
  view : s.view = r.view
  forest : s.forest = r.forest
  unread : s.unread ≤ r.unread
  attached : s.scanner.stream.isSome

/-- A run, followed from one change to the next, with the junctures at which the changes were made
that its log tells of. -/
inductive Logged (m : Machine) : List Juncture → Run → Prop
  | fresh {stream : Stream} {r : Run} : Fresh m stream r → Logged m [] r
  | quiet {past : List Juncture} {r s : Run} : Logged m past r → Silent r s → Logged m past s
  | changed {past : List Juncture} {record : Record} {r s : Run} :
    Logged m past r → Mutates m record r s → Logged m (⟨r, []⟩ :: past) s
  | undone {p : Juncture} {past : List Juncture} {record : Record} {older : List Record}
      {events : List Event} {b : TakenBack} {r s : Run} :
    Logged m (p :: past) r → r.log.records = record :: older →
    undo record { r with log := ⟨older⟩, events } = .ok b s →
    Logged m (past.map (Juncture.note record)) s
  | gaveUp {past : List Juncture} {r s : Run} :
    Logged m past r → (∀ id, r.Discarded id → ¬r.Needs id) → giveUpLog r = .ok () s → Logged m [] s

variable {p : Juncture} {past : List Juncture}

/-- Taking back leads along the junctures, and nothing is cleared but what the records name. -/
structure Recorded (m : Machine) (past : List Juncture) (r : Run) : Prop
    extends Tidy False r where
  orderly : Orderly r.view
  trail : Juncture.Trail m r.unread r.log.records past r.view (Pool.get? r.forest)

lemma Juncture.nodes_start (r : Run) : (Juncture.mk r []).nodes = Pool.get? r.forest := by
  funext id
  exact Option.map_id'

lemma Recorded.changed (h : Recorded m past r) (hs : Mutates m record r s) :
    Recorded m (⟨r, []⟩ :: past) s := by
  refine ⟨hs.tidy, h.orderly.change hs.change, ?_⟩
  rw [hs.log]
  refine .cons ?_ ⟨h.orderly, rfl, hs.change, ?_, ?_, nofun⟩
  · rw [Juncture.nodes_start]
    exact h.trail.mono hs.unread
  · rw [Juncture.nodes_start]
    exact hs.stays
  · rw [Juncture.nodes_start]
    exact hs.states

/-- A traced run with a record has a juncture for it, and gives it back. -/
lemma Recorded.undone (h : Recorded m past r) (hlog : r.log.records = record :: older)
    (events : List Event) : ∃ p before s, past = p :: before ∧
      undo record { r with log := ⟨older⟩, events } = .ok record.takenBack s ∧
      Recorded m (before.map (Juncture.note record)) s ∧ s.log.records = older ∧
      s.view = p.run.view ∧ Pool.get? s.forest = (p.note record).nodes ∧
      p.run.log.records = older := by
  have htrail := h.trail
  rw [hlog] at htrail
  generalize hnodes : Pool.get? r.forest = nodes at htrail
  cases htrail with
  | @cons p _ _ before _ _ htrail hp =>
    rw [← hnodes] at hp
    obtain ⟨s, hundo, hs, hunread, hrecords, hview, hforest⟩ := hp.regains h.toTidy events
    refine ⟨p, before, s, rfl, hundo, ⟨hs, hview ▸ hp.orderly, ?_⟩, hrecords, hview, hforest,
      hp.log⟩
    have hnoted := htrail.note fun id hleaves _ => (hp.change.left hp.orderly hleaves).1
    rw [hunread, hrecords, hview, hforest, funext (Juncture.nodes_note record p)]
    exact hnoted

lemma Logged.recorded (h : Logged m past r) : Recorded m past r := by
  induction h with
  | fresh hfresh =>
    obtain ⟨blockLength, blockLimit, target, hinitial⟩ := hfresh.eq
    refine ⟨hfresh.tidy, hfresh.orderly, ?_⟩
    rw [hinitial]
    exact .nil
  | quiet _ hsilent ih =>
    refine ⟨⟨hsilent.attached, hsilent.forest ▸ ih.pool, nofun⟩, hsilent.view ▸ ih.orderly, ?_⟩
    rw [hsilent.log, hsilent.view, hsilent.forest]
    exact ih.trail.mono hsilent.unread
  | changed _ hs ih => exact ih.changed hs
  | undone _ hlog hundo ih =>
    obtain ⟨p, before, s, hpast, hundo', hs, -⟩ := ih.undone hlog _
    obtain ⟨rfl, rfl⟩ := List.cons.inj hpast
    obtain ⟨-, rfl⟩ := EStateM.Result.ok.inj (hundo.symm.trans hundo')
    exact hs
  | @gaveUp past r s _ hspared hgive ih =>
    have hgiven := givenUp_of_ok hgive
    refine ⟨⟨?_, sound_giveUpLog ih.pool hgive, nofun⟩, hgiven.orderly hspared ih.orderly, ?_⟩
    · rw [hgiven.same]
      exact ih.attached
    · rw [show s.log.records = [] by rw [hgiven.same]; rfl]
      exact .nil

end Rewind.Run
