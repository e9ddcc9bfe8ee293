import Rewind.Proofs.Flat
import Rewind.Proofs.Invariants
import Rewind.Proofs.Provision
import Rewind.Proofs.Requests

/-!
# Runs that are ready to take everything back

A run is ready for the records of its log if the log can count on what the run holds.  Every move of
a run keeps it so, and so does whatever a caller may ask for, as long as the stream stays and the
caller edits no node that the log counts on.
-/

namespace Rewind.Run

open Attempt Op

variable {f g : Forest} {older : List Record} {record : Record} {id : NodeId} {n : Node}
  {ids : List NodeId} {m : Machine} {r s t : Run} {a : Option Status} {stream rest : Stream}

/-- The number of items at hand. -/
def hand (r : Run) : Nat :=
  (r.scanner.stream.map fun s => s.buffered.length).getD 0

/-- A stream is attached, and the records can count on what the run holds. -/
structure ReadyFor (records : List Record) (r : Run) : Prop where
  attached : r.scanner.stream.isSome
  stocked : Stocked records r.forest r.hand

/-- The run is ready to take back all that its log tells of. -/
abbrev Provided (r : Run) : Prop :=
  ReadyFor r.log.records r

lemma ReadyFor.provided {records : List Record} {r : Run} (h : ReadyFor records r)
    (hlog : r.log.records = records) : Provided r := by
  rwa [Provided, hlog]

lemma hand_eq (hs : r.scanner.stream = some stream) : r.hand = stream.buffered.length := by
  rw [hand, hs]
  rfl

lemma length_content (s : Stream) : s.content.length = s.buffered.length + s.unread.length := by
  rw [Stream.content, List.length_append, List.length_map]

/-- What was taken from the front is missing at hand, at most. -/
lemma hand_takes {text : Bytes} (hs : r.scanner.stream = some stream)
    (htakes : Takes stream rest text) : r.hand ≤ rest.buffered.length + text.length := by
  have hlength := congrArg List.length htakes.content
  rw [List.length_append, List.length_map, length_content, length_content] at hlength
  have hunread := htakes.unread
  rw [hand_eq hs]
  omega

lemma hand_takes_tree {ignore : Bool} (hs : r.scanner.stream = some stream)
    (hcontent : stream.content = .tree id ignore :: rest.content)
    (hunread : rest.unread = stream.unread) : r.hand ≤ rest.buffered.length + 1 := by
  have hlength := congrArg List.length hcontent
  rw [List.length_cons, length_content, length_content, hunread] at hlength
  rw [hand_eq hs]
  omega

namespace Provided

/-- Nothing that the log counts on has changed. -/
lemma quiet (h : Provided r) (hstream : s.scanner.stream = r.scanner.stream)
    (hforest : s.forest = r.forest) (hlog : s.log = r.log) : Provided s where
  attached := hstream ▸ h.attached
  stocked := by
    rw [hlog, hforest, hand, hstream]
    exact h.stocked

lemma rescans (h : Provided r) (hrescans : Rescans r s) : Provided s := by
  obtain ⟨stream, rest, scanner, hs, hs', hextends, rfl⟩ := hrescans
  obtain ⟨more, hmore⟩ := hextends.buffered
  refine ⟨by rw [hs']; rfl, h.stocked.keep h.stocked.sound (.refl _ _ _) ?_⟩
  rw [hand_eq hs, hand_eq (r := { r with scanner }) hs', hmore, List.length_append]
  omega

/-- A record is written that tells of no slot, and of nothing that was pushed. -/
lemma write (h : Provided r) (hlog : s.log = r.log.append record)
    (hslot : record.slot? = none) (hremoved : record.removed = 0) (hforest : s.forest = r.forest)
    (hattached : s.scanner.stream.isSome) (hhand : r.hand ≤ s.hand + record.returned s.forest) :
    Provided s where
  attached := hattached
  stocked := by
    rw [hlog]
    refine h.stocked.next (hforest ▸ h.stocked.sound) (hforest ▸ .refl _ _ _) ?_ ?_ ?_
    · intro id hid
      rw [hslot] at hid
      cases hid
    · omega
    · omega

/-- Such a record is written, and the stream stays as it is. -/
lemma note (h : Provided r) (hlog : s.log = r.log.append record) (hslot : record.slot? = none)
    (hremoved : record.removed = 0) (hforest : s.forest = r.forest)
    (hstream : s.scanner.stream = r.scanner.stream) : Provided s := by
  refine h.write hlog hslot hremoved hforest (hstream ▸ h.attached) ?_
  rw [show s.hand = r.hand by rw [hand, hand, hstream]]
  omega

/-- A record is written that tells of a new node. -/
lemma place {forest : Forest} (h : Provided r) (hlog : s.log = r.log.append record)
    (hslot : record.slot? = some id) (halloc : Pool.alloc r.forest n = (.ok id, forest))
    (hsound : Pool.Sound s.forest)
    (hkept : Preserves (id :: used r.log.records) none forest s.forest)
    (hbare : record = .sent id → n.child = none ∧ n.ignored = none)
    (hattached : s.scanner.stream.isSome) (hremoved : record.removed ≤ s.hand)
    (hhand : r.hand ≤ s.hand - record.removed + record.returned s.forest) : Provided s where
  attached := hattached
  stocked := by
    obtain ⟨hvacant, hget⟩ := Pool.get?_of_alloc h.stocked.sound halloc
    have hnew : Pool.get? forest id = some n := by rw [hget, Function.update_self]
    rw [hlog]
    refine h.stocked.next hsound ?_ ?_ hremoved hhand
    · intro j hj n' hn'
      have hplaced : Preserves (used r.log.records) none r.forest forest :=
        .alloc h.stocked.sound halloc
      obtain ⟨n₁, hn₁, htext₁, hchild₁, hignored₁⟩ := hplaced j hj n' hn'
      obtain ⟨n₂, hn₂, htext₂, hchild₂, hignored₂⟩ := hkept j (.tail _ hj) n₁ hn₁
      refine ⟨n₂, hn₂, htext₂.trans htext₁, hchild₂.trans hchild₁, ?_⟩
      grind
    · intro j hj
      obtain rfl : id = j := Option.some.inj (hslot.symm.trans hj)
      obtain ⟨n', hn', -, hchild, hignored⟩ := hkept id (.head _) n hnew
      refine ⟨hvacant, n', hn', fun hsent => ?_⟩
      obtain ⟨hnone, hnone'⟩ := hbare hsent
      refine ⟨hchild.trans hnone, ?_⟩
      grind

end Provided

/-! ## Going forward -/

lemma provided_marked (h : Provided r) : Provided (marked r) := by
  unfold marked
  split
  · exact h.note rfl rfl rfl rfl rfl
  · exact h

lemma returned_token {text : Bytes} (hn : Pool.get? f id = some n) (htext : n.text = text) :
    ((Pool.get? f id).map Node.text).elim 0 List.length = text.length := by
  rw [hn, ← htext]
  rfl

/-- Whatever is acquired can be returned. -/
lemma provided_acquires {found : Acquired} (h : Provided r) (hacquires : Acquires m r found s) :
    Provided s := by
  have hmarked := provided_marked h
  obtain ⟨hscanner, hforest, -, -⟩ := sameCourse_marked r
  have hhand : (marked r).hand = r.hand := by rw [hand, hand, hscanner]
  cases hacquires with
  | consumed _ _ _ hs htakes =>
    refine hmarked.write rfl rfl rfl rfl rfl ?_
    rw [hhand]
    exact hand_takes hs htakes
  | @skipped region element text stream rest id forest _ _ _ _ hs htakes halloc =>
    obtain ⟨-, hget⟩ := Pool.get?_of_alloc hmarked.stocked.sound halloc
    have hnew : Pool.get? forest id = some (Node.token element text ⟨r.position, text.length⟩) := by
      rw [hget, Function.update_self]
    refine hmarked.place rfl rfl halloc
      ((Pool.sound_of_alloc hmarked.stocked.sound halloc).put hnew)
      (.put hnew rfl rfl (.inl rfl)) ?_ rfl (Nat.zero_le _) ?_
    · rintro ⟨⟩
    · rw [hhand, Record.returned, returned_token (Pool.get?_put_self hnew) rfl]
      exact hand_takes hs htakes
  | @queued region element text stream rest id forest _ _ _ _ hs htakes halloc =>
    obtain ⟨-, hget⟩ := Pool.get?_of_alloc hmarked.stocked.sound halloc
    refine hmarked.place rfl rfl halloc (Pool.sound_of_alloc hmarked.stocked.sound halloc)
      (.refl _ _ _) ?_ rfl (Nat.zero_le _) ?_
    · rintro ⟨⟩
    · rw [hhand, Record.returned, returned_token (by rw [hget, Function.update_self]) rfl]
      exact hand_takes hs htakes
  | @treeSkipped region id n stream rest _ hs hcontent _ hunread hn =>
    refine ⟨rfl, hmarked.stocked.next (hmarked.stocked.sound.put hn)
      (.put hn rfl rfl (.inl rfl)) ?_ (Nat.zero_le _) ?_⟩
    · rintro _ ⟨⟩
    · rw [hhand]
      exact hand_takes_tree hs hcontent hunread
  | treeQueued _ hs hcontent _ hunread _ =>
    refine hmarked.write rfl rfl rfl rfl rfl ?_
    rw [hhand]
    exact hand_takes_tree hs hcontent hunread
  | preEof => exact h.note rfl rfl rfl rfl rfl
  | ended _ _ _ halloc =>
    refine h.place rfl rfl halloc (Pool.sound_of_alloc h.stocked.sound halloc) (.refl _ _ _) ?_
      h.attached (Nat.zero_le _) (Nat.le_add_right _ _)
    rintro ⟨⟩
  | noToken => exact h

lemma provided_shift {target : StateId} {alternative : Nat} {more : Bool} {u : Unit}
    (h : Provided r) (hshift : shift m id target alternative more r = .ok u s) : Provided s := by
  obtain ⟨rest, n, -, hn, rfl⟩ := shift_ok hshift
  refine ⟨h.attached, h.stocked.next (h.stocked.sound.put hn) (.put hn rfl rfl ?_) ?_
    (Nat.zero_le _) (Nat.le_add_right _ _)⟩
  · cases carried m n r.aside with
    | none => exact .inl rfl
    | some first => exact .inr (.inr rfl)
  · rintro _ ⟨⟩

lemma preserves_linkSiblings {u : Unit} (hlink : linkSiblings ids r = .ok u s)
    (hr : Pool.Sound r.forest) :
    Pool.Sound s.forest ∧ ∀ among, Preserves among none r.forest s.forest := by
  induction ids generalizing r with
  | nil =>
    cases hlink
    exact ⟨hr, fun among => .refl _ _ _⟩
  | cons id ids ih =>
    obtain ⟨u, t, hchange, hrest⟩ := bind_eq_ok.1 hlink
    obtain ⟨n, hn, rfl⟩ := change_eq_ok.1 hchange
    obtain ⟨hsound, hkept⟩ := ih hrest (hr.put hn)
    refine ⟨hsound, fun among => ?_⟩
    have hfirst : Preserves among none r.forest (r.forest.put id { n with next := ids.head? }) :=
      .put hn rfl rfl (.inl rfl)
    exact hfirst.trans (hkept among)

lemma provided_reduce {production : ProductionId} {alternative : Nat} {more commits : Bool}
    (h : Provided r) (hreduce : reduce m production alternative more commits r = .ok a s) :
    Provided s := by
  obtain ⟨info, children, below, span, tree, made, linked, state, -, -, -, halloc, hlink, -, -,
    rfl⟩ := reduce_ok hreduce
  obtain ⟨hsound, hkept⟩ := preserves_linkSiblings (hlink { r with forest := made } rfl)
    (Pool.sound_of_alloc h.stocked.sound halloc)
  refine h.place rfl rfl halloc hsound (hkept _) ?_ h.attached (Nat.zero_le _)
    (Nat.le_add_right _ _)
  rintro ⟨⟩

lemma provided_act {decision : Grammar.Decision} {target : StateId} {commits : Bool}
    (h : Provided r) (hact : act m id decision target commits r = .ok a s) : Provided s := by
  unfold act at hact
  cases haction : decision.action with
  | shift =>
    rw [haction] at hact
    obtain ⟨u, t, hshift, h1⟩ := bind_eq_ok.1 hact
    cases h1
    exact provided_shift h hshift
  | reduce production =>
    rw [haction] at hact
    exact provided_reduce h hact
  | shiftReduce production =>
    rw [haction] at hact
    obtain ⟨u, t, hshift, h1⟩ := bind_eq_ok.1 hact
    exact provided_reduce (provided_shift h hshift) h1

lemma provided_completeStep {commits : Bool} (h : Provided r)
    (hcomplete : completeStep m commits r = .ok a s) : Provided s := by
  have hclosed : Provided (closed commits r) := by
    cases commits with
    | true => exact h.note rfl rfl rfl rfl rfl
    | false => exact h
  have hstepped : Provided (stepped commits r) := hclosed.note rfl rfl rfl rfl rfl
  obtain ⟨reached, -, ⟨-, -, rfl⟩ | ⟨-, -, -, rfl⟩ | ⟨-, -, -, rfl⟩⟩ := completeStep_ok hcomplete
  · exact hstepped.quiet rfl rfl rfl
  · exact hstepped.quiet rfl rfl rfl
  · exact hstepped

lemma provided_forwards (h : Provided r) (hforwards : Forwards m r a s) : Provided s := by
  cases hforwards with
  | stepped _ hsteps =>
    cases hsteps with
    | refused => exact h.quiet rfl rfl rfl
    | @suspended n decision _ _ _ _ _ _ _ _ hact =>
      exact provided_act (h.quiet (s := decided n.element decision r) rfl rfl rfl) hact
    | @completed n decision _ _ _ _ _ _ _ _ _ hact hcomplete =>
      exact provided_completeStep
        (provided_act (h.quiet (s := decided n.element decision r) rfl rfl rfl) hact) hcomplete
  | acquired _ hrescans hacquires =>
    rcases hacquires with hacquires | hacquires <;>
      exact provided_acquires (h.rescans hrescans) hacquires
  | suspended _ hrescans hacquires => exact provided_acquires (h.rescans hrescans) hacquires
  | refused _ hrescans _ _ => exact (h.rescans hrescans).quiet rfl rfl rfl

lemma provided_goForward (h : Provided r) (hlasts : Lasts (goForward m) r s) : Provided s := by
  rcases hlasts with ⟨a, hrun⟩ | ⟨e, he, hrun⟩
  · exact provided_forwards h (goForward_ok h.stocked.sound h.attached hrun)
  · obtain ⟨t, -, rfl, ⟨id, rest, n, -, -, -, -, rfl⟩ | ⟨region, -, hrescans, -, -⟩⟩ :=
      goForward_error h.stocked.sound h.attached he hrun
    · exact h.quiet rfl rfl rfl
    · exact (h.rescans hrescans).quiet rfl rfl rfl

lemma provided_enter {entry : Entry} (h : Provided r) (hlasts : Lasts (enter m entry) r s) :
    Provided s := by
  rcases hlasts with ⟨a, hrun⟩ | ⟨e, he, hrun⟩
  · cases enter_ok hrun with
    | done _ => exact h
    | back _ => exact h
    | start _ _ => exact h
    | action _ _ => exact h.quiet rfl rfl rfl
    | reduction _ _ hresume =>
      rcases resumeReduction_ok hresume with ⟨-, -, -, span, rfl⟩ | ⟨-, hcomplete⟩
      · exact h.quiet rfl rfl rfl
      · exact provided_completeStep
          (h.quiet (s := { r with point := .start }) rfl rfl rfl) hcomplete
  · rcases enter_error he hrun with ⟨-, -, rfl⟩ | ⟨production, commits, -, -, hresume⟩
    · exact h
    · obtain ⟨-, -, span, -, rfl, -⟩ := resumeReduction_error he hresume
      exact h.quiet rfl rfl rfl

/-! ## Taking back -/

lemma length_putBack (s : Stream) (text : Bytes) (position : Position) :
    (s.putBack text position).buffered.length = s.buffered.length + text.length := by
  rw [Stream.putBack, List.length_append, List.length_map, Nat.add_comm]

lemma length_pushback (s : Stream) (n : Nat) :
    (s.pushback n).2.buffered.length = s.buffered.length - n :=
  List.length_drop ..

lemma restack_eq_ok {u : Unit} (h : restack ids r = .ok u s) (hr : Pool.Sound r.forest) :
    ∃ forest stack, s = { r with forest, stack } ∧ Pool.Sound forest ∧
      ∀ among, Preserves among none r.forest forest := by
  induction ids generalizing r with
  | nil =>
    cases h
    exact ⟨_, _, rfl, hr, fun among => .refl _ _ _⟩
  | cons id ids ih =>
    rw [restack, get_bind] at h
    obtain ⟨u, t, hchange, h1⟩ := bind_eq_ok.1 h
    obtain ⟨n, hn, rfl⟩ := change_eq_ok.1 hchange
    obtain ⟨forest, stack, rfl, hsound, hkept⟩ := ih h1 (hr.put hn)
    have hfirst (among : List NodeId) :
        Preserves among none r.forest (r.forest.put id { n with next := r.stack }) :=
      .put hn rfl rfl (.inl rfl)
    exact ⟨forest, stack, rfl, hsound, fun among => (hfirst among).trans (hkept among)⟩

/-- The newest record is taken back, if it needs no ignored tokens for it. -/
lemma ReadyFor.back (h : ReadyFor (record :: older) r) (hladen : record.laden? = none)
    (hattached : s.scanner.stream.isSome) (hsound : Pool.Sound s.forest)
    (hkept : Preserves (used older) none r.forest s.forest)
    (hmore : r.hand - record.removed + record.returned r.forest ≤ s.hand) : ReadyFor older s := by
  refine ⟨hattached, h.stocked.back hsound hkept (fun id n hid => ?_) hmore⟩
  rw [hladen] at hid
  cases hid

/-- The slot of the newest record holds a node. -/
lemma ReadyFor.exists_node {id : NodeId} (h : ReadyFor (record :: older) r)
    (hslot : record.slot? = some id) : ∃ n, Pool.get? r.forest id = some n :=
  Option.isSome_iff_exists.1 (h.stocked.live id (mem_used_of_slot List.mem_cons_self hslot))

/-- A record that tells neither of a node nor of the stream is taken back. -/
lemma ReadyFor.plain (h : ReadyFor (record :: older) r) (hladen : record.laden? = none)
    (hremoved : record.removed = 0) (hreturned : record.returned r.forest = 0)
    (hforest : s.forest = r.forest) (hstream : s.scanner.stream = r.scanner.stream) :
    ReadyFor older s := by
  have hhand : s.hand = r.hand := by rw [hand, hand, hstream]
  refine h.back hladen (hstream ▸ h.attached) (hforest ▸ h.stocked.sound) ?_ (by omega)
  rw [hforest]
  exact .refl _ _ _

/-- The text of a token goes back to the stream. -/
lemma ReadyFor.unscan {id : NodeId} {start : Position} {queue : List NodeId}
    {aside : Option NodeId} (h : ReadyFor (record :: older) r) (hladen : record.laden? = none)
    (hslot : record.slot? = some id) (hremoved : record.removed = 0)
    (hreturned : record.returned r.forest =
      ((Pool.get? r.forest id).map Node.text).elim 0 List.length)
    (hrun : Run.unscan id start { r with queue, aside } = .ok () s) :
    ReadyFor older s ∧ s.log = r.log := by
  obtain ⟨stream, hs⟩ := Option.isSome_iff_exists.1 h.attached
  obtain ⟨n, hn⟩ := h.exists_node hslot
  rw [unscan_ok (r := { r with queue, aside }) hn hs] at hrun
  cases hrun
  refine ⟨h.back hladen rfl (h.stocked.sound.vacate hn) (.vacate (h.stocked.fresh hslot)) ?_, rfl⟩
  rw [hreturned, hremoved, hn, hand_eq hs]
  exact (length_putBack stream n.text start).ge

/-- A token that was queued by hand has nothing below it, so only its own slot is released. -/
lemma readyFor_sent {id : NodeId} {queue : List NodeId} (h : ReadyFor (.sent id :: older) r)
    (hfree : releaseTree id { r with queue } = .ok () s) : ReadyFor older s ∧ s.log = r.log := by
  obtain ⟨n, hn, hchild, hignored | ⟨_, hmem, -⟩⟩ := h.stocked.bare [] id older rfl
  · have hleaf : Forest.freeTree r.forest id = .ok (r.forest.vacate id) :=
      Forest.freeTree_leaf hn hchild hignored
    rw [releaseTree] at hfree
    simp only [hleaf] at hfree
    cases hfree
    exact ⟨h.back rfl h.attached (h.stocked.sound.vacate hn) (.vacate (h.stocked.fresh rfl))
      (Nat.le_refl _), rfl⟩
  · cases hmem

/-- The ignored tokens that a node took along are set aside again. -/
lemma ReadyFor.shifted {id : NodeId} {previous : StateId} {ignored : Option NodeId}
    {alternative : Nat} {more : Bool} {n : Node}
    (h : ReadyFor (.shifted id previous ignored alternative more :: older) r)
    (hn : Pool.get? r.forest id = some n) (hstream : s.scanner.stream = r.scanner.stream)
    (hforest : s.forest = r.forest.put id { n with
      next := none
      state := 0
      ignored := if ignored.isSome then none else n.ignored }) : ReadyFor older s := by
  have hhand : s.hand = r.hand := by rw [hand, hand, hstream]
  refine ⟨hstream ▸ h.attached, ?_⟩
  rw [hforest, hhand]
  refine h.stocked.back (h.stocked.sound.put hn) (.put hn rfl rfl ?_) ?_ (Nat.le_refl _)
  · cases ignored with
    | none => exact .inl rfl
    | some first => exact .inr (.inl rfl)
  · intro j n' hladen hn'
    cases ignored with
    | none => cases hladen
    | some first =>
      cases hladen
      rw [Pool.get?_put_self hn] at hn'
      cases hn'
      rfl

/-- Taking a record back leaves a run that is ready to take back those before. -/
lemma readyFor_undoing (h : ReadyFor (record :: older) r) (hundo : Undoing r record s) :
    ReadyFor older s ∧ s.log = r.log := by
  have hsound := h.stocked.sound
  cases hundo with
  | scanned hback => exact h.unscan rfl rfl rfl rfl hback
  | setAside _ hback => exact h.unscan rfl rfl rfl rfl hback
  | treeSkipped hn hs =>
    refine ⟨h.back rfl rfl (hsound.put hn) (.put hn rfl rfl (.inl rfl)) ?_, rfl⟩
    rw [hand_eq hs]
    exact Nat.le_refl _
  | treeQueued hs =>
    refine ⟨h.back rfl rfl hsound (.refl _ _ _) ?_, rfl⟩
    rw [hand_eq hs]
    exact Nat.le_refl _
  | consumed hs =>
    refine ⟨h.back rfl rfl hsound (.refl _ _ _) ?_, rfl⟩
    rw [hand_eq hs]
    exact (length_putBack _ _ _).ge
  | sent hfree => exact readyFor_sent h hfree
  | textPushed hs =>
    refine ⟨h.back rfl rfl hsound (.refl _ _ _) ?_, rfl⟩
    rw [hand_eq hs]
    exact (length_pushback _ _).ge
  | @treePushed _ stream _ _ hs hrelease =>
    obtain ⟨n, hn⟩ := h.exists_node rfl
    rw [release_ok (r := { r with
      scanner := { r.scanner with stream := some (stream.pushback 1).2 } }) hn] at hrelease
    cases hrelease
    refine ⟨h.back rfl rfl (hsound.vacate hn) (.vacate (h.stocked.fresh rfl)) ?_, rfl⟩
    rw [hand_eq hs]
    exact (length_pushback _ _).ge
  | shifted hn => exact ⟨h.shifted hn rfl rfl, rfl⟩
  | @reduced tree _ _ _ _ _ _ _ _ hqueue hrestack hrelease =>
    obtain ⟨forest, stack, rfl, hsound', hkept⟩ := restack_eq_ok hrestack hsound
    obtain ⟨n, hn⟩ := Option.isSome_iff_exists.1 ((hkept [tree]).live List.mem_cons_self
      (h.stocked.live tree (mem_used_of_slot List.mem_cons_self rfl)))
    rw [release_ok hn] at hrelease
    cases hrelease
    exact ⟨h.back rfl h.attached (hsound'.vacate hn)
      ((hkept _).trans (.vacate (h.stocked.fresh rfl))) (Nat.le_refl _), rfl⟩
  | bound => exact ⟨h.plain rfl rfl rfl rfl rfl, rfl⟩
  | dropped => exact ⟨h.plain rfl rfl rfl rfl rfl, rfl⟩
  | committed => exact ⟨h.plain rfl rfl rfl rfl rfl, rfl⟩
  | endActionMarked => exact ⟨h.plain rfl rfl rfl rfl rfl, rfl⟩
  | action => exact ⟨h.plain rfl rfl rfl rfl rfl, rfl⟩
  | stepEnded => exact ⟨h.plain rfl rfl rfl rfl rfl, rfl⟩

/-- A move back leaves a run that is ready to take back the rest of its log. -/
theorem provided_unwind {goal : Goal} {records : List Record} (h : ReadyFor records r)
    (hlog : r.log.records = records) (hunwind : unwind m goal records r = .ok a s) :
    Provided s := by
  have hsettle {q : Run} (hq : Provided q)
      (hrun : (do return some (← settle m) : Op (Option Status)) q = .ok a s) : Provided s := by
    obtain ⟨status, t, hsettled, h1⟩ := bind_eq_ok.1 hrun
    cases h1
    rw [settle, get_bind] at hsettled
    obtain ⟨reached, u, hlook, h2⟩ := bind_eq_ok.1 hsettled
    obtain ⟨-, rfl⟩ := lookup_eq_ok.1 hlook
    cases h2
    exact hq.quiet rfl rfl rfl
  induction records generalizing r with
  | nil =>
    rw [unwind, get_bind] at hunwind
    split at hunwind
    · exact hsettle (h.provided hlog) hunwind
    · cases hunwind
  | cons record older ih =>
    rw [unwind, get_bind] at hunwind
    split at hunwind
    · exact hsettle (h.provided hlog) hunwind
    · rw [modify_bind, tell_bind] at hunwind
      obtain ⟨taken, t, hundo, h1⟩ := bind_eq_ok.1 hunwind
      have hbegun : ReadyFor (record :: older) (begun record older r) := ⟨h.attached, h.stocked⟩
      obtain ⟨ht, hsame⟩ := readyFor_undoing hbegun (undo_ok hundo).2
      have hlog' : t.log.records = older := congrArg Journal.records hsame
      have hprovided := ht.provided hlog'
      cases taken with
      | action data =>
        cases h1
        exact hprovided
      | plain => cases goal <;> exact ih ht hlog' h1
      | decision alternative =>
        cases goal with
        | step target => exact ih ht hlog' h1
        | backtrack =>
          cases h1
          exact hprovided.quiet rfl rfl rfl

/-- The log can count on what a run holds, whatever moves the run makes. -/
theorem steady_provided (m : Machine) : Steady m Provided where
  enter _ _ _ h hlasts := provided_enter h hlasts
  turn r s h hlasts := by
    rcases lasts_turn hlasts with ⟨hforward, -⟩ | ⟨goal, -, hback⟩ | rfl
    · exact provided_goForward h hforward
    · rcases hback with ⟨a, hrun⟩ | ⟨e, he, hrun⟩
      · exact provided_unwind h rfl hrun
      · rw [grave_unwind m goal r.log.records hrun] at he
        cases he
    · exact h
  events r events h := h.quiet rfl rfl rfl

/-! ## Requests -/

/-- What the caller edits by hand leaves alone what the log counts on. -/
def Spared (edit : Forest → Forest) (r : Run) : Prop :=
  Pool.Sound (edit r.forest) ∧ Preserves (used r.log.records) none r.forest (edit r.forest)

lemma provided_bind {name : VariableId} (h : Provided r) (id : NodeId) :
    Provided { r with
      log := r.log.append (.bound name (r.bindings.get? name))
      bindings := r.bindings.insert name id } :=
  h.note rfl rfl rfl rfl rfl

lemma provided_pushText {text : Bytes} (h : Provided r) (hends : Ends (pushText text) r s) :
    Provided s := by
  obtain ⟨stream, hs⟩ := Option.isSome_iff_exists.1 h.attached
  rcases hends with ⟨u, hrun⟩ | ⟨e, hrun⟩ <;> (rw [pushText_apply hs] at hrun; cases hrun)
  split
  · exact h
  · have hlength : (stream.pushText text).buffered.length = text.length + r.hand := by
      rw [Stream.pushText, List.length_append, List.length_map, hand_eq hs]
    refine ⟨rfl, h.stocked.next h.stocked.sound (.refl _ _ _) ?_ ?_ ?_⟩
    · rintro _ ⟨⟩
    · change text.length ≤ (stream.pushText text).buffered.length
      omega
    · change r.hand ≤ (stream.pushText text).buffered.length - text.length + 0
      omega

lemma provided_pushTree {tree : Node} {ignore : Bool} (h : Provided r)
    (hends : Ends (pushTree tree ignore) r s) : Provided s := by
  obtain ⟨stream, hs⟩ := Option.isSome_iff_exists.1 h.attached
  rcases pushTree_ends hs hends with rfl | ⟨slot, forest, halloc, rfl⟩
  · exact h
  · refine h.place rfl rfl halloc (Pool.sound_of_alloc h.stocked.sound halloc) (.refl _ _ _) ?_ rfl
      ?_ ?_
    · rintro ⟨⟩
    · exact Nat.succ_le_succ (Nat.zero_le _)
    · exact Nat.le_of_eq (hand_eq hs)

lemma provided_queueToken {element : ElementId} {text : Bytes} {name : Option VariableId}
    (h : Provided r) (hends : Ends (queueToken element text name) r s) : Provided s := by
  rcases hends with ⟨id, hrun⟩ | ⟨e, hrun⟩
  · obtain ⟨id, t, hmake, h1⟩ := bind_eq_ok.1 hrun
    obtain ⟨forest, halloc, rfl⟩ := alloc_eq_ok.1 hmake
    have hsent : Provided { r with
        forest, queue := r.queue ++ [id], log := r.log.append (.sent id) } :=
      h.place rfl rfl halloc (Pool.sound_of_alloc h.stocked.sound halloc) (.refl _ _ _)
        (fun _ => ⟨rfl, rfl⟩) h.attached (Nat.zero_le _) (Nat.le_add_right _ _)
    cases name with
    | none =>
      cases h1
      exact hsent
    | some name =>
      cases h1
      exact provided_bind hsent id
  · rcases bind_eq_error.1 hrun with hfail | ⟨id, t, hmake, h1⟩
    · obtain rfl := alloc_error hfail
      exact h
    · cases name <;> cases h1

lemma provided_giveUpLog (h : Provided r) (hends : Ends giveUpLog r s) : Provided s := by
  rcases hends with ⟨u, hrun⟩ | ⟨e, hrun⟩
  · rw [giveUpLog, get_bind] at hrun
    obtain ⟨forest, t, hlook, h1⟩ := bind_eq_ok.1 hrun
    obtain ⟨hrelease, rfl⟩ := lookup_eq_ok.1 hlook
    cases h1
    refine ⟨h.attached, .of_nil ?_ _⟩
    refine Pool.Sound.foldlM (fun f head g hf hchain => ?_) h.stocked.sound hrelease
    obtain ⟨ids, -, htrees⟩ := Except.bind_eq_ok.1 hchain
    exact hf.foldlM (fun f id g hf => hf.freeAll) htrees
  · rw [giveUpLog, get_bind] at hrun
    rcases bind_eq_error.1 hrun with hlook | ⟨forest, t, -, h1⟩
    · exact absurd hlook lift_ne_error
    · cases h1

/-- A request is met, with a reply. -/
lemma ends_of_reply {α : Type} {op : Op α} {reply : α → Reply}
    (h : Ends (do return reply (← op)) r s) : Ends op r s := by
  rcases h with ⟨a, hrun⟩ | ⟨e, hrun⟩
  · obtain ⟨a, t, hop, h1⟩ := bind_eq_ok.1 hrun
    cases h1
    exact .inl ⟨a, hop⟩
  · rcases bind_eq_error.1 hrun with hop | ⟨a, t, -, h1⟩
    · exact .inr ⟨e, hop⟩
    · cases h1

lemma attach_refused (hs : r.scanner.stream = some rest) (stream : Stream) :
    attach stream r = .error (.error (.scan (.alreadyAttached stream))) r := by
  unfold attach onScanner Scanner.attach
  simp only [hs]

/-- Whatever the caller asks for, the log can count on what the run holds, unless the stream is
taken away or nodes are edited that it counts on. -/
theorem provided_perform {turns : Nat} {request : Request} (h : Provided r)
    (hdetach : request ≠ .detach) (hedit : ∀ edit, request = .editNodes edit → Spared edit r)
    (hends : Ends (perform m turns request) r s) (halive : s.aborted = false) : Provided s := by
  cases request with
  | detach => exact absurd rfl hdetach
  | attach stream =>
    obtain ⟨stream', hs⟩ := Option.isSome_iff_exists.1 h.attached
    rcases ends_of_reply hends with ⟨u, hrun⟩ | ⟨e, hrun⟩ <;>
      (rw [attach_refused hs] at hrun; cases hrun)
    exact h
  | parse entry => exact (steady_provided m).parse h (ends_of_reply hends) halive
  | undoTo target =>
    exact (steady_provided m).undoTo (h.quiet rfl rfl rfl) (ends_of_reply hends) halive
  | pushText text => exact provided_pushText h (ends_of_reply hends)
  | pushTree tree ignore => exact provided_pushTree h (ends_of_reply hends)
  | queueToken element text name => exact provided_queueToken h (ends_of_reply hends)
  | bind name id =>
    rcases ends_of_reply hends with ⟨u, hrun⟩ | ⟨e, hrun⟩ <;> cases hrun
    exact provided_bind h id
  | leaveData data =>
    rcases ends_of_reply hends with ⟨u, hrun⟩ | ⟨e, hrun⟩ <;> cases hrun
    exact h.note rfl rfl rfl rfl rfl
  | dropAside =>
    rcases ends_of_reply hends with ⟨u, hrun⟩ | ⟨e, hrun⟩ <;> cases hrun
    exact h.note rfl rfl rfl rfl rfl
  | reject =>
    rcases ends_of_reply hends with ⟨u, hrun⟩ | ⟨e, hrun⟩ <;>
      (unfold rejectNow reject at hrun; cases hpoint : r.point <;> simp only [hpoint] at hrun) <;>
      cases hrun <;> first | exact h | exact h.quiet rfl rfl rfl
  | giveUpLog => exact provided_giveUpLog h (ends_of_reply hends)
  | editNodes edit =>
    obtain ⟨hsound, hkept⟩ := hedit edit rfl
    rcases ends_of_reply hends with ⟨u, hrun⟩ | ⟨e, hrun⟩ <;> cases hrun
    exact ⟨h.attached, h.stocked.keep hsound hkept (Nat.le_refl _)⟩

end Rewind.Run
