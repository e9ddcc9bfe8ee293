import Mathlib.Data.List.Range
import Rewind.Proofs.Calls

/-!
# Slots are used in order

A run releases a slot only when it takes back the change that used it, so the slots behave like a
stack: those that the log tells of are the first ones ever opened, in the order of the log, and the
released ones follow, the lowest in front.  Which slot comes next is therefore told by the log
alone, whatever was done and taken back before.
-/

namespace Rewind

namespace Pool

variable {α : Type} {p q first : Pool α} {id : SlotId} {a b : α} {used : List SlotId} {opened : Nat}

/-! ## The next slot -/

lemma alloc_cases (h : p.alloc a = (.ok id, q)) :
    p.full? = none ∧ q.blockLength = p.blockLength ∧ q.blockLimit = p.blockLimit ∧
      ((p.released = id :: q.released ∧ q.slots.size = p.slots.size) ∨
        (p.released = [] ∧ q.released = [] ∧ id = p.slots.size ∧
          q.slots.size = p.slots.size + 1)) := by
  have hfull : p.full? = none := by
    unfold alloc at h
    split at h
    · cases h
    · assumption
  have hplace := alloc_eq_ok h
  unfold place at hplace
  split at hplace
  · rename_i rest hreleased
    cases hplace
    exact ⟨hfull, rfl, rfl, .inl ⟨hreleased, Array.size_setIfInBounds⟩⟩
  · rename_i hreleased
    cases hplace
    exact ⟨hfull, rfl, rfl, .inr ⟨hreleased, hreleased, rfl, Array.size_push ..⟩⟩

lemma alloc_of_full? (h : p.full? = none) (a : α) :
    p.alloc a = (.ok (p.place a).1, (p.place a).2) := by
  simp only [alloc, h]

/-! ## Slots as a stack -/

/-- The slots in use and then the released ones are all slots that were opened, in order, and no
fewer than in the first pool.  The blocks are those of the first pool. -/
structure Stacked (used : List SlotId) (first p : Pool α) : Prop where
  blockLength : p.blockLength = first.blockLength
  blockLimit : p.blockLimit = first.blockLimit
  order : used ++ p.released = List.range p.slots.size
  size : first.slots.size ≤ p.slots.size

namespace Stacked

lemma keep (h : Stacked used first p) (hslots : SameSlots p q) : Stacked used first q := by
  obtain ⟨hlength, hlimit, hsize, hreleased⟩ := hslots
  refine ⟨hlength.trans h.blockLength, hlimit.trans h.blockLimit, ?_, ?_⟩
  · rw [hreleased, hsize, h.order]
  · rw [hsize]
    exact h.size

/-- The next slot follows those in use. -/
lemma alloc (h : Stacked used first p) (halloc : p.alloc a = (.ok id, q)) :
    Stacked (used ++ [id]) first q := by
  obtain ⟨hfull, hlength, hlimit, ⟨hreleased, hsize⟩ | ⟨hreleased, hnone, rfl, hsize⟩⟩ :=
    alloc_cases halloc
  · refine ⟨hlength.trans h.blockLength, hlimit.trans h.blockLimit, ?_, ?_⟩
    · rw [List.append_assoc, List.singleton_append, ← hreleased, hsize, h.order]
    · rw [hsize]
      exact h.size
  · have horder := h.order
    rw [hreleased, List.append_nil] at horder
    refine ⟨hlength.trans h.blockLength, hlimit.trans h.blockLimit, ?_, ?_⟩
    · rw [hnone, List.append_nil, hsize, List.range_succ, horder]
    · rw [hsize]
      exact Nat.le_succ_of_le h.size

/-- The slot used last is the next one again when it is released. -/
lemma release (h : Stacked (used ++ [id]) first p)
    (hslots : SameSlots { p with released := id :: p.released } q) : Stacked used first q := by
  obtain ⟨hlength, hlimit, hsize, hreleased⟩ := hslots
  refine ⟨hlength.trans h.blockLength, hlimit.trans h.blockLimit, ?_, ?_⟩
  · rw [hreleased, hsize, ← h.order, List.append_assoc]
    rfl
  · rw [hsize]
    exact h.size

end Stacked

/-! ## A pool that is ahead -/

/-- The second pool has the slots of the first one, and as many more as make it as large as it says:
they are released, and come last. -/
structure Ahead (opened : Nat) (p q : Pool α) : Prop where
  blockLength : q.blockLength = p.blockLength
  blockLimit : q.blockLimit = p.blockLimit
  size : q.slots.size = max opened p.slots.size
  released : q.released =
    p.released ++ List.range' p.slots.size (q.slots.size - p.slots.size)

lemma Stacked.ahead (hp : Stacked used first p) (hq : Stacked used first q)
    (hsize : p.slots.size ≤ q.slots.size) : Ahead q.slots.size p q := by
  have hlength := hq.blockLength.trans hp.blockLength.symm
  have hlimit := hq.blockLimit.trans hp.blockLimit.symm
  refine ⟨hlength, hlimit, (Nat.max_eq_left hsize).symm, ?_⟩
  have horder := hq.order
  have hsplit : List.range q.slots.size =
      List.range p.slots.size ++ List.range' p.slots.size (q.slots.size - p.slots.size) := by
    have happend := List.range'_append_1 (s := 0) (m := p.slots.size)
      (n := q.slots.size - p.slots.size)
    rw [Nat.zero_add, Nat.add_sub_cancel' hsize] at happend
    rw [List.range_eq_range', List.range_eq_range', happend]
  rw [hsplit, ← hp.order, List.append_assoc] at horder
  exact List.append_cancel_left horder

namespace Ahead

lemma keep {p' q' : Pool α} (h : Ahead opened p q) (hp : SameSlots p p') (hq : SameSlots q q') :
    Ahead opened p' q' := by
  refine ⟨?_, ?_, ?_, ?_⟩
  · rw [hq.blockLength, hp.blockLength, h.blockLength]
  · rw [hq.blockLimit, hp.blockLimit, h.blockLimit]
  · rw [hq.size, hp.size, h.size]
  · rw [hq.released, hp.released, hq.size, hp.size, h.released]

/-- Both pools release the same slots. -/
lemma release (h : Ahead opened p q) (ids : List SlotId) :
    Ahead opened { p with released := ids ++ p.released }
      { q with released := ids ++ q.released } := by
  refine ⟨h.blockLength, h.blockLimit, h.size, ?_⟩
  have hreleased := h.released
  dsimp only at hreleased ⊢
  rw [hreleased, List.append_assoc]

/-- Where the first pool finds a slot, the second one finds the same. -/
lemma alloc {p' : Pool α} (h : Ahead opened p q) (halloc : p.alloc a = (.ok id, p')) (b : α) :
    ∃ q', q.alloc b = (.ok id, q') ∧ Ahead opened p' q' := by
  obtain ⟨hfull, hlength, hlimit, hcases⟩ := alloc_cases halloc
  have hsize := h.size
  have hreleased := h.released
  rcases hcases with ⟨hhead, hsize'⟩ | ⟨hnone, hnone', rfl, hsize'⟩
  · -- The slot was released in both.
    rw [hhead, List.cons_append] at hreleased
    have hroom : q.full? = none := by simp [full?, hreleased]
    refine ⟨(q.place b).2, ?_, ?_⟩
    · rw [alloc_of_full? hroom]
      simp [place, hreleased]
    · have hplace : (q.place b).2 = { q with
          slots := q.slots.setIfInBounds id (some b)
          released := p'.released ++
            List.range' p.slots.size (q.slots.size - p.slots.size) } := by
        simp [place, hreleased]
      rw [hplace]
      refine ⟨h.blockLength.trans hlength.symm, h.blockLimit.trans hlimit.symm, ?_, ?_⟩
      · simpa [hsize'] using hsize
      · simp [hsize']
  · rw [hnone, List.nil_append] at hreleased
    by_cases hmore : p.slots.size < opened
    · -- The first pool opens a slot that the second one has released.
      rw [hsize, Nat.max_eq_left (Nat.le_of_lt hmore),
        show opened - p.slots.size = (opened - (p.slots.size + 1)) + 1 by omega,
        List.range'_succ] at hreleased
      have hroom : q.full? = none := by simp [full?, hreleased]
      refine ⟨(q.place b).2, ?_, ?_⟩
      · rw [alloc_of_full? hroom]
        simp [place, hreleased]
      · have hplace : (q.place b).2 = { q with
            slots := q.slots.setIfInBounds p.slots.size (some b)
            released := List.range' (p.slots.size + 1) (opened - (p.slots.size + 1)) } := by
          simp [place, hreleased]
        rw [hplace]
        refine ⟨h.blockLength.trans hlength.symm, h.blockLimit.trans hlimit.symm, ?_, ?_⟩
        · simp only [Array.size_setIfInBounds, hsize, hsize']
          omega
        · simp only [Array.size_setIfInBounds, hsize, hsize', hnone', List.nil_append]
          congr 1
          omega
    · -- Both open a slot.
      have hsame : q.slots.size = p.slots.size := by omega
      rw [hsame, Nat.sub_self, List.range'_zero] at hreleased
      have hroom : q.full? = none := by
        rw [← hfull, full?, full?, blocks, blocks, hreleased, hnone, hsame, h.blockLength,
          h.blockLimit]
      refine ⟨(q.place b).2, ?_, ?_⟩
      · rw [alloc_of_full? hroom]
        simp [place, hreleased, hsame]
      · have hplace : (q.place b).2 = { q with slots := q.slots.push (some b) } := by
          simp [place, hreleased]
        rw [hplace]
        refine ⟨h.blockLength.trans hlength.symm, h.blockLimit.trans hlimit.symm, ?_, ?_⟩
        · simp only [Array.size_push, hsame, hsize']
          omega
        · simp [hreleased, hnone', hsame, hsize']

/-- Pools that hold the same are the same, once the first one has opened all the slots. -/
lemma eq (h : Ahead opened p q) (hle : opened ≤ p.slots.size) (hget : q.get? = p.get?) :
    q = p := by
  have hsize : q.slots.size = p.slots.size := h.size.trans (Nat.max_eq_right hle)
  have hreleased : q.released = p.released := by
    simpa [hsize] using h.released
  have hslots : q.slots = p.slots := by
    refine Array.ext hsize fun i hi hi' => ?_
    have hi'' := congrFun hget i
    simpa [get?, hi, hi'] using hi''
  obtain ⟨length, limit, pos, slots, released⟩ := q
  obtain ⟨length', limit', pos', slots', released'⟩ := p
  obtain rfl : length = length' := h.blockLength
  obtain rfl : limit = limit' := h.blockLimit
  obtain rfl : slots = slots' := hslots
  obtain rfl : released = released' := hreleased
  rfl

end Ahead

end Pool

namespace Run

open Attempt Op

variable {m : Machine} {first : Forest} {r s t : Run} {a : Option Status} {id : NodeId} {n : Node}
  {forest : Forest}

/-! ## Slots of a log -/

/-- The slots that records tell of, the one used first in front. -/
def used (records : List Record) : List NodeId :=
  (records.filterMap Record.slot?).reverse

@[simp] lemma used_cons (record : Record) (older : List Record) :
    used (record :: older) = used older ++ record.slot?.toList := by
  cases h : record.slot? <;> simp [used, h]

@[simp] lemma used_append (log : Journal Record) (record : Record) :
    used (log.append record).records = used log.records ++ record.slot?.toList :=
  used_cons ..

/-- The slots in use are those that the log tells of, and they are in order. -/
def InOrder (first : Forest) (r : Run) : Prop :=
  Pool.Stacked (used r.log.records) first r.forest

/-- The slot that taking back releases is the next one again. -/
lemma InOrder.back {record : Record} {older : List Record} (h : InOrder first r)
    (hlog : r.log.records = record :: older) (hreturns : Returns record r s)
    (holder : s.log.records = older) : InOrder first s := by
  have hslots := hreturns.slots
  rw [InOrder, hlog, used_cons] at h
  rw [InOrder, holder]
  cases hslot : record.slot? with
  | none =>
    rw [hslot] at h hslots
    rw [Option.toList_none, List.append_nil] at h
    exact h.keep hslots
  | some id =>
    rw [hslot] at h hslots
    exact h.release hslots

/-! ## What moves forward do to slots and states -/

/-- The log accounts for the slots that were used, and only nodes of the lookahead have entered a
state. -/
structure Accounts (r s : Run) : Prop where
  slots : ∀ ⦃first⦄, InOrder first r → InOrder first s
  states : Pool.Sound r.forest → ∀ ⦃id n⦄, id ∉ r.queue → Pool.get? r.forest id = some n →
    ∃ n', Pool.get? s.forest id = some n' ∧ n'.state = n.state

/-- No slot is used. -/
lemma accounts_same (hused : used s.log.records = used r.log.records)
    (hslots : Pool.SameSlots r.forest s.forest)
    (hstates : ∀ ⦃id n⦄, id ∉ r.queue → Pool.get? r.forest id = some n →
      ∃ n', Pool.get? s.forest id = some n' ∧ n'.state = n.state) : Accounts r s := by
  refine ⟨fun _ h => ?_, fun _ => hstates⟩
  rw [InOrder, hused]
  exact Pool.Stacked.keep h hslots

lemma accounts_quiet (hused : used s.log.records = used r.log.records)
    (hforest : s.forest = r.forest) : Accounts r s :=
  accounts_same hused (hforest ▸ .refl _) fun _ n _ hn => ⟨n, hforest ▸ hn, rfl⟩

/-- One slot is used. -/
lemma accounts_alloc (halloc : Pool.alloc r.forest n = (.ok id, forest))
    (hused : used s.log.records = used r.log.records ++ [id])
    (hslots : Pool.SameSlots forest s.forest)
    (hstates : ∀ ⦃j n⦄, j ≠ id → Pool.get? forest j = some n →
      ∃ n', Pool.get? s.forest j = some n' ∧ n'.state = n.state) : Accounts r s := by
  refine ⟨fun _ h => ?_, fun hsound j n' _ hn' => ?_⟩
  · rw [InOrder, hused]
    exact (Pool.Stacked.alloc h halloc).keep hslots
  · obtain ⟨hvacant, hnodes⟩ := Pool.get?_of_alloc hsound halloc
    have hj : j ≠ id := by
      rintro rfl
      rw [hvacant] at hn'
      cases hn'
    exact hstates hj (by rw [hnodes, Function.update_of_ne hj, hn'])

/-- What follows changes neither slots nor nodes. -/
lemma Accounts.quietly (h : Accounts r t) (hused : used s.log.records = used t.log.records)
    (hforest : s.forest = t.forest) : Accounts r s :=
  ⟨fun _ hr => by rw [InOrder, hused, hforest]; exact h.slots hr,
    fun hsound _ _ hid hn => by rw [hforest]; exact h.states hsound hid hn⟩

lemma Accounts.refl (r : Run) : Accounts r r :=
  accounts_quiet rfl rfl

lemma Accounts.trans (h : Accounts r t) (h' : Accounts t s)
    (hpool : Pool.Sound r.forest → Pool.Sound t.forest)
    (hqueue : ∀ id ∈ t.queue, id ∈ r.queue) : Accounts r s := by
  refine ⟨fun _ hr => h'.slots (h.slots hr), fun hsound id n hid hn => ?_⟩
  obtain ⟨n', hn', hstate⟩ := h.states hsound hid hn
  obtain ⟨n'', hn'', hstate'⟩ := h'.states (hpool hsound) (fun hmem => hid (hqueue id hmem)) hn'
  exact ⟨n'', hn'', hstate'.trans hstate⟩

lemma used_marked (r : Run) : used (marked r).log.records = used r.log.records := by
  unfold marked
  split
  · simp [Record.slot?]
  · rfl

/-- Acquiring uses a slot for a token. -/
lemma accounts_acquires {found : Acquired} (h : Acquires m r found s) : Accounts r s := by
  have hforest := (sameCourse_marked r).2.1
  have hused := used_marked r
  cases h with
  | consumed => exact accounts_quiet (by simp [hused, Record.slot?]) hforest
  | @skipped region element text stream rest id forest _ _ _ _ _ _ halloc =>
    rw [hforest] at halloc
    exact accounts_alloc halloc (by simp [hused, Record.slot?]) (Pool.sameSlots_put ..)
      fun j n hj hn => ⟨n, (Pool.get?_put_of_ne hj).trans hn, rfl⟩
  | queued _ _ _ _ _ _ halloc =>
    rw [hforest] at halloc
    exact accounts_alloc halloc (by simp [hused, Record.slot?]) (.refl _)
      fun j n _ hn => ⟨n, hn, rfl⟩
  | @treeSkipped region id n _ _ _ _ _ _ _ hn =>
    rw [hforest] at hn
    refine accounts_same (by simp [hused, Record.slot?]) ?_ fun j n' _ hn' => ?_
    · rw [show (marked r).forest = r.forest from hforest]
      exact Pool.sameSlots_put ..
    · rw [show (marked r).forest = r.forest from hforest]
      by_cases hj : j = id
      · subst hj
        obtain rfl : n = n' := Option.some.inj (hn.symm.trans hn')
        exact ⟨_, Pool.get?_put_self hn, rfl⟩
      · exact ⟨n', (Pool.get?_put_of_ne hj).trans hn', rfl⟩
  | treeQueued => exact accounts_quiet (by simp [hused, Record.slot?]) hforest
  | preEof => exact accounts_quiet (by simp [Record.slot?]) rfl
  | ended _ _ _ halloc =>
    exact accounts_alloc halloc (by simp [Record.slot?]) (.refl _) fun j n _ hn => ⟨n, hn, rfl⟩
  | noToken => exact .refl r

/-- A shift uses no slot. -/
lemma accounts_shift {id : NodeId} {target : StateId} {alternative : Nat} {more : Bool} {u : Unit}
    (h : shift m id target alternative more r = .ok u s) :
    Accounts r s ∧ (∀ id ∈ s.queue, id ∈ r.queue) ∧
      (Pool.Sound r.forest → Pool.Sound s.forest) := by
  obtain ⟨rest, n, hqueue, hn, rfl⟩ := shift_ok h
  refine ⟨accounts_same (by simp [Record.slot?]) (Pool.sameSlots_put ..) fun j n' hj hn' => ?_,
    fun j hj => hqueue ▸ List.mem_cons_of_mem _ hj, fun hsound => hsound.put hn⟩
  have hne : j ≠ id := by
    rintro rfl
    exact hj (hqueue ▸ List.mem_cons_self)
  exact ⟨n', (Pool.get?_put_of_ne hne).trans hn', rfl⟩

/-- Linking changes nothing but links. -/
lemma linkSiblings_unlinked {ids : List NodeId} {u : Unit} (h : linkSiblings ids r = .ok u s) :
    Pool.SameSlots r.forest s.forest ∧
      ∀ id, (Pool.get? s.forest id).map Node.unlinked =
        (Pool.get? r.forest id).map Node.unlinked := by
  induction ids generalizing r with
  | nil =>
    cases h
    exact ⟨.refl _, fun _ => rfl⟩
  | cons id ids ih =>
    rw [linkSiblings] at h
    obtain ⟨u, t, hchange, hrest⟩ := bind_eq_ok.1 h
    obtain ⟨n, hn, rfl⟩ := change_eq_ok.1 hchange
    obtain ⟨hslots, hsame⟩ := ih hrest
    refine ⟨(Pool.sameSlots_put ..).trans hslots, fun j => (hsame j).trans ?_⟩
    by_cases hj : j = id
    · subst hj
      rw [Pool.get?_put_self hn, hn]
      rfl
    · rw [Pool.get?_put_of_ne hj]

/-- A reduction uses a slot for the tree. -/
lemma accounts_reduce {production : ProductionId} {alternative : Nat} {more commits : Bool}
    (h : reduce m production alternative more commits r = .ok a s) : Accounts r s := by
  obtain ⟨info, children, below, span, tree, made, linked, state, -, -, -, halloc, hlink, -, -,
    rfl⟩ := reduce_ok h
  obtain ⟨hslots, hsame⟩ := linkSiblings_unlinked (hlink { r with forest := made } rfl)
  refine accounts_alloc halloc (by simp [Record.slot?]) hslots fun j n _ hn => ?_
  have hj : (Pool.get? linked j).map Node.unlinked = (Pool.get? made j).map Node.unlinked := hsame j
  rw [hn] at hj
  obtain ⟨n', hn', hunlinked⟩ := Option.map_eq_some_iff.1 hj
  have hstate := congrArg Node.state hunlinked
  exact ⟨n', hn', hstate⟩

lemma accounts_act {decision : Grammar.Decision} {target : StateId} {commits : Bool}
    (h : act m id decision target commits r = .ok a s) : Accounts r s := by
  unfold act at h
  cases haction : decision.action with
  | shift =>
    rw [haction] at h
    obtain ⟨u, t, hshift, h1⟩ := bind_eq_ok.1 h
    obtain ⟨rfl, rfl⟩ := EStateM.Result.ok.inj h1
    exact (accounts_shift hshift).1
  | reduce production =>
    rw [haction] at h
    exact accounts_reduce h
  | shiftReduce production =>
    rw [haction] at h
    obtain ⟨u, t, hshift, h1⟩ := bind_eq_ok.1 h
    obtain ⟨hfirst, hqueue, hpool⟩ := accounts_shift hshift
    exact hfirst.trans (accounts_reduce h1) hpool hqueue

/-- The end of a step uses no slot and changes no node. -/
lemma completeStep_quiet {commits : Bool} (h : completeStep m commits r = .ok a s) :
    used s.log.records = used r.log.records ∧ s.forest = r.forest := by
  have hused : used (stepped commits r).log.records = used r.log.records := by
    cases commits <;> simp [stepped, closed, Record.slot?]
  have hforest : (stepped commits r).forest = r.forest := by
    cases commits <;> rfl
  obtain ⟨reached, -, ⟨-, -, rfl⟩ | ⟨-, -, -, rfl⟩ | ⟨-, -, -, rfl⟩⟩ := completeStep_ok h
  all_goals exact ⟨hused, hforest⟩

/-- A turn forward accounts for what it does. -/
lemma accounts_forwards (h : Forwards m r a s) : Accounts r s := by
  have hscanned {t : Run} {found : Acquired} (hrescans : Rescans r t) (h : Acquires m t found s) :
      Accounts r s := by
    obtain ⟨-, -, scanner, -, -, -, rfl⟩ := hrescans
    exact ⟨(accounts_acquires h).slots, (accounts_acquires h).states⟩
  cases h with
  | stepped hqueue hsteps =>
    cases hsteps with
    | refused => exact accounts_quiet rfl rfl
    | suspended _ _ _ _ hact => exact ⟨(accounts_act hact).slots, (accounts_act hact).states⟩
    | completed _ _ _ _ hact hcomplete =>
      obtain ⟨hused, hforest⟩ := completeStep_quiet hcomplete
      have hacted := (accounts_act hact).quietly hused hforest
      exact ⟨hacted.slots, hacted.states⟩
  | acquired _ hrescans h => exact h.elim (hscanned hrescans) (hscanned hrescans)
  | suspended _ hrescans h => exact hscanned hrescans h
  | refused _ hrescans _ _ =>
    obtain ⟨-, -, scanner, -, -, -, rfl⟩ := hrescans
    exact accounts_quiet rfl rfl

lemma accounts_goForward_error {e : Error} (ht : Tidy False r) (he : e.isFatal = false)
    (h : goForward m r = .error (.error e) s) : Accounts r s := by
  obtain ⟨t, -, rfl, ⟨id, rest, n, -, -, -, -, rfl⟩ | ⟨region, -, hrescans, -, -⟩⟩ :=
    goForward_error ht.pool ht.attached he h
  · exact accounts_quiet rfl rfl
  · obtain ⟨-, -, scanner, -, -, -, rfl⟩ := hrescans
    exact accounts_quiet rfl rfl

/-! ## Entering and calling -/

lemma accounts_enters (h : Enters m r a s) : Accounts r s := by
  cases h with
  | done _ => exact .refl _
  | back _ => exact .refl _
  | start _ _ => exact .refl _
  | action _ _ => exact accounts_quiet rfl rfl
  | reduction _ _ hresume =>
    rcases resumeReduction_ok hresume with ⟨-, -, -, span, rfl⟩ | ⟨-, hcomplete⟩
    · exact accounts_quiet rfl rfl
    · obtain ⟨hused, hforest⟩ := completeStep_quiet hcomplete
      exact accounts_quiet hused hforest

lemma accounts_enter_error {entry : Entry} {e : Error} (he : e.isFatal = false)
    (h : enter m entry r = .error (.error e) s) : Accounts r s := by
  rcases enter_error he h with ⟨-, -, rfl⟩ | ⟨production, commits, -, -, hresume⟩
  · exact .refl _
  · obtain ⟨-, -, span, -, rfl, -⟩ := resumeReduction_error he hresume
    exact accounts_quiet rfl rfl

/-- What a caller does aside uses a slot for the node that it makes. -/
lemma accounts_call {call : Call} (hattached : r.scanner.stream.isSome) (haside : call.IsAside)
    (h : call.Leads m r s) : Accounts r s := by
  obtain ⟨stream, hs⟩ := Option.isSome_iff_exists.1 hattached
  cases call with
  | attach stream => exact haside.elim
  | parse turns entry => exact haside.elim
  | undoTo target => exact haside.elim
  | giveUpLog => exact haside.elim
  | pushText text =>
    rcases h with ⟨u, h⟩ | ⟨e, h⟩
    · rw [pushText_apply hs] at h
      cases h
      split
      · exact .refl _
      · exact accounts_quiet (by simp [Record.slot?]) rfl
    · rw [pushText_apply hs] at h
      cases h
  | pushTree tree ignore =>
    rcases pushTree_ends hs h with rfl | ⟨slot, forest, halloc, rfl⟩
    · exact .refl _
    · exact accounts_alloc halloc (by simp [Record.slot?]) (.refl _) fun j n _ hn => ⟨n, hn, rfl⟩
  | queueToken element text name =>
    rcases h with ⟨slot, h⟩ | ⟨e, h⟩
    · rw [queueToken] at h
      obtain ⟨id, t, hmake, h1⟩ := bind_eq_ok.1 h
      obtain ⟨forest, halloc, rfl⟩ := alloc_eq_ok.1 hmake
      simp only [putBack, modify_bind, write_bind] at h1
      cases name with
      | none =>
        cases h1
        exact accounts_alloc halloc (by simp [Record.slot?]) (.refl _) fun j n _ hn => ⟨n, hn, rfl⟩
      | some name =>
        cases h1
        exact accounts_alloc halloc (by simp [Record.slot?]) (.refl _) fun j n _ hn => ⟨n, hn, rfl⟩
    · rw [queueToken] at h
      rcases bind_eq_error.1 h with hfail | ⟨id, t, hmake, h1⟩
      · obtain rfl := alloc_error hfail
        exact .refl _
      · cases name <;> cases h1
  | bind name id =>
    rcases h with ⟨u, h⟩ | ⟨e, h⟩ <;> cases h
    exact accounts_quiet (by simp [Record.slot?]) rfl
  | leaveData data =>
    rcases h with ⟨u, h⟩ | ⟨e, h⟩ <;> cases h
    exact accounts_quiet (by simp [Record.slot?]) rfl
  | dropAside =>
    rcases h with ⟨u, h⟩ | ⟨e, h⟩ <;> cases h
    exact accounts_quiet (by simp [Record.slot?]) rfl
  | reject =>
    rcases h with ⟨u, h⟩ | ⟨e, h⟩ <;> (unfold reject at h; split at h <;> cases h)
    · exact accounts_quiet rfl rfl
    · exact .refl _
  | stop =>
    cases h
    exact accounts_quiet rfl rfl
  | pauseAt target =>
    cases h
    exact accounts_quiet rfl rfl
  | takeEvents =>
    cases h
    exact accounts_quiet rfl rfl

end Run

end Rewind
