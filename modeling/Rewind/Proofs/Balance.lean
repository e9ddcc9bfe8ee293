import Rewind.Proofs.Laws
import Rewind.Proofs.Operations

/-!
# Logs in balance

A run counts the decisions that could have been others, and never looks at its log to do so: it
counts up when it decides, down when it takes a decision back, and from zero again behind a commit.
A log is in balance with the counters if counting it over would give the same.  Everything that a
run does going forward keeps them in balance.
-/

namespace Rewind.Run

open Attempt Op

/-! ## Logs in balance -/

/-- Whether a record tells of a decision that could have been another. -/
def Record.decides : Record → Bool
  | .shifted _ _ _ _ more => more
  | .reduced _ _ _ more => more
  | _ => false

/-- Whether a record has nothing to do with decisions and commits. -/
def Record.isPlain : Record → Bool
  | .committed _ _ => false
  | record => !record.decides

/-- A log that comes to a barrier and a number of retries.  A commit tells what they were before. -/
inductive Balanced : List Record → Nat → Nat → Prop
  | empty : Balanced [] 0 0
  | committed {older : List Record} {barrier retries : Nat} :
    Balanced older barrier retries →
    Balanced (.committed barrier retries :: older) (older.length + 1) 0
  | decision {record : Record} {older : List Record} {barrier retries : Nat} :
    record.decides = true → Balanced older barrier retries →
    Balanced (record :: older) barrier (retries + 1)
  | plain {record : Record} {older : List Record} {barrier retries : Nat} :
    record.isPlain = true → Balanced older barrier retries →
    Balanced (record :: older) barrier retries

namespace Balanced

variable {records newer older : List Record} {record : Record} {barrier retries : Nat}

lemma barrier_le (h : Balanced records barrier retries) : barrier ≤ records.length := by
  induction h with
  | empty => exact Nat.le_refl _
  | committed _ _ => exact Nat.le_refl _
  | decision _ _ ih => exact Nat.le_succ_of_le ih
  | plain _ _ ih => exact Nat.le_succ_of_le ih

lemma not_decides (h : record.isPlain = true) : record.decides = false := by
  cases record <;> simp_all [Record.isPlain, Record.decides]

/-- The retries are the decisions since the barrier. -/
lemma count (h : Balanced records barrier retries) :
    retries = (records.take (records.length - barrier)).countP Record.decides := by
  induction h with
  | empty => rfl
  | committed _ _ => simp
  | decision hdecides hbalanced ih =>
    rw [List.length_cons, Nat.succ_sub hbalanced.barrier_le, List.take_succ_cons,
      List.countP_cons_of_pos hdecides, ← ih]
  | plain hplain hbalanced ih =>
    rw [List.length_cons, Nat.succ_sub hbalanced.barrier_le, List.take_succ_cons,
      List.countP_cons_of_neg (by simp [not_decides hplain]), ← ih]

lemma append (hnewer : ∀ x ∈ newer, x.isPlain = true) (h : Balanced older barrier retries) :
    Balanced (newer ++ older) barrier retries := by
  induction newer with
  | nil => exact h
  | cons x newer ih =>
    exact .plain (hnewer x List.mem_cons_self) (ih fun y hy => hnewer y (List.mem_cons_of_mem _ hy))

/-- What the latest record says of the counters. -/
lemma of_cons (h : Balanced (record :: older) barrier retries) :
    (∃ barrier' retries', record = .committed barrier' retries' ∧
        Balanced older barrier' retries' ∧ retries = 0) ∨
      (record.decides = true ∧ ∃ fewer, retries = fewer + 1 ∧ Balanced older barrier fewer) ∨
      (record.isPlain = true ∧ Balanced older barrier retries) := by
  cases h with
  | committed hbalanced => exact .inl ⟨_, _, rfl, hbalanced, rfl⟩
  | decision hdecides hbalanced => exact .inr (.inl ⟨hdecides, _, rfl, hbalanced⟩)
  | plain hplain hbalanced => exact .inr (.inr ⟨hplain, hbalanced⟩)

/-- While there are retries, the log has a decision above the barrier, and nothing but plain records
above the decision. -/
lemma split (h : Balanced records barrier (retries + 1)) :
    ∃ newer decision older, records = newer ++ decision :: older ∧
      (∀ x ∈ newer, x.isPlain = true) ∧ decision.decides = true ∧
      Balanced older barrier retries := by
  generalize hcount : retries + 1 = n at h
  induction h with
  | empty => cases hcount
  | committed _ _ => cases hcount
  | @decision record older _ _ hdecides hbalanced _ =>
    cases hcount
    exact ⟨[], record, older, rfl, nofun, hdecides, hbalanced⟩
  | @plain record _ _ _ hplain _ ih =>
    obtain ⟨newer, decision, older, rfl, hnewer, hdecides, hbalanced⟩ := ih hcount
    refine ⟨record :: newer, decision, older, rfl, fun x hx => ?_, hdecides, hbalanced⟩
    rcases List.mem_cons.1 hx with rfl | hx
    · exact hplain
    · exact hnewer x hx

end Balanced

/-! ## What operations leave alone -/

/-- Neither log nor counters differ, and the run waits at the same point. -/
structure SameCount (r s : Run) : Prop where
  log : s.log = r.log
  barrier : s.barrier = r.barrier
  retries : s.retries = r.retries
  point : s.point = r.point

/-- Plain records were written, the counters do not differ, and the run does not begin to turn
back. -/
structure Adds (r s : Run) : Prop where
  log : ∃ newer, s.log.records = newer ++ r.log.records ∧ ∀ x ∈ newer, x.isPlain = true
  barrier : s.barrier = r.barrier
  retries : s.retries = r.retries
  point : s.point = .reverse .backtrack → r.point = .reverse .backtrack

lemma SameCount.refl (r : Run) : SameCount r r := ⟨rfl, rfl, rfl, rfl⟩

lemma SameCount.trans {r s t : Run} (h : SameCount r s) (h' : SameCount s t) : SameCount r t :=
  ⟨h'.log.trans h.log, h'.barrier.trans h.barrier, h'.retries.trans h.retries,
    h'.point.trans h.point⟩

lemma SameCount.adds {r s : Run} (h : SameCount r s) : Adds r s :=
  ⟨⟨[], by rw [h.log]; rfl, nofun⟩, h.barrier, h.retries, h.point.symm.trans⟩

lemma Adds.trans {r s t : Run} (h : Adds r s) (h' : Adds s t) : Adds r t := by
  obtain ⟨newer, hlog, hnewer⟩ := h.log
  obtain ⟨newer', hlog', hnewer'⟩ := h'.log
  refine ⟨⟨newer' ++ newer, by rw [hlog', hlog, List.append_assoc], fun x hx => ?_⟩,
    h'.barrier.trans h.barrier, h'.retries.trans h.retries,
    fun hpoint => h.point (h'.point hpoint)⟩
  rcases List.mem_append.1 hx with hx | hx
  · exact hnewer' x hx
  · exact hnewer x hx

lemma Adds.balanced {r s : Run} (h : Adds r s)
    (hr : Balanced r.log.records r.barrier r.retries) :
    Balanced s.log.records s.barrier s.retries := by
  obtain ⟨newer, hlog, hnewer⟩ := h.log
  rw [hlog, h.barrier, h.retries]
  exact hr.append hnewer

/-- A fatal error, but not that of a log that has nothing left to take back. -/
def Error.isMishap : Error → Bool
  | .misuse (.undoPastStart _ _) => false
  | e => e.isFatal

/-- The law to leave a run so related to the one that an operation began with, if it succeeds, and
never to find the log exhausted. -/
def Law.relating (R : Run → Run → Prop) : Law where
  ok := R
  error r e s := Adds r s ∧ e.isMishap = true
  fault _ _ _ := True

instance composes_sameCount : (Law.relating SameCount).Composes where
  refl := .refl
  ok _ _ _ := .trans
  error _ _ _ _ h h' := ⟨h.adds.trans h'.1, h'.2⟩
  fault _ _ _ _ _ _ := trivial

instance composes_adds : (Law.relating Adds).Composes where
  refl r := (SameCount.refl r).adds
  ok _ _ _ := .trans
  error _ _ _ _ h h' := ⟨h.trans h'.1, h'.2⟩
  fault _ _ _ _ _ _ := trivial

/-- An operation that leaves a run so related to the one it began with, if it succeeds, and that
never finds the log exhausted. -/
abbrev Relates (R : Run → Run → Prop) {α : Type} (op : Op α) : Prop :=
  (Law.relating R).Governs op

lemma sameCount_onScanner {α : Type} (x : Attempt Scanner.Error Scanner α) :
    Relates SameCount (onScanner x) :=
  Law.Governs.onScanner (L := Law.relating SameCount) (fun _ _ => ⟨rfl, rfl, rfl, rfl⟩)
    (fun _ _ _ => ⟨⟨⟨[], rfl, nofun⟩, rfl, rfl, id⟩, rfl⟩) (fun _ _ _ => trivial) x

lemma sameCount_handles : (Law.relating SameCount).Handles where
  forest _ _ := ⟨rfl, rfl, rfl, rfl⟩
  links _ _ _ := trivial
  queue _ _ := ⟨rfl, rfl, rfl, rfl⟩
  mismatch r _ _ := ⟨(SameCount.refl r).adds, rfl⟩
  state _ _ := ⟨rfl, rfl, rfl, rfl⟩
  stack _ _ := ⟨rfl, rfl, rfl, rfl⟩
  aside _ _ := ⟨rfl, rfl, rfl, rfl⟩
  bindings _ _ := ⟨rfl, rfl, rfl, rfl⟩
  full r _ := ⟨(SameCount.refl r).adds, rfl⟩
  tells := ⟨fun _ _ => ⟨rfl, rfl, rfl, rfl⟩⟩

lemma sameCount_streams : (Law.relating SameCount).Streams :=
  ⟨fun _ _ => sameCount_onScanner _⟩

lemma adds_onScanner {α : Type} (x : Attempt Scanner.Error Scanner α) :
    Relates Adds (onScanner x) :=
  fun r => ⟨fun _ _ h => ((sameCount_onScanner x r).ok h).adds, (sameCount_onScanner x r).error,
    fun _ _ _ => trivial⟩

lemma adds_handles : (Law.relating Adds).Handles where
  forest r forest := (sameCount_handles.forest r forest).adds
  links _ _ _ := trivial
  queue r queue := (sameCount_handles.queue r queue).adds
  mismatch := sameCount_handles.mismatch
  state r state := (sameCount_handles.state r state).adds
  stack r stack := (sameCount_handles.stack r stack).adds
  aside r aside := (sameCount_handles.aside r aside).adds
  bindings r bindings := (sameCount_handles.bindings r bindings).adds
  full := sameCount_handles.full
  tells := ⟨fun r events => (sameCount_handles.tells.events r events).adds⟩

lemma adds_write {record : Record} (h : record.isPlain = true) (r : Run) :
    Adds r { r with log := r.log.append record } := by
  refine ⟨⟨[record], rfl, fun x hx => ?_⟩, rfl, rfl, id⟩
  rwa [List.mem_singleton.1 hx]

lemma adds_advances (m : Machine) : (Law.relating Adds).Advances m where
  toHandles := adds_handles
  streams := ⟨fun _ _ => adds_onScanner _⟩
  endActionRan _ _ := SameCount.adds ⟨rfl, rfl, rfl, rfl⟩
  point _ _ hpoint := ⟨⟨[], rfl, nofun⟩, rfl, rfl, fun h => absurd h hpoint⟩
  scan _ := adds_onScanner _

/-- Acquiring writes plain records only. -/
lemma adds_acquire (m : Machine) : Relates Adds (acquire m) :=
  fun r => (adds_advances m).acquire
    ⟨fun record hkind => adds_write (by cases record <;> first | rfl | cases hkind)⟩
    fun _ _ => trivial

/-! ## Going forward -/

variable {m : Machine} {r s t : Run} {a : Option Status}

/-- The counters of a run are right. -/
def Counted (r : Run) : Prop :=
  Balanced r.log.records r.barrier r.retries

/-- What was decided is counted when it is written down. -/
lemma counted_act {id : NodeId} {element : ElementId} {decision : Grammar.Decision}
    {target : StateId} {commits : Bool} (h : Counted r)
    (hact : act m id decision target commits (decided element decision r) = .ok a s) :
    Counted s := by
  have hrecord {record : Record} {q : Run} (hdecides : record.decides = decision.more)
      (hplain : decision.more = false → record.isPlain = true) (hlog : q.log = r.log.append record)
      (hbarrier : q.barrier = r.barrier)
      (hretries : q.retries = if decision.more then r.retries + 1 else r.retries) : Counted q := by
    rw [Counted, hlog, hbarrier, hretries]
    cases hmore : decision.more with
    | true => exact .decision (hdecides.trans hmore) h
    | false => exact .plain (hplain hmore) h
  unfold act at hact
  cases haction : decision.action with
  | shift =>
    rw [haction] at hact
    obtain ⟨u, t, hshift, hrest⟩ := bind_eq_ok.1 hact
    obtain ⟨rfl, rfl⟩ := EStateM.Result.ok.inj hrest
    obtain ⟨rest, n, -, -, rfl⟩ := shift_ok hshift
    exact hrecord rfl (congrArg Bool.not) rfl rfl rfl
  | reduce production =>
    rw [haction] at hact
    obtain ⟨info, children, below, span, tree, made, linked, state, -, -, -, -, -, -, -, rfl⟩ :=
      reduce_ok hact
    exact hrecord rfl (congrArg Bool.not) rfl rfl rfl
  | shiftReduce production =>
    rw [haction] at hact
    obtain ⟨u, t, hshift, hreduce⟩ := bind_eq_ok.1 hact
    obtain ⟨rest, n, -, -, ht⟩ := shift_ok hshift
    have hshifted : Counted t := by
      rw [ht]
      exact hrecord rfl (congrArg Bool.not) rfl rfl rfl
    obtain ⟨info, children, below, span, tree, made, linked, state, -, -, -, -, -, -, -, rfl⟩ :=
      reduce_ok hreduce
    exact .plain rfl hshifted

lemma counted_completeStep {commits : Bool} (h : Counted r)
    (hcomplete : completeStep m commits r = .ok a s) : Counted s := by
  have hclosed : Counted (closed commits r) := by
    cases commits with
    | true => exact .committed h
    | false => exact h
  have hstepped : Counted (stepped commits r) := .plain rfl hclosed
  obtain ⟨reached, -, ⟨-, -, rfl⟩ | ⟨-, -, -, rfl⟩ | ⟨-, -, -, rfl⟩⟩ := completeStep_ok hcomplete
  · exact hstepped
  · exact hstepped
  · exact hstepped

/-- The counters are right, and a run that turns back has something to turn back to. -/
structure RetriesCounted (r : Run) : Prop where
  counted : Counted r
  hopeful : r.point = .reverse .backtrack → 0 < r.retries

lemma RetriesCounted.adds (h : RetriesCounted r) (hadds : Adds r s) : RetriesCounted s :=
  ⟨hadds.balanced h.counted, fun hpoint => hadds.retries ▸ h.hopeful (hadds.point hpoint)⟩

lemma retriesCounted_turnBack {e : Error} {u : Unit} (h : Counted r)
    (hturn : turnBack e r = .ok u s) :
    RetriesCounted s := by
  obtain ⟨hpos, rfl⟩ := turnBack_ok hturn
  exact ⟨h, fun _ => hpos⟩

lemma retriesCounted_stuck {e : Error} (h : Counted r) : RetriesCounted (stuck e r) :=
  ⟨h, nofun⟩

/-- Nothing that was decided turns back by itself. -/
lemma point_act {id : NodeId} {element : ElementId} {decision : Grammar.Decision}
    {target : StateId} {commits : Bool}
    (hact : act m id decision target commits (decided element decision r) = .ok a s)
    (hpoint : s.point = .reverse .backtrack) : r.point = .reverse .backtrack := by
  have hreduce {production : ProductionId} {alternative : Nat} {more : Bool} {q : Run}
      (hreduce : reduce m production alternative more commits q = .ok a s) :
      q.point = .reverse .backtrack := by
    obtain ⟨info, children, below, span, tree, made, linked, state, -, -, -, -, -, -, -, rfl⟩ :=
      reduce_ok hreduce
    dsimp only at hpoint
    split at hpoint
    · cases hpoint
    · exact hpoint
  unfold act at hact
  cases haction : decision.action with
  | shift =>
    rw [haction] at hact
    obtain ⟨u, t, hshift, hrest⟩ := bind_eq_ok.1 hact
    obtain ⟨rfl, rfl⟩ := EStateM.Result.ok.inj hrest
    obtain ⟨rest, n, -, -, rfl⟩ := shift_ok hshift
    exact hpoint
  | reduce production =>
    rw [haction] at hact
    have hdecided := hreduce hact
    exact hdecided
  | shiftReduce production =>
    rw [haction] at hact
    obtain ⟨u, t, hshift, hrest⟩ := bind_eq_ok.1 hact
    obtain ⟨rest, n, -, -, rfl⟩ := shift_ok hshift
    have hshifted := hreduce hrest
    exact hshifted

lemma point_completeStep {commits : Bool} (hcomplete : completeStep m commits r = .ok a s)
    (hpoint : s.point = .reverse .backtrack) : r.point = .reverse .backtrack := by
  have hstepped : (stepped commits r).point = r.point := by cases commits <;> rfl
  obtain ⟨reached, -, ⟨-, -, rfl⟩ | ⟨-, -, -, rfl⟩ | ⟨-, -, -, rfl⟩⟩ := completeStep_ok hcomplete
  · cases hpoint
  · exact hstepped ▸ hpoint
  · exact hstepped ▸ hpoint

lemma retriesCounted_goForward (h : RetriesCounted r) (hpoint : r.point = .start)
    (hrun : goForward m r = .ok a s) : RetriesCounted s := by
  have hstart : r.point ≠ .reverse .backtrack := by
    rw [hpoint]
    exact nofun
  rw [goForward, get_bind] at hrun
  cases hqueue : r.queue with
  | cons id rest =>
    simp only [hqueue] at hrun
    cases step_ok hrun with
    | refused _ _ hpos => exact ⟨h.counted, fun _ => hpos⟩
    | suspended _ _ _ _ hact =>
      exact ⟨counted_act h.counted hact, fun hp => absurd (point_act hact hp) hstart⟩
    | completed _ _ _ _ hact hcomplete =>
      exact ⟨counted_completeStep (counted_act h.counted hact) hcomplete,
        fun hp => absurd (point_act hact (point_completeStep hcomplete hp)) hstart⟩
  | nil =>
    simp only [hqueue] at hrun
    obtain ⟨found, t, hacquire, h1⟩ := bind_eq_ok.1 hrun
    have ht := h.adds ((adds_acquire m _).ok hacquire)
    cases found with
    | queued =>
      cases h1
      exact ht
    | skipped =>
      cases h1
      exact ht
    | suspended status =>
      cases h1
      exact ht
    | noToken region =>
      simp only [get_bind] at h1
      obtain ⟨u, t', hturn, h2⟩ := bind_eq_ok.1 h1
      cases h2
      exact retriesCounted_turnBack ht.counted hturn

/-- A parse error in a turn forward leaves the counters right. -/
lemma retriesCounted_goForward_error {e : Error} (h : RetriesCounted r) (he : e.isFatal = false)
    (hrun : goForward m r = .error (.error e) s) : RetriesCounted s := by
  rw [goForward, get_bind] at hrun
  cases hqueue : r.queue with
  | cons id rest =>
    simp only [hqueue] at hrun
    obtain ⟨n, -, -, -, -, rfl⟩ := step_error he hrun
    exact retriesCounted_stuck h.counted
  | nil =>
    simp only [hqueue] at hrun
    obtain h1 | ⟨found, t, hacquire, h1⟩ := bind_eq_error.1 hrun
    · rw [grave_acquire m h1] at he
      cases he
    have ht := h.adds ((adds_acquire m _).ok hacquire)
    cases found with
    | queued => cases h1
    | skipped => cases h1
    | suspended status => cases h1
    | noToken region =>
      simp only [get_bind] at h1
      obtain h2 | ⟨u, t', -, h2⟩ := bind_eq_error.1 h1
      · obtain ⟨rfl, -, rfl⟩ := turnBack_error h2
        exact retriesCounted_stuck ht.counted
      · cases h2

end Rewind.Run
