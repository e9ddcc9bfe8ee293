import Rewind.Proofs.Operations
import Rewind.Proofs.Unwind

/-!
# Turns along a path

Every turn of a run moves along its path, forward by what it writes down and back by what it takes
back.  A turn completes one step at most, and completes it last, so what has to be noted at the end
of a step is noted of the run that the turn leaves.
-/

namespace Rewind.Run

open Attempt Op

variable {m : Machine} {strict : Prop} {Noted : List Record → View → Prop} {base : View}
  {r s t : Run} {a : Option Status}

/-! ## Acquiring -/

lemma Tidy.rescans (ht : Tidy strict r) (h : Rescans r s) : Tidy strict s := by
  have hcontent := h.content.1
  obtain ⟨stream, rest, scanner, -, hs', -, rfl⟩ := h
  have hwaiting : { r with scanner }.waiting = r.waiting := by
    rw [waiting, waiting, hcontent]
  refine ht.keep ?_ ht.pool fun j hj n hn => .inr ⟨hwaiting ▸ hj, hn⟩
  simp [hs']

lemma view_rescans (h : Rescans r s) : s.view = r.view := by
  obtain ⟨hcontent, hposition, -⟩ := h.content
  obtain ⟨stream, rest, scanner, -, -, -, rfl⟩ := h
  have hshown : { r with scanner }.shown = r.shown :=
    shown_congr rfl fun j => by rw [waiting, waiting, hcontent]
  exact View.ext rfl rfl rfl rfl rfl hshown rfl rfl rfl rfl hcontent hposition

lemma moves_rescans (ht : Tidy strict r) (h : Rescans r s) : Moves m strict Noted r s := by
  have hview := view_rescans h
  have hunread := h.content.2.2
  refine .quiet (ht.rescans h) hview ?_ hunread ?_
  · obtain ⟨stream, rest, scanner, -, -, -, rfl⟩ := h
    rfl
  · obtain ⟨stream, rest, scanner, -, -, -, rfl⟩ := h
    rfl

lemma position_marked (r : Run) : (marked r).position = r.position := by
  rw [position, position, (sameCourse_marked r).1]

lemma content_marked (r : Run) : (marked r).content = r.content := by
  rw [content, content, (sameCourse_marked r).1]

/-- Acquiring moves along the path, and completes no step. -/
lemma moves_acquires {found : Acquired} (ht : Tidy strict r) (ho : Orderly r.view)
    (hqueue : r.queue = []) (h : Acquires m r found s) : Moves m strict Noted r s := by
  have hmarked : Moves m strict Noted r (marked r) := moves_marked ht
  have ho' := hmarked.orderly ho
  obtain ⟨hscanner, -, hqueue', -⟩ := sameCourse_marked r
  rw [hqueue] at hqueue'
  have hstream {stream : Stream} (hs : r.scanner.stream = some stream) :
      (marked r).scanner.stream = some stream := by rw [hscanner, hs]
  cases h with
  | @consumed region element text stream rest _ hgenerates hnames hs htakes =>
    rw [← position_marked] at ⊢
    refine hmarked.trans ((writes_consumed hmarked.tidy (hstream hs) ?_ htakes hqueue'
      ⟨hnames.1, hnames.2, hgenerates⟩ .generation).moves (by simp))
    rfl
  | @skipped region element text stream rest id forest _ _ _ hnames hs htakes halloc =>
    rw [← position_marked] at halloc ⊢
    refine hmarked.trans ((writes_setAside hmarked.tidy ho' (hstream hs) ?_ htakes hqueue' hnames
      halloc _).moves (by simp))
    rfl
  | @queued region element text stream rest id forest _ _ _ hnames hs htakes halloc =>
    rw [← position_marked] at halloc ⊢
    refine hmarked.trans ((writes_scanned hmarked.tidy ho' (hstream hs) ?_ htakes hqueue'
      (.inl hnames) halloc _).moves (by simp))
    rfl
  | @treeSkipped region id n stream rest _ hs hcontent hposition hunread hn =>
    refine hmarked.trans (moves_treeSetAside hmarked.tidy ho' (hstream hs) ?_ hcontent hposition
      hunread hqueue' hn _)
    rfl
  | @treeQueued region id n stream rest _ hs hcontent hposition hunread _ =>
    refine hmarked.trans (moves_treeQueued hmarked.tidy (hstream hs) ?_ hcontent hposition hunread
      hqueue' _)
    rfl
  | preEof _ _ _ hran => exact (writes_endActionMarked ht true hran _).moves (by simp)
  | ended _ hempty _ halloc =>
    obtain ⟨stream, hs⟩ := ht.stream
    refine (writes_scanned ht ho hs hs (takes_nothing stream) hqueue (.inr ⟨rfl, rfl, hempty⟩)
      ?_ _).moves (by simp)
    exact halloc
  | noToken _ _ => exact .refl ht

/-- Acquiring completes no step. -/
lemma steps_acquires {found : Acquired} (h : Acquires m r found s) : s.steps = r.steps := by
  have hmarked : (marked r).steps = r.steps := by
    unfold marked
    split <;> rfl
  cases h <;> first | rfl | exact hmarked

/-- Scanning and acquiring move along the path, and complete no step. -/
lemma moves_acquired {found : Acquired} (ht : Tidy strict r) (ho : Orderly r.view)
    (hqueue : r.queue = []) (hrescans : Rescans r t) (h : Acquires m t found s) :
    Moves m strict Noted r s ∧ s.steps = r.steps := by
  have hscanned : Moves m strict Noted r t := moves_rescans ht hrescans
  obtain ⟨hsteps, hqueue'⟩ : t.steps = r.steps ∧ t.queue = r.queue := by
    obtain ⟨stream, rest, scanner, -, -, -, rfl⟩ := hrescans
    exact ⟨rfl, rfl⟩
  refine ⟨hscanned.trans ?_, (steps_acquires h).trans hsteps⟩
  exact moves_acquires hscanned.tidy (hscanned.orderly ho) (hqueue'.trans hqueue) h

/-! ## Shifting and reducing -/

section Act

variable {id : NodeId} {n : Node} {decision : Grammar.Decision} {target : StateId}
  {production : ProductionId} {alternative : Nat} {more commits : Bool}

/-- A shift, with the decision for it. -/
lemma moves_shift {u : Unit} (ht : Tidy strict r) (ho : Orderly r.view)
    (hn : Pool.get? r.forest id = some n)
    (hshifts : Shifts m r.state n.element decision.alternative decision.more target)
    (h : shift m id target decision.alternative decision.more (decided n.element decision r) =
      .ok u s) :
    Moves m strict Noted r s ∧ s.steps = r.steps ∧ s.point = r.point := by
  obtain ⟨rest, n', hqueue, hn', rfl⟩ := shift_ok h
  obtain rfl : n = n' := Option.some.inj (hn.symm.trans hn')
  exact ⟨(writes_shifted ht ho hqueue hn hshifts _ _).moves (by simp), rfl, rfl⟩

/-- A reduction, with the decision for it.  What is decided otherwise makes no difference. -/
lemma moves_reduce {q : Run} (ht : Tidy strict r) (ho : Orderly r.view)
    (hq : q = { r with
      events := q.events
      retry := q.retry
      retries := if more then r.retries + 1 else r.retries })
    (h : reduce m production alternative more commits q = .ok a s) :
    Moves m strict Noted r s ∧ s.steps = r.steps ∧ (a = none → s.point = r.point) := by
  obtain ⟨info, children, below, span, tree, made, linked, state, hinfo, hunstack, hspan, halloc,
    hlink, hstate, rfl, rfl⟩ := reduce_ok h
  rw [hq] at hunstack hspan halloc ⊢
  obtain ⟨nodes, -, hwrites⟩ :=
    writes_reduced alternative more ht ho hinfo hunstack hspan halloc
      (hlink _ rfl) hstate q.retry _ q.events
  refine ⟨hwrites.moves (by simp), rfl, ?_⟩
  intro hnone
  cases haction : info.hasAction with
  | true => simp [haction] at hnone
  | false => rfl

/-- What was decided moves along the path, and completes no step yet. -/
lemma moves_act (ht : Tidy strict r) (ho : Orderly r.view)
    (hn : Pool.get? r.forest id = some n)
    (hdecide : m.grammar.decide r.state n.element r.retry = .ok (some decision))
    (htarget : m.grammar.targets[decision.transition]? = some target)
    (h : act m id decision target commits (decided n.element decision r) = .ok a s) :
    Moves m strict Noted r s ∧ s.steps = r.steps ∧ (a = none → s.point = r.point) := by
  have hshifts (hact : decision.action = .shift ∨
      ∃ production, decision.action = .shiftReduce production) :
      Shifts m r.state n.element decision.alternative decision.more target :=
    ⟨decision, by rw [decide_alternative hdecide, hdecide], rfl, htarget, hact⟩
  unfold act at h
  cases haction : decision.action with
  | shift =>
    rw [haction] at h
    obtain ⟨u, t, hshift, h1⟩ := bind_eq_ok.1 h
    obtain ⟨hmoves, hsteps, hpoint⟩ : Moves m strict Noted r t ∧ _ :=
      moves_shift ht ho hn (hshifts (.inl haction)) hshift
    obtain ⟨rfl, rfl⟩ := EStateM.Result.ok.inj h1
    exact ⟨hmoves, hsteps, fun _ => hpoint⟩
  | reduce production =>
    rw [haction] at h
    exact moves_reduce ht ho rfl h
  | shiftReduce production =>
    rw [haction] at h
    obtain ⟨u, t, hshift, h1⟩ := bind_eq_ok.1 h
    obtain ⟨hmoves, hsteps, hpoint⟩ : Moves m strict Noted r t ∧ _ :=
      moves_shift ht ho hn (hshifts (.inr ⟨_, haction⟩)) hshift
    obtain ⟨hmoves', hsteps', hpoint'⟩ := moves_reduce hmoves.tidy (hmoves.orderly ho) rfl h1
    exact ⟨hmoves.trans hmoves', hsteps'.trans hsteps, fun hnone => (hpoint' hnone).trans hpoint⟩

end Act

/-! ## Ends of steps -/

lemma moves_closed (ht : Tidy strict r) (commits : Bool) :
    Moves m strict Noted r (closed commits r) := by
  cases commits with
  | true => exact (writes_committed ht).moves (by simp)
  | false => exact .refl ht

lemma steps_completeStep {commits : Bool} (h : completeStep m commits r = .ok a s) :
    s.steps = r.steps + 1 := by
  have hsteps : (stepped commits r).steps = r.steps + 1 := by cases commits <;> rfl
  obtain ⟨reached, -, ⟨-, -, rfl⟩ | ⟨-, -, -, rfl⟩ | ⟨-, -, -, rfl⟩⟩ := completeStep_ok h
  · exact hsteps
  · exact hsteps
  · exact hsteps

/-- The end of a step is noted of the run it leaves. -/
lemma moves_completeStep {commits : Bool} (ht : Tidy strict r) (ho : Orderly r.view)
    (hpoint : r.point = .start) (h : completeStep m commits r = .ok a s)
    (hnoted : s.point = settled m s.view → Noted s.log.records s.view) :
    Moves m strict Noted r s := by
  have hclosed : Moves m strict Noted r (closed commits r) := moves_closed ht commits
  have hstart : (closed commits r).point = .start := by cases commits <;> exact hpoint
  have hstepped : Orderly (stepped commits r).view :=
    (hclosed.orderly ho).keep rfl rfl rfl
  obtain ⟨reached, hreached, hcases⟩ := completeStep_ok h
  rw [atEnd_ok hstepped] at hreached
  have hsettled : settled m (stepped commits r).view = if reached then .done else .start := by
    rw [settled, Except.ok.inj hreached]
  -- What is left of the step changes no view.
  obtain ⟨hview, hlog, hscanner, hforest, haborted, hland⟩ :
      s.view = (stepped commits r).view ∧ s.log = (stepped commits r).log ∧
        s.scanner = (stepped commits r).scanner ∧ s.forest = (stepped commits r).forest ∧
        s.aborted = (stepped commits r).aborted ∧ s.point = settled m s.view := by
    rcases hcases with ⟨rfl, -, rfl⟩ | ⟨rfl, -, -, rfl⟩ | ⟨rfl, -, -, rfl⟩
    · exact ⟨rfl, rfl, rfl, rfl, rfl, hsettled.symm⟩
    · exact ⟨rfl, rfl, rfl, rfl, rfl, hstart.trans hsettled.symm⟩
    · exact ⟨rfl, rfl, rfl, rfl, rfl, hstart.trans hsettled.symm⟩
  have hnote := hnoted hland
  rw [hview, hlog] at hnote
  have hmoves : Moves m strict Noted r (stepped commits r) :=
    hclosed.trans ((writes_stepEnded hclosed.tidy).moves fun _ => hnote)
  have hwaiting : s.waiting = (stepped commits r).waiting :=
    congrArg View.waiting hview
  refine hmoves.trans (.quiet ?_ hview hlog ?_ haborted)
  · refine hmoves.tidy.keep (hscanner ▸ hmoves.tidy.attached) (hforest ▸ hmoves.tidy.pool) ?_
    exact fun j hj n hn => .inr ⟨hwaiting ▸ hj, hforest ▸ hn⟩
  · exact Nat.le_of_eq (by rw [unread, unread, hscanner])

/-! ## Going forward -/

lemma moves_turned {e : Error} (ht : Tidy strict r) : Moves m strict Noted r (turned e r) :=
  .quiet (ht.keep ht.attached ht.pool fun _ hj _ hn => .inr ⟨hj, hn⟩) rfl rfl (Nat.le_refl _) rfl

lemma moves_stuck {e : Error} (ht : Tidy strict r) : Moves m strict Noted r (stuck e r) :=
  .quiet (ht.keep ht.attached ht.pool fun _ hj _ hn => .inr ⟨hj, hn⟩) rfl rfl (Nat.le_refl _) rfl

/-- A turn forward completes one step at most, and what it leaves is noted if it does. -/
lemma moves_forwards (ht : Tidy strict r) (ho : Orderly r.view) (hpoint : r.point = .start)
    (h : Forwards m r a s)
    (hnoted : s.steps = r.steps + 1 → s.point = settled m s.view →
      Noted s.log.records s.view) :
    Moves m strict Noted r s ∧ s.steps ≤ r.steps + 1 := by
  cases h with
  | @stepped id rest _ _ hqueue hsteps =>
    cases hsteps with
    | refused _ _ _ => exact ⟨moves_turned ht, Nat.le_succ _⟩
    | suspended hn hdecide _ htarget hact =>
      obtain ⟨hmoves, hsteps, -⟩ := moves_act ht ho hn hdecide htarget hact
      exact ⟨hmoves, Nat.le_succ_of_le (Nat.le_of_eq hsteps)⟩
    | @completed _ _ _ _ _ _ t hn hdecide _ htarget hact hcomplete =>
      obtain ⟨hmoves, hsteps, hpoint'⟩ : Moves m strict Noted r t ∧ _ :=
        moves_act ht ho hn hdecide htarget hact
      have hended := steps_completeStep hcomplete
      rw [hsteps] at hended
      have hstep := moves_completeStep hmoves.tidy (hmoves.orderly ho) ((hpoint' rfl).trans hpoint)
        hcomplete (hnoted hended)
      exact ⟨hmoves.trans hstep, Nat.le_of_eq hended⟩
  | @acquired _ t hqueue hrescans hacquires =>
    have hstep {found : Acquired} (h : Acquires m t found s) :
        Moves m strict Noted r s ∧ s.steps ≤ r.steps + 1 := by
      obtain ⟨hmoves, hsteps⟩ := moves_acquired ht ho hqueue hrescans h
      exact ⟨hmoves, Nat.le_succ_of_le (Nat.le_of_eq hsteps)⟩
    exact hacquires.elim hstep hstep
  | suspended hqueue hrescans hacquires =>
    obtain ⟨hmoves, hsteps⟩ := moves_acquired ht ho hqueue hrescans hacquires
    exact ⟨hmoves, Nat.le_succ_of_le (Nat.le_of_eq hsteps)⟩
  | @refused region t hqueue hrescans hacquires _ =>
    obtain ⟨hmoves, hsteps⟩ : Moves m strict Noted r t ∧ _ :=
      moves_acquired ht ho hqueue hrescans hacquires
    exact ⟨hmoves.trans (moves_turned hmoves.tidy), Nat.le_succ_of_le (Nat.le_of_eq hsteps)⟩

/-- A parse error in a turn forward leaves the run on its path. -/
lemma moves_goForward_error {e : Error} (ht : Tidy strict r) (ho : Orderly r.view)
    (he : e.isFatal = false) (h : goForward m r = .error (.error e) s) :
    Moves m strict Noted r s := by
  obtain ⟨t, -, rfl, ⟨id, rest, n, -, -, -, -, rfl⟩ | ⟨region, hqueue, hrescans, hacquires, -⟩⟩ :=
    goForward_error ht.pool ht.attached he h
  · exact moves_stuck ht
  · obtain ⟨hmoves, -⟩ : Moves m strict Noted r t ∧ _ :=
      moves_acquired ht ho hqueue hrescans hacquires
    exact hmoves.trans (moves_stuck hmoves.tidy)

/-! ## Entering -/

lemma frontSpan_ok {span : Span} (h : frontSpan r = .ok span s) :
    s = r ∧ ∀ tree rest n, r.queue = tree :: rest → Pool.get? r.forest tree = some n →
      span = n.span := by
  rw [frontSpan, get_bind] at h
  cases hqueue : r.queue with
  | nil =>
    simp only [hqueue] at h
    cases h
    exact ⟨rfl, nofun⟩
  | cons tree rest =>
    simp only [hqueue] at h
    obtain ⟨n, t, hread, h1⟩ := bind_eq_ok.1 h
    obtain ⟨hn, rfl⟩ := node_eq_ok.1 hread
    cases h1
    refine ⟨rfl, fun tree' rest' n' hfront hn' => ?_⟩
    obtain ⟨rfl, rfl⟩ := List.cons.inj hfront
    rw [Option.some.inj (hn'.symm.trans hn)]

lemma grave_frontSpan : Grave frontSpan :=
  Law.grave_rearranges.frontSpan.grave

/-- What going on from a reduction comes to: the caller rejected it, or the step is completed. -/
lemma resumeReduction_ok {production : ProductionId} {commits : Bool}
    (h : resumeReduction m production commits r = .ok a s) :
    (r.rejecting = true ∧ a = none ∧ 0 < r.retries ∧
        ∃ span, s = turned (.rejected production span)
          { r with point := .start, rejecting := false }) ∨
      r.rejecting = false ∧ completeStep m commits { r with point := .start } = .ok a s := by
  rw [resumeReduction, modify_bind, get_bind] at h
  cases hrejecting : r.rejecting with
  | true =>
    simp only [hrejecting, if_true, modify_bind] at h
    obtain ⟨span, t, hspan, h1⟩ := bind_eq_ok.1 h
    obtain ⟨rfl, -⟩ := frontSpan_ok hspan
    obtain ⟨u, t, hturn, h2⟩ := bind_eq_ok.1 h1
    obtain ⟨hpos, rfl⟩ := turnBack_ok hturn
    cases h2
    exact .inl ⟨rfl, rfl, hpos, span, rfl⟩
  | false =>
    simp only [hrejecting, Bool.false_eq_true, if_false] at h
    exact .inr ⟨rfl, h⟩

lemma resumeReduction_error {production : ProductionId} {commits : Bool} {e : Error}
    (he : e.isFatal = false) (h : resumeReduction m production commits r = .error (.error e) s) :
    r.rejecting = true ∧ r.retries = 0 ∧ ∃ span, e = .rejected production span ∧
      s = stuck e { r with point := .start, rejecting := false } ∧
      ∀ tree rest n, r.queue = tree :: rest → Pool.get? r.forest tree = some n →
        span = n.span := by
  rw [resumeReduction, modify_bind, get_bind] at h
  cases hrejecting : r.rejecting with
  | true =>
    simp only [hrejecting, if_true, modify_bind] at h
    obtain h1 | ⟨span, t, hspan, h1⟩ := bind_eq_error.1 h
    · rw [grave_frontSpan h1] at he
      cases he
    obtain ⟨rfl, hfront⟩ := frontSpan_ok hspan
    obtain h2 | ⟨u, t, -, h2⟩ := bind_eq_error.1 h1
    · obtain ⟨rfl, hzero, rfl⟩ := turnBack_error h2
      exact ⟨rfl, hzero, span, rfl, rfl, hfront⟩
    · cases h2
  | false =>
    simp only [hrejecting, Bool.false_eq_true, if_false] at h
    rw [grave_completeStep m commits h] at he
    cases he

/-- What entering a run comes to. -/
inductive Enters (m : Machine) (r : Run) : Option Status → Run → Prop
  | done : r.point = .done → Enters m r (some .done) r
  | back {goal : Goal} : r.point = .reverse goal → Enters m r none r
  | start : r.point = .start → r.halted = false → Enters m r none r
  | reduction {production : ProductionId} {commits : Bool} {a : Option Status} {s : Run} :
    r.point = .reduction production commits → r.halted = false →
    resumeReduction m production commits r = .ok a s → Enters m r a s
  | action : r.point = .generation ∨ r.point = .preEof → r.halted = false →
    Enters m r none { r with point := .start }

lemma enter_ok {entry : Entry} (h : enter m entry r = .ok a s) : Enters m r a s := by
  have hlive (hhalted : ¬r.halted = true) : r.halted = false := by simpa using hhalted
  rw [enter, get_bind] at h
  cases hpoint : r.point with
  | start =>
    cases entry <;> simp only [hpoint] at h <;> split at h <;> cases h
    rename_i hhalted
    exact .start hpoint (hlive hhalted)
  | reduction production commits =>
    cases entry <;> simp only [hpoint] at h <;> split at h <;> try cases h
    rename_i hhalted
    exact .reduction hpoint (hlive hhalted) h
  | generation =>
    cases entry <;> simp only [hpoint] at h <;> split at h <;> cases h
    rename_i hhalted
    exact .action (.inl hpoint) (hlive hhalted)
  | preEof =>
    cases entry <;> simp only [hpoint] at h <;> split at h <;> cases h
    rename_i hhalted
    exact .action (.inr hpoint) (hlive hhalted)
  | reverse goal =>
    cases entry <;> simp only [hpoint] at h <;> try (split at h <;> cases h)
    cases h
    exact .back hpoint
  | done =>
    cases entry <;> simp only [hpoint] at h <;> try (split at h <;> cases h)
    cases h
    exact .done hpoint

/-- What entering a run comes to where it waits for the entry. -/
lemma enter_awaited {point : Point} :
    r.point = point → (point.entry ≠ .reverse → r.halted = false) →
    enter m point.entry r = match point with
      | .start | .reverse _ => .ok none r
      | .done => .ok (some .done) r
      | .generation | .preEof => .ok none { r with point := .start }
      | .reduction production commits => resumeReduction m production commits r := by
  intro hpoint hrunning
  rw [enter, get_bind]
  cases point with
  | reverse goal => simp only [hpoint]; rfl
  | done => simp only [hpoint]; rfl
  | _ =>
    have hhalted := hrunning (by rintro ⟨⟩)
    simp only [hpoint, Point.entry]
    exact congrFun (if_neg (by simp [hhalted])) r

/-- An entry is refused by a halted run, or the reduction was rejected and nothing is left to
try. -/
lemma enter_error {entry : Entry} {e : Error} (he : e.isFatal = false)
    (h : enter m entry r = .error (.error e) s) :
    r.halted = true ∧ e = .halted ∧ s = r ∨
      ∃ production commits, r.point = .reduction production commits ∧ r.halted = false ∧
        resumeReduction m production commits r = .error (.error e) s := by
  have hlive (hhalted : ¬r.halted = true) : r.halted = false := by simpa using hhalted
  rw [enter, get_bind] at h
  cases hpoint : r.point with
  | reduction production commits =>
    cases entry <;> simp only [hpoint] at h <;> split at h
    all_goals rename_i hhalted
    case reduction.isFalse => exact .inr ⟨production, commits, rfl, hlive hhalted, h⟩
    all_goals cases h
    all_goals first | exact .inl ⟨hhalted, rfl, rfl⟩ | cases he
  | _ =>
    cases entry <;> simp only [hpoint] at h <;> try split at h
    all_goals cases h
    all_goals first | exact .inl ⟨‹_›, rfl, rfl⟩ | cases he

lemma moves_awaited (ht : Tidy strict r) (point : Point) (rejecting : Bool) :
    Moves m strict Noted r { r with point, rejecting } :=
  .quiet (ht.keep ht.attached ht.pool fun _ hj _ hn => .inr ⟨hj, hn⟩) rfl rfl (Nat.le_refl _) rfl

lemma moves_enters (ht : Tidy strict r) (ho : Orderly r.view) (h : Enters m r a s)
    (hnoted : s.steps = r.steps + 1 → s.point = settled m s.view →
      Noted s.log.records s.view) :
    Moves m strict Noted r s ∧ s.steps ≤ r.steps + 1 := by
  cases h with
  | done _ => exact ⟨.refl ht, Nat.le_succ _⟩
  | back _ => exact ⟨.refl ht, Nat.le_succ _⟩
  | start _ _ => exact ⟨.refl ht, Nat.le_succ _⟩
  | action _ _ => exact ⟨moves_awaited ht .start r.rejecting, Nat.le_succ _⟩
  | reduction _ _ hresume =>
    rcases resumeReduction_ok hresume with ⟨-, -, -, span, rfl⟩ | ⟨-, hcomplete⟩
    · have hmoves : Moves m strict Noted r { r with point := .start, rejecting := false } :=
        moves_awaited ht .start false
      exact ⟨hmoves.trans (moves_turned hmoves.tidy), Nat.le_succ _⟩
    · have hmoves : Moves m strict Noted r { r with point := .start } :=
        moves_awaited ht .start r.rejecting
      have hended := steps_completeStep hcomplete
      exact ⟨hmoves.trans (moves_completeStep hmoves.tidy (hmoves.orderly ho) rfl hcomplete
        (hnoted hended)), Nat.le_of_eq hended⟩

lemma moves_enter_error {entry : Entry} {e : Error} (ht : Tidy strict r)
    (he : e.isFatal = false) (h : enter m entry r = .error (.error e) s) :
    Moves m strict Noted r s := by
  rcases enter_error he h with ⟨-, -, rfl⟩ | ⟨production, commits, -, -, hresume⟩
  · exact .refl ht
  · obtain ⟨-, -, span, -, rfl, -⟩ := resumeReduction_error he hresume
    have hmoves : Moves m strict Noted r { r with point := .start, rejecting := false } :=
      moves_awaited ht .start false
    exact hmoves.trans (moves_stuck hmoves.tidy)

/-! ## Turns -/

/-- A turn of a sound run. -/
theorem turn_sound (h : Sound m strict Noted base r) (hbase : Orderly base)
    (hturn : turn m r = .ok a s)
    (hnoted : s.steps = r.steps + 1 → s.point = settled m s.view →
      Noted s.log.records s.view) :
    Sound m strict Noted base s ∧ s.aborted = r.aborted ∧ s.steps ≤ r.steps + 1 := by
  rw [turn, get_bind] at hturn
  cases hpoint : r.point with
  | start =>
    simp only [hpoint] at hturn
    obtain ⟨hmoves, hsteps⟩ := moves_forwards h.toTidy (h.orderly hbase) hpoint
      (goForward_ok h.pool h.attached hturn) hnoted
    exact ⟨h.moves hmoves, hmoves.aborted, hsteps⟩
  | reverse goal =>
    simp only [hpoint] at hturn
    rcases unwind_sound h hbase with
      ⟨a', s', hunwind, hs, hback⟩ | ⟨misuse, s', hunwind, -⟩
    · rw [hturn] at hunwind
      cases hunwind
      exact ⟨hs, hback.aborted, Nat.le_succ_of_le hback.steps⟩
    · rw [hturn] at hunwind
      cases hunwind
  | done =>
    simp only [hpoint] at hturn
    cases hturn
    exact ⟨h, rfl, Nat.le_succ _⟩
  | reduction production commits =>
    simp only [hpoint] at hturn
    cases hturn
  | generation =>
    simp only [hpoint] at hturn
    cases hturn
  | preEof =>
    simp only [hpoint] at hturn
    cases hturn

/-- A parse error in a turn of a sound run. -/
theorem turn_sound_error {e : Error} (h : Sound m strict Noted base r) (hbase : Orderly base)
    (he : e.isFatal = false) (hturn : turn m r = .error (.error e) s) :
    Sound m strict Noted base s := by
  rw [turn, get_bind] at hturn
  cases hpoint : r.point with
  | start =>
    simp only [hpoint] at hturn
    exact h.moves (moves_goForward_error h.toTidy (h.orderly hbase) he hturn)
  | reverse goal =>
    simp only [hpoint] at hturn
    rcases unwind_sound h hbase with ⟨a', s', hunwind, -⟩ | ⟨misuse, s', hunwind, -⟩
    · rw [hturn] at hunwind
      cases hunwind
    · rw [hturn] at hunwind
      cases hunwind
      cases he
  | done =>
    simp only [hpoint] at hturn
    cases hturn
  | reduction production commits =>
    simp only [hpoint] at hturn
    cases hturn
    cases he
  | generation =>
    simp only [hpoint] at hturn
    cases hturn
    cases he
  | preEof =>
    simp only [hpoint] at hturn
    cases hturn
    cases he

/-- Going back to a step takes a single turn. -/
theorem takeTurns_back (turns : Nat) {target : Nat} (h : Sound m strict Noted base r)
    (hbase : Orderly base) (hpoint : r.point = .reverse (.step target))
    (hlow : base.steps ≤ target) (hhigh : target ≤ r.steps) :
    ∃ status s, takeTurns m (turns + 1) r = .ok status s ∧ Sound m strict Noted base s ∧
      s.aborted = r.aborted ∧ Retreats m Noted base target r status s := by
  obtain ⟨status, s, hunwind, hs, haborted, hretreats⟩ := unwind_step h hbase hlow hhigh
  have hturn : turn m r = .ok (some status) s := by
    rw [turn, get_bind]
    simp only [hpoint]
    exact hunwind
  refine ⟨status, s, ?_, hs, haborted, hretreats⟩
  rw [takeTurns, bind_ok hturn]
  rfl

end Rewind.Run
