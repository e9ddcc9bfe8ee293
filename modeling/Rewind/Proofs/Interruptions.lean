import Rewind.Proofs.Pauses
import Rewind.Run.Snapshot

/-!
# Sessions with interruptions

A session is what a caller and a run have to do with each other: what the caller asks for, one thing
after the other, and what the run replies.  In an interrupted session the caller sets at will when
the run is to pause, and answers each pause by entering the run at its start.  Apart from the
pauses, the run replies the same, and what it holds is the same.
-/

namespace Rewind.Run

open Attempt Op

variable {m : Machine} {r s t : Run} {turns : Nat} {entry : Entry}

/-! ## Where a halted run is -/

/-- A halted run goes nowhere but back to a step. -/
def Underway (r : Run) : Prop :=
  r.halted = true → ∃ steps, r.point = .reverse (.step steps)

/-- A halted run waits for nothing but to be taken back to a step. -/
def Poised (r : Run) : Prop :=
  r.halted = true → r.point ≠ .reverse .backtrack

lemma Underway.poised (h : Underway r) : Poised r := by
  intro hhalted hpoint
  obtain ⟨steps, hstep⟩ := h hhalted
  cases hstep.symm.trans hpoint

lemma Underway.running (h : Underway r) (hpoint : r.point = .start) : r.halted = false := by
  cases hhalted : r.halted with
  | false => rfl
  | true =>
    obtain ⟨steps, hstep⟩ := h hhalted
    cases hstep.symm.trans hpoint

lemma underway_of_running (h : r.halted = false) : Underway r := by
  intro hhalted
  rw [h] at hhalted
  cases hhalted

/-- What depends on no more than where a run is and whether it is halted is inert. -/
lemma Inert.of_stance {I : Run → Prop}
    (h : ∀ r s : Run, s.halted = r.halted ∧ s.point = r.point → I r → I s) : Inert I :=
  @Inert.of_parts I _ (fun r => (r.halted, r.point)) (fun _ _ _ _ _ _ _ _ _ _ _ _ _ => rfl)
    fun r s hsame => h r s (Prod.mk.inj hsame)

lemma inert_poised : Inert Poised :=
  .of_stance fun r s h hr => by rwa [Poised, h.1, h.2]

lemma aloof_running : Aloof fun r => r.halted = false where
  toInert := .of_stance fun _ _ h hr => h.1.trans hr
  point _ _ h := h
  steps _ _ h := h
  retry _ _ h := h
  rejecting _ _ h := h
  stopping _ _ h := h

section Running

variable (m : Machine)

/-- A run is halted nowhere but where an error leaves it. -/
lemma running_goForward :
    Keeps (·.halted = false) (fun r => r.halted = true → r.point = .start) (goForward m) :=
  fun _ => (aloof_running.forwards (fun r hr hhalted => by rw [hr] at hhalted; cases hhalted)
    (fun _ _ _ => rfl) m).goForward
    (Law.serves_keeping (fun r hr hhalted => by rw [hr] at hhalted; cases hhalted) m _)

lemma running_resumeReduction (production : ProductionId) (commits : Bool) :
    Keeps (·.halted = false) (fun r => r.halted = true → r.point = .start)
      (resumeReduction m production commits) :=
  (aloof_running.enters (fun r hr hhalted => by rw [hr] at hhalted; cases hhalted)
    fun _ _ _ => rfl).resumeReduction production commits

end Running

lemma poised_of_start (h : s.halted = true → s.point = .start) : Poised s := by
  intro hhalted hpoint
  rw [h hhalted] at hpoint
  cases hpoint

/-- While a run goes back, it stays halted only if it goes back to a step. -/
theorem retreating_unwind (m : Machine) (goal : Goal) (records : List Record) :
    Keeps (fun r => r.halted = true → r.point = .reverse goal ∧ goal ≠ .backtrack)
      (fun r => r.halted = true → r.point = .reverse goal ∧ goal ≠ .backtrack)
      (unwind m goal records) := by
  have hinert : Inert fun r => r.halted = true → r.point = .reverse goal ∧ goal ≠ .backtrack :=
    .of_stance fun r s h hr => by rwa [h.1, h.2]
  exact hinert.unwind (fun _ _ hr => hr)
    (fun _ _ _ hhalted => absurd hhalted Bool.false_ne_true)
    (fun hgoal _ _ hr hhalted => absurd hgoal (hr hhalted).2) records

lemma underway_turn (m : Machine) : Keeps Underway Poised (turn m) := by
  refine .intro fun r hr => ?_
  rw [turn, get_bind]
  have hstay {e : Error} : (∀ ⦃a s⦄, (fail e : Op (Option Status)) r = .ok a s → Underway s) ∧
      ∀ ⦃x s⦄, (fail e : Op (Option Status)) r = .error x s → Poised s := by
    refine ⟨fun a s h => ?_, fun e s h => ?_⟩ <;> cases h
    exact hr.poised
  cases hpoint : r.point with
  | start =>
    have hrunning := hr.running hpoint
    have hkeeps := running_goForward m
    exact ⟨fun _ _ h => underway_of_running (hkeeps.ok hrunning h),
      fun _ _ h => poised_of_start (hkeeps.error hrunning h)⟩
  | reverse goal =>
    have hretreats : r.halted = true → r.point = .reverse goal ∧ goal ≠ .backtrack := by
      intro hhalted
      obtain ⟨steps, hstep⟩ := hr hhalted
      obtain rfl : Goal.step steps = goal := Point.reverse.inj (hstep.symm.trans hpoint)
      refine ⟨hpoint, fun hgoal => ?_⟩
      cases hgoal
    have hunder {s : Run} (h : s.halted = true → s.point = .reverse goal ∧ goal ≠ .backtrack) :
        Underway s := by
      intro hhalted
      obtain ⟨hs, hgoal⟩ := h hhalted
      cases goal with
      | step steps => exact ⟨steps, hs⟩
      | backtrack => exact absurd rfl hgoal
    have hkeeps := retreating_unwind m goal r.log.records
    exact ⟨fun _ _ h => hunder (hkeeps.ok hretreats h),
      fun _ _ h => (hunder (hkeeps.error hretreats h)).poised⟩
  | done =>
    refine ⟨fun a s h => ?_, fun e s h => ?_⟩ <;> cases h
    exact hr
  | _ => exact hstay

theorem underway_takeTurns (m : Machine) (turns : Nat) :
    Keeps Underway Poised (takeTurns m turns) :=
  (underway_turn m).takeTurns (fun _ hr => hr.poised) turns

lemma poised_enter (m : Machine) (entry : Entry) (hr : Poised r) :
    (∀ a s, enter m entry r = .ok a s → Poised s ∧ (a = none → Underway s)) ∧
      ∀ e s, enter m entry r = .error e s → Poised s := by
  constructor
  · intro a s h
    cases enter_ok h with
    | done _ => exact ⟨hr, fun hnone => absurd hnone (Option.some_ne_none _)⟩
    | @back goal hpoint =>
      refine ⟨hr, fun _ hhalted => ?_⟩
      cases goal with
      | step steps => exact ⟨steps, hpoint⟩
      | backtrack => exact absurd hpoint (hr hhalted)
    | start _ hrunning => exact ⟨hr, fun _ => underway_of_running hrunning⟩
    | action _ hrunning =>
      have hs : Underway { r with point := .start } := underway_of_running hrunning
      exact ⟨hs.poised, fun _ => hs⟩
    | reduction _ hrunning hresume =>
      have hs := underway_of_running ((running_resumeReduction m _ _).ok hrunning hresume)
      exact ⟨hs.poised, fun _ => hs⟩
  · intro e s h
    rw [enter, get_bind] at h
    cases hpoint : r.point with
    | reduction production commits =>
      cases entry <;> simp only [hpoint] at h <;> split at h
      all_goals rename_i hhalted
      case reduction.isFalse =>
        exact poised_of_start
          ((running_resumeReduction m production commits).error (by simpa using hhalted) h)
      all_goals cases h
      all_goals exact hr
    | _ =>
      cases entry <;> simp only [hpoint] at h <;> try split at h
      all_goals cases h
      all_goals exact hr

theorem poised_resume (hr : Poised r) : Poised (Result.left (resume m turns entry r)) := by
  obtain ⟨hok, herror⟩ := poised_enter m entry hr
  rw [resume]
  cases henter : enter m entry r with
  | error e s =>
    rw [bind_error henter]
    exact herror e s henter
  | ok a s =>
    rw [bind_ok henter]
    obtain ⟨hs, hunder⟩ := hok a s henter
    cases a with
    | some status => exact hs
    | none =>
      have hkeeps := underway_takeTurns m turns
      change Poised (Result.left (takeTurns m turns s))
      cases hturns : takeTurns m turns s with
      | ok status t => exact (hkeeps.ok (hunder rfl) hturns).poised
      | error e t => exact hkeeps.error (hunder rfl) hturns

lemma poised_goBack {target : Nat} (hr : Poised r) : Poised (Result.left (goBack m target r)) := by
  by_cases hsteps : r.steps < target
  · rw [goBack, get_bind, if_pos hsteps]
    exact hr
  · by_cases hwaits : ∀ goal, r.point ≠ .reverse goal
    · rw [goBack_apply (Nat.le_of_not_lt hsteps) hwaits]
      have hunder : Underway { r with point := .reverse (.step target) } := fun _ => ⟨target, rfl⟩
      cases hturns : takeTurns m 1 { r with point := .reverse (.step target) } with
      | ok status t => exact ((underway_takeTurns m 1).ok hunder hturns).poised
      | error e t => exact (underway_takeTurns m 1).error hunder hturns
    · obtain ⟨goal, hgoal⟩ : ∃ goal, r.point = .reverse goal := by
        by_contra hnone
        exact hwaits fun goal hgoal => hnone ⟨goal, hgoal⟩
      rw [goBack, get_bind, if_neg hsteps]
      simp only [hgoal]
      exact hr

theorem poised_perform (m : Machine) (turns : Nat) (request : Request) :
    Keeps Poised Poised (perform m turns request) :=
  keeps_perform inert_poised (fun _ _ _ _ hr => hr)
    (fun _ _ => Keeps.onScanner (fun _ _ hr => hr) _)
    (fun _ => Keeps.onScanner (fun _ _ hr => hr) _)
    (fun _ _ => Keeps.unlessAborted (.of_left fun _ => poised_resume) fun _ _ _ hr => hr)
    (fun _ _ => Keeps.unlessAborted (.of_left fun _ => poised_goBack) fun _ _ _ hr => hr)

/-! ## Where a run pauses -/

lemma act_rests {id : NodeId} {decision : Grammar.Decision} {target : StateId} {commits : Bool}
    (h : act m id decision target commits r = .ok none s) : s.point = r.point := by
  have hreduce {production : ProductionId} {alternative : Nat} {more : Bool} {q : Run}
      (h : reduce m production alternative more commits q = .ok none s) : s.point = q.point := by
    obtain ⟨info, children, below, span, tree, made, linked, state, -, -, -, -, -, -, hnone, rfl⟩ :=
      reduce_ok h
    cases haction : info.hasAction with
    | true => simp [haction] at hnone
    | false => rfl
  have hpoint {q : Run} {alternative : Nat} {more : Bool} {u : Unit}
      (h : shift m id target alternative more r = .ok u q) : q.point = r.point :=
    Keeps.part_eq (fun p => ((Inert.of_part (fun _ _ _ _ _ _ _ _ _ _ _ _ _ => rfl) p).rearranges
      fun _ hr => hr).shift ((Inert.of_part (fun _ _ _ _ _ _ _ _ _ _ _ _ _ => rfl) p).writes _)
      _ _ _ _) h
  unfold act at h
  cases haction : decision.action with
  | shift =>
    simp only [haction] at h
    obtain ⟨u, t, hshift, h1⟩ := bind_eq_ok.1 h
    cases h1
    exact hpoint hshift
  | reduce production =>
    simp only [haction] at h
    exact hreduce h
  | shiftReduce production =>
    simp only [haction] at h
    obtain ⟨u, t, hshift, h1⟩ := bind_eq_ok.1 h
    exact (hreduce h1).trans (hpoint hshift)

lemma completeStep_rests {commits : Bool} {status : Status}
    (h : completeStep m commits r = .ok (some status) s) (hpause : status.isPause = true) :
    s.point = r.point := by
  have hstepped : (stepped commits r).point = r.point := by cases commits <;> rfl
  obtain ⟨reached, -, ⟨-, ha, -⟩ | ⟨-, -, -, rfl⟩ | ⟨-, -, -, rfl⟩⟩ := completeStep_ok h
  · cases ha
    cases hpause
  · exact hstepped
  · exact hstepped

lemma step_rests {id : NodeId} {status : Status} (h : step m id r = .ok (some status) s)
    (hpause : status.isPause = true) : s.point = r.point := by
  cases step_ok h with
  | suspended _ _ _ _ hact =>
    rw [Unpaused.of_asks (asks_act m _ _ _ _ hact) status rfl] at hpause
    cases hpause
  | completed _ _ _ _ hact hcomplete =>
    have hpoint := act_rests hact
    exact (completeStep_rests hcomplete hpause).trans hpoint

/-- A turn that pauses leaves a run that can go on from its start. -/
lemma turn_rests {status : Status} (hr : Underway r) (h : turn m r = .ok (some status) s)
    (hpause : status.isPause = true) : s.point = .start ∧ s.halted = false := by
  have hforward := h
  rw [turn, get_bind] at hforward
  cases hpoint : r.point with
  | start =>
    simp only [hpoint] at hforward
    have hrunning := hr.running hpoint
    refine ⟨?_, (running_goForward m).ok hrunning hforward⟩
    rw [goForward, get_bind] at hforward
    cases hqueue : r.queue with
    | cons id rest =>
      simp only [hqueue] at hforward
      exact (step_rests hforward hpause).trans hpoint
    | nil =>
      simp only [hqueue] at hforward
      obtain ⟨found, t, hacquire, h1⟩ := bind_eq_ok.1 hforward
      cases found with
      | suspended status' =>
        cases h1
        rw [Unpaused.of_asks (asks_acquire m hacquire status rfl) status rfl] at hpause
        cases hpause
      | noToken region =>
        simp only [get_bind] at h1
        obtain ⟨u, t', -, h2⟩ := bind_eq_ok.1 h1
        cases h2
      | _ => cases h1
  | reverse goal =>
    simp only [hpoint] at hforward
    rw [(unwind_steps hforward).2 status rfl] at hpause
    cases hpause
  | done =>
    simp only [hpoint] at hforward
    cases hforward
    cases hpause
  | _ =>
    simp only [hpoint] at hforward
    cases hforward

/-! ## The calm run -/

lemma answer_pause {status : Status} (h : status.isPause = true) :
    pauseless.answer (some status) = none := by
  simp [pauseless, Option.filter, h]

lemma takeTurns_calm
    (h : ∀ status s, takeTurns m turns r = .ok status s → status.isPause = false) :
    takeTurns m turns r.calm = pauseless.result id (takeTurns m turns r) := by
  induction turns generalizing r with
  | zero => rfl
  | succ turns ih =>
    rw [takeTurns] at h ⊢
    have hcalm := turn_calm m r
    cases hturn : turn m r with
    | error e s =>
      rw [hturn] at hcalm
      rw [bind_error hturn, bind_error hcalm]
      rfl
    | ok a s =>
      rw [hturn] at hcalm
      rw [bind_ok hturn] at h ⊢
      rw [bind_ok hcalm]
      cases a with
      | none => exact ih h
      | some status =>
        rw [pauseless_lawful.answer status (h status s rfl)]
        rfl

/-- Where a run pauses, the calm run goes on. -/
lemma takeTurns_paused {status : Status} (hr : Underway r)
    (h : takeTurns m turns r = .ok status s) (hpause : status.isPause = true) :
    (s.point = .start ∧ s.halted = false) ∧ ∃ used, 0 < used ∧ used ≤ turns ∧
      ∀ more, takeTurns m (used + more) r.calm = takeTurns m more s.calm := by
  induction turns generalizing r with
  | zero => cases h
  | succ turns ih =>
    have hcalm := turn_calm m r
    obtain ⟨a, t, hturn, h1⟩ := bind_eq_ok.1 h
    rw [hturn] at hcalm
    cases a with
    | some status' =>
      cases h1
      refine ⟨turn_rests hr hturn hpause, 1, Nat.one_pos, Nat.le_add_left .., fun more => ?_⟩
      rw [Veil.result, answer_pause hpause] at hcalm
      rw [Nat.add_comm, takeTurns, bind_ok hcalm]
      rfl
    | none =>
      obtain ⟨hrests, used, hpos, hle, hmore⟩ := ih ((underway_turn m).ok hr hturn) h1
      refine ⟨hrests, used + 1, Nat.succ_pos _, Nat.succ_le_succ hle, fun more => ?_⟩
      rw [Nat.add_right_comm, takeTurns, bind_ok hcalm]
      exact hmore more

lemma resume_calm
    (h : ∀ status s, resume m turns entry r = .ok status s → status.isPause = false) :
    resume m turns entry r.calm = pauseless.result id (resume m turns entry r) := by
  rw [resume] at h ⊢
  have hcalm := enter_calm m entry r
  cases henter : enter m entry r with
  | error e s =>
    rw [henter] at hcalm
    rw [bind_error henter, bind_error hcalm]
    rfl
  | ok a s =>
    rw [henter] at hcalm
    rw [bind_ok henter] at h ⊢
    rw [bind_ok hcalm]
    cases a with
    | none => exact takeTurns_calm h
    | some status =>
      rw [pauseless_lawful.answer status (h status s rfl)]
      rfl

lemma enter_rests {status : Status} (h : enter m entry r = .ok (some status) s)
    (hpause : status.isPause = true) :
    (s.point = .start ∧ s.halted = false) ∧ entry ≠ .start := by
  cases enter_ok h with
  | done _ => cases hpause
  | @reduction production commits _ _ hpoint hrunning hresume =>
    refine ⟨⟨?_, (running_resumeReduction m production commits).ok hrunning hresume⟩, ?_⟩
    · rcases resumeReduction_ok hresume with ⟨-, hnone, -⟩ | ⟨-, hcomplete⟩
      · cases hnone
      · exact completeStep_rests hcomplete hpause
    · rintro rfl
      rw [enter, get_bind] at h
      simp only [hpoint, hrunning, Bool.false_eq_true, if_false] at h
      cases h

lemma resume_paused {status : Status} (hr : Poised r)
    (h : resume m turns entry r = .ok status s) (hpause : status.isPause = true) :
    (s.point = .start ∧ s.halted = false) ∧ ∃ used, (entry = .start → 0 < used) ∧ used ≤ turns ∧
      ∀ more, resume m (used + more) entry r.calm = takeTurns m more s.calm := by
  have hcalm := enter_calm m entry r
  obtain ⟨a, t, henter, h1⟩ := bind_eq_ok.1 h
  rw [henter] at hcalm
  cases a with
  | some status' =>
    cases h1
    obtain ⟨hrests, hentry⟩ := enter_rests henter hpause
    refine ⟨hrests, 0, fun h => absurd h hentry, Nat.zero_le _, fun more => ?_⟩
    rw [Veil.result, answer_pause hpause] at hcalm
    rw [resume, bind_ok hcalm, Nat.zero_add]
    rfl
  | none =>
    have ht := ((poised_enter m entry hr).1 _ _ henter).2 rfl
    obtain ⟨hrests, used, hpos, hle, hmore⟩ := takeTurns_paused ht h1 hpause
    refine ⟨hrests, used, fun _ => hpos, hle, fun more => ?_⟩
    rw [resume, bind_ok hcalm]
    exact hmore more

theorem parse_calm
    (h : ∀ status s, parse m turns entry r = .ok status s → status.isPause = false) :
    pauseless.Commutes (parse m turns entry) r := by
  cases halive : r.aborted with
  | true =>
    unfold Veil.Commutes parse unlessAborted
    rw [if_pos halive, if_pos (show (pauseless.veiled r).aborted = true from halive)]
    rfl
  | false =>
    have hresume (status : Status) (s : Run) (hrun : resume m turns entry r = .ok status s) :
        status.isPause = false := h status _ (unlessAborted_ok halive hrun)
    exact Veil.commutes_unlessAborted pauseless_lawful (resume_calm hresume) fun status s hrun =>
      pauseless_lawful.events _ _ (hresume status s hrun)

/-- Where a parse pauses, the calm run goes on as if it were entered at its start. -/
theorem parse_paused {status : Status} (hr : Poised r) (h : parse m turns entry r = .ok status s)
    (hpause : status.isPause = true) :
    ∃ used, (entry = .start → 0 < used) ∧ used ≤ turns ∧
      ∀ more, parse m (used + more) entry r.calm = parse m more .start s.calm := by
  obtain ⟨halive, t, hresume, rfl⟩ := ok_of_unlessAborted h
  obtain ⟨⟨hstart, hrunning⟩, used, hpos, hle, hmore⟩ := resume_paused hr hresume hpause
  refine ⟨used, hpos, hle, fun more => ?_⟩
  have hcalm : calm { t with events := .suspended status :: t.events } = t.calm := by
    simp only [calm, Veil.veiled, pauseless, Event.isPause, hpause, List.filter, Bool.not_true]
  have halive' : t.aborted = false := (detached_alive.resume turns entry).ok halive hresume
  have henter : enter m .start t.calm = .ok none t.calm := by
    rw [enter, get_bind]
    simp only [show t.calm.point = .start from hstart, show t.calm.halted = false from hrunning]
    rfl
  have hresumed : resume m more .start t.calm = takeTurns m more t.calm := by
    rw [resume, bind_ok henter]
  rw [hcalm]
  unfold parse unlessAborted
  rw [if_neg (by simp [calm, Veil.veiled, halive]), if_neg (by simp [calm, Veil.veiled, halive']),
    hmore, hresumed]

/-- Going back to a step is no reason to pause. -/
lemma unpaused_backwards {goal : Goal} {status : Status} (hpoint : r.point = .reverse goal)
    (h : takeTurns m 1 r = .ok status s) : status.isPause = false := by
  obtain ⟨a, t, hturn, h1⟩ := bind_eq_ok.1 h
  rw [turn, get_bind] at hturn
  simp only [hpoint] at hturn
  cases a with
  | none => cases h1
  | some status' =>
    cases h1
    exact (unwind_steps hturn).2 status rfl

lemma unpaused_goBack {target : Nat} {status : Status} (h : goBack m target r = .ok status s) :
    status.isPause = false := by
  obtain ⟨hle, hwaits, -⟩ := lasts_goBack (lasts_ok h)
  rw [goBack_apply hle hwaits] at h
  exact unpaused_backwards rfl h

theorem undoTo_calm {target : Nat} : pauseless.Commutes (undoTo m target) r :=
  Veil.commutes_unlessAborted pauseless_lawful
    (Veil.commutes_goBack (takeTurns_calm fun _ _ h => unpaused_backwards rfl h))
    fun _ _ h => pauseless_lawful.events _ _ (unpaused_goBack h)

/-! ## Sessions -/

/-- When the run is to pause is set anew, any number of times. -/
inductive Adjusts (r : Run) : Run → Prop
  | refl : Adjusts r r
  | stop {s : Run} : Adjusts r s → Adjusts r s.stop
  | pauseAt {s : Run} (target : Option Nat) : Adjusts r s → Adjusts r (s.pauseAt target)

/-- The request comes to a pause. -/
def Pauses (x : Result Reply) : Prop :=
  ∃ status s, x = .ok (.status status) s ∧ status.isPause = true

/-- What a request comes to in the end, if every pause is answered by entering the run at its
start, perhaps after setting anew when it is to pause. -/
inductive Through (m : Machine) : Request → Run → Result Reply → Prop
  | now {request : Request} {r : Run} {x : Result Reply} :
    Comes m request r x → ¬Pauses x → Through m request r x
  | paused {request : Request} {r s t : Run} {status : Status} {x : Result Reply} :
    Comes m request r (.ok (.status status) s) → status.isPause = true → Adjusts s t →
    Through m (.parse .start) t x → Through m request r x

/-- A run after all that its caller asked for since the start, with interruptions. -/
inductive Interrupted (m : Machine) (start : Run) : Dialogue → Run → Prop
  | start : Interrupted m start [] start
  | adjusted {log : Dialogue} {r s : Run} :
    Interrupted m start log r → Adjusts r s → Interrupted m start log s
  | next {log : Dialogue} {r s : Run} {request : Request} {x : Result Reply}
      {answer : Except Error Reply} :
    Interrupted m start log r → Through m request r x → Replied x answer s →
    Interrupted m start ((request, answer) :: log) s

/-- However its pauses are answered, the request comes to something that is this without pauses. -/
inductive Meets (m : Machine) (x : Result Reply) : Request → Run → Prop
  | now {request : Request} {r : Run} {y : Result Reply} :
    Comes m request r y → ¬Pauses y → pauseless.result id y = x → Meets m x request r
  | paused {request : Request} {r s : Run} {status : Status} :
    Comes m request r (.ok (.status status) s) → status.isPause = true →
    (∀ t, Adjusts s t → Meets m x (.parse .start) t) → Meets m x request r

lemma Adjusts.calm (h : Adjusts r s) : s.calm = r.calm := by
  induction h with
  | refl => rfl
  | stop _ ih => exact ih
  | pauseAt target _ ih => exact ih

lemma Adjusts.poised (h : Adjusts r s) (hr : Poised r) : Poised s := by
  induction h with
  | refl => exact hr
  | stop _ ih => exact ih
  | pauseAt target _ ih => exact ih

lemma Finished.calm {x : Result Reply} (h : Finished x) : Finished (pauseless.result id x) := by
  rintro s hs
  cases x with
  | ok reply t => cases hs
  | error e t =>
    cases hs
    exact h t rfl

/-- What comes to no pause comes to the same without pauses. -/
theorem perform_calm {request : Request} (h : ¬Pauses (perform m turns request r)) :
    perform m turns request r.calm = pauseless.result id (perform m turns request r) := by
  refine commutes_perform pauseless_lawful
    (fun _ _ => Veil.commutes_onScanner (fun _ => rfl) _)
    (fun _ => Veil.commutes_onScanner (fun _ => rfl) _) (fun entry heq => ?_)
    (fun _ _ => undoTo_calm)
  subst heq
  refine parse_calm fun status s hparse => ?_
  cases hpause : status.isPause with
  | false => rfl
  | true => exact absurd ⟨status, s, bind_ok hparse _, hpause⟩ h

/-- Only a parse comes to a pause, and without pauses it goes on from there. -/
theorem perform_paused {request : Request} {status : Status} (hr : Poised r)
    (h : perform m turns request r = .ok (.status status) s) (hpause : status.isPause = true) :
    ∃ used, (request = .parse .start → 0 < used) ∧ used ≤ turns ∧
      ∀ more, perform m (used + more) request r.calm = perform m more (.parse .start) s.calm := by
  cases request with
  | parse entry =>
    obtain ⟨status', t, hparse, h1⟩ := bind_eq_ok.1 h
    cases h1
    obtain ⟨used, hpos, hle, hmore⟩ := parse_paused hr hparse hpause
    refine ⟨used, fun heq => hpos (Request.parse.inj heq), hle, fun more => ?_⟩
    rw [perform_parse, perform_parse]
    cases hrest : parse m more .start s.calm with
    | ok status t => rw [bind_ok ((hmore more).trans hrest), bind_ok hrest]
    | error e t => rw [bind_error ((hmore more).trans hrest), bind_error hrest]
  | undoTo target =>
    obtain ⟨status', t, hundo, h1⟩ := bind_eq_ok.1 h
    cases h1
    obtain ⟨-, t, hback, rfl⟩ := ok_of_unlessAborted hundo
    rw [unpaused_goBack hback] at hpause
    cases hpause
  | _ =>
    obtain ⟨_, _, -, h1⟩ := bind_eq_ok.1 h
    cases h1

/-- What a request comes to in the end, it comes to without pauses. -/
lemma Through.calm {request : Request} {x : Result Reply} (h : Through m request r x)
    (hr : Poised r) : Comes m request r.calm (pauseless.result id x) ∧ Poised (Result.left x) := by
  induction h with
  | @now request r x hcomes hgoes =>
    obtain ⟨turns, rfl, hfinished⟩ := hcomes
    refine ⟨⟨turns, perform_calm hgoes, hfinished.calm⟩, ?_⟩
    exact (poised_perform m turns request).left hr
  | @paused request r s t status x hcomes hpause hadjusts _ ih =>
    obtain ⟨turns, hrun, -⟩ := hcomes
    have hs : Poised s := (poised_perform m turns request).ok hr hrun
    obtain ⟨⟨more, hmore, hfinished⟩, hx⟩ := ih (hadjusts.poised hs)
    obtain ⟨used, -, -, hgoes⟩ := perform_paused hr hrun hpause
    rw [hadjusts.calm] at hmore
    exact ⟨⟨used + more, (hgoes more).trans hmore, hfinished⟩, hx⟩

/-- What is replied with interruptions is replied without. -/
lemma Interrupted.calm {start : Run} {log : Dialogue} (h : Interrupted m start log r)
    (hstart : Poised start) : Session m start.calm log r.calm ∧ Poised r := by
  induction h with
  | start => exact ⟨.start, hstart⟩
  | adjusted _ hadjusts ih =>
    rw [hadjusts.calm]
    exact ⟨ih.1, hadjusts.poised ih.2⟩
  | next _ hthrough hreplied ih =>
    obtain ⟨hcomes, hpoised⟩ := hthrough.calm ih.2
    cases hreplied with
    | ok reply s => exact ⟨ih.1.next hcomes (.ok _ _), hpoised⟩
    | error e s => exact ⟨ih.1.next hcomes (.error _ _), hpoised⟩

lemma meets_of_calm {request : Request} {x : Result Reply} (hr : Poised r)
    (hrun : perform m turns request r.calm = x) (hfinished : Finished x)
    (hlater : ∀ more s, more ≤ turns → (request = .parse .start → more < turns) → Poised s →
      perform m more (.parse .start) s.calm = x → Meets m x (.parse .start) s) :
    Meets m x request r := by
  by_cases hpauses : Pauses (perform m turns request r)
  · obtain ⟨status, s, hpaused, hpause⟩ := hpauses
    have hs : Poised s := (poised_perform m turns request).ok hr hpaused
    obtain ⟨used, hpos, hle, hmore⟩ := perform_paused hr hpaused hpause
    refine .paused ⟨turns, hpaused, .of_ok _ _⟩ hpause fun t hadjusts => ?_
    refine hlater (turns - used) t (Nat.sub_le ..) (fun heq => ?_) (hadjusts.poised hs) ?_
    · have hused := hpos heq
      omega
    · rw [hadjusts.calm, ← hmore, Nat.add_sub_cancel' hle, hrun]
  · have hcalm := (perform_calm hpauses).symm.trans hrun
    refine .now ⟨turns, rfl, fun s hs => ?_⟩ hpauses hcalm
    rw [hs] at hcalm
    exact hfinished _ hcalm.symm

/-- A run gets through with whatever the calm run comes to. -/
lemma Comes.meets {request : Request} {x : Result Reply} (h : Comes m request r.calm x)
    (hr : Poised r) : Meets m x request r := by
  obtain ⟨turns, hrun, hfinished⟩ := h
  -- The entries at the start come first: each pause takes at least one turn from them.
  have hstart (turns : Nat) (s : Run) (hs : Poised s)
      (hrun : perform m turns (.parse .start) s.calm = x) : Meets m x (.parse .start) s := by
    induction turns using Nat.strongRecOn generalizing s with
    | ind turns ih =>
      exact meets_of_calm hs hrun hfinished fun more t _ hlt ht hmore =>
        ih more (hlt rfl) t ht hmore
  exact meets_of_calm hr hrun hfinished fun more s _ _ hs hmore => hstart more s hs hmore

lemma calm_initial (m : Machine) (forest : Forest) :
    (initial m forest none).calm = initial m forest none := rfl

lemma snapshot_calm (r : Run) : r.calm.snapshot = r.snapshot := by
  have hscanner : r.calm.scanner = r.scanner := by
    obtain ⟨⟨_ | stream, _, _, _, _⟩, _⟩ := r <;> rfl
  unfold snapshot
  rw [hscanner]
  rfl

/-- Whatever a caller sets at will while a run waits, and however often the run pauses, it replies
the same as a run that is never to pause, and holds the same after each reply; where that run
replies, the interrupted one does in the end, however its pauses are answered.  And a parse pauses
exactly behind the moves with which a pause is due. -/
theorem pausing_changes_nothing (m : Machine) (forest : Forest) :
    (∀ log r, Interrupted m (initial m forest none) log r →
      Session m (initial m forest none) log r.calm ∧ r.calm.snapshot = r.snapshot) ∧
    (∀ log r s request x, Session m (initial m forest none) log r →
      Interrupted m (initial m forest none) log s → Comes m request r x → Meets m x request s) ∧
    ∀ entry r s, r.aborted = false → ((∃ turns, parse m turns entry r = .ok .paused s) ↔
      ∃ before after a, Moved m entry r before after a ∧ PauseDue m before after ∧
        s = { after with events := .suspended .paused :: after.events }) := by
  have hcalm {log : Dialogue} {r : Run} (h : Interrupted m (initial m forest none) log r) :
      Session m (initial m forest none) log r.calm ∧ Poised r := by
    have hboth := h.calm (poised_of_start fun _ => rfl)
    rwa [calm_initial] at hboth
  refine ⟨fun log r h => ⟨(hcalm h).1, snapshot_calm r⟩, fun log r s request x hr hs hx => ?_,
    fun entry r s halive => parse_paused_iff halive⟩
  obtain ⟨hsession, hpoised⟩ := hcalm hs
  obtain rfl := hr.unique hsession
  exact hx.meets hpoised

/-- The letter is parsed with a pause behind the first step, which is taken back and done again in
another way, with another pause. -/
theorem pausing_changes_nothing_letter : ∃ r s t,
    Interrupted letterMachine (initial letterMachine (Pool.empty 8 8) none)
      [(.parse .start, .ok (.status .done)),
        (.attach (Stream.ofBytes [97]), .ok .accepted)] r ∧
    Session letterMachine (initial letterMachine (Pool.empty 8 8) none)
      [(.parse .start, .ok (.status .done)),
        (.attach (Stream.ofBytes [97]), .ok .accepted)] r.calm ∧
    r.calm.snapshot = r.snapshot ∧
    Meets letterMachine (.ok (.status .done) t) (.parse .start) (letterStart.pauseAt (some 1)) ∧
    parse letterMachine 20 .start (letterStart.pauseAt (some 1)) = .ok .paused s ∧
    ∃ before after a, Moved letterMachine .start (letterStart.pauseAt (some 1)) before after a ∧
      PauseDue letterMachine before after ∧
      s = { after with events := .suspended .paused :: after.events } := by
  obtain ⟨hinterrupted, hmeets, hpauses⟩ :=
    pausing_changes_nothing letterMachine (Pool.empty 8 8)
  have hpaused := Result.eq_ok_left (show Result.answer?
    (parse letterMachine 20 .start (letterStart.pauseAt (some 1))) = some .paused by
      decide +kernel)
  generalize hs : Result.left
    (parse letterMachine 20 .start (letterStart.pauseAt (some 1))) = s at hpaused
  have hagain := Result.eq_ok_left (show Result.answer? (parse letterMachine 20 .start s) =
    some .paused by subst hs; decide +kernel)
  generalize hq : Result.left (parse letterMachine 20 .start s) = q at hagain
  have hdone := Result.eq_ok_left (show Result.answer? (parse letterMachine 20 .start q) =
    some .done by subst hq hs; decide +kernel)
  generalize Result.left (parse letterMachine 20 .start q) = r at hdone
  obtain ⟨t, hparse, -⟩ := parse_letter
  have hattach : Comes letterMachine (.attach (Stream.ofBytes [97]))
      (initial letterMachine (Pool.empty 8 8) none) (.ok .accepted letterStart) :=
    ⟨0, rfl, .of_ok _ _⟩
  have hadjusted : Interrupted letterMachine (initial letterMachine (Pool.empty 8 8) none)
      [(.attach (Stream.ofBytes [97]), .ok .accepted)] (letterStart.pauseAt (some 1)) :=
    .adjusted (.next .start (.now hattach (by rintro ⟨_, _, h, -⟩; cases h)) (.ok _ _))
      (.pauseAt (some 1) .refl)
  have hr : Interrupted letterMachine (initial letterMachine (Pool.empty 8 8) none)
      [(.parse .start, .ok (.status .done)),
        (.attach (Stream.ofBytes [97]), .ok .accepted)] r :=
    .next hadjusted (.paused ⟨20, bind_ok hpaused _, .of_ok _ _⟩ rfl .refl
      (.paused ⟨20, bind_ok hagain _, .of_ok _ _⟩ rfl .refl
        (.now ⟨20, bind_ok hdone _, .of_ok _ _⟩ (by rintro ⟨_, _, h, hp⟩; cases h; cases hp))))
      (.ok _ _)
  obtain ⟨hsession, hsnapshot⟩ := hinterrupted _ r hr
  refine ⟨r, s, t, hr, hsession, hsnapshot, ?_, hpaused, (hpauses _ _ _ rfl).1 ⟨20, hpaused⟩⟩
  exact hmeets _ _ _ _ _ (.next .start hattach (.ok _ _)) hadjusted
    ⟨20, bind_ok hparse _, .of_ok _ _⟩

end Rewind.Run
