import Rewind.Proofs.Requests

/-!
# Pausing changes nothing

A caller may ask for a pause after so many steps, or for a stop after the step under way, whenever
it has control.  A run that pauses and is entered again at its start goes on as if it had not
paused: whatever pauses a caller asks for, all other answers are the same, and so is all that the
run holds.  `calm` is the run as it is for a caller who asks for no pauses.

A run pauses at the end of a step exactly if as many steps are completed as were asked for, no stop
is pending and the parse is not at its end.
-/

namespace Rewind.Run

open Attempt Op

/-! ## Without pauses -/

/-- A veil that hides what is to pause a run, and the pauses among the events. -/
def pauseless : Veil where
  stream := id
  target := fun _ => none
  stopping := fun _ => false
  events := List.filter fun e => !e.isPause
  answer := Option.filter fun status => !status.isPause

/-- The run of a caller who asks for no pauses. -/
def calm (r : Run) : Run :=
  pauseless.veiled r

variable {m : Machine} {r s t : Run} {turns : Nat} {a : Option Status} {entry : Entry}

lemma pauseless_lawful : pauseless.Lawful where
  position := fun _ => rfl
  putBack := fun _ _ _ => rfl
  pushText := fun _ _ => rfl
  pushTree := fun _ _ _ => rfl
  takeTree := fun s => by
    change s.takeTree? = s.takeTree?.map (Prod.map id id)
    rw [Prod.map_id, Option.map_id]
    rfl
  events := fun e es he => by
    simp [pauseless, he]
  answer := fun status h => by simp [pauseless, Option.filter, h]
  onward := rfl

lemma pauseless_ends (m : Machine) : pauseless.Ends m := by
  intro r
  refine Veil.answers_bind (Veil.commutes_write _) fun _ s _ =>
    Veil.answers_bind (Veil.commutes_modify rfl) fun _ s _ => ?_
  rw [Veil.Answers, get_bind, get_bind]
  rw [show atEnd m (pauseless.veiled s) = atEnd m s from rfl]
  rcases hreached : atEnd m s with f | reached
  · rfl
  · simp only [lookup_ok_bind]
    cases reached with
    | true => rfl
    | false =>
      simp only [Bool.false_eq_true, if_false]
      cases hstopping : s.stopping with
      | true => rfl
      | false =>
        simp only [Bool.false_eq_true, if_false]
        have hgoes : ¬(pauseless.veiled s).stopping = true := Bool.false_ne_true
        have hon : ¬(pauseless.veiled s).target = some (pauseless.veiled s).steps :=
          (Option.some_ne_none _).symm
        rw [if_neg hgoes, if_neg hon]
        split <;> rfl

lemma pauseless_scans (m : Machine) : pauseless.Scans m fun _ => True where
  scan := fun _ _ _ => Veil.commutes_onScanner (fun _ => rfl) _
  found := fun _ _ _ _ _ _ =>
    ⟨trivial, fun _ _ _ => Veil.commutes_onScanner (fun _ => rfl) _⟩

lemma pauseless_unwinds : pauseless.Unwinds fun _ _ => True where
  removes := fun _ _ _ _ _ _ => Veil.commutes_onScanner (fun _ => rfl) _
  undone := fun _ _ _ _ _ _ _ => trivial

lemma turn_calm (m : Machine) (r : Run) :
    turn m r.calm = pauseless.result pauseless.answer (turn m r) :=
  Veil.answers_turn pauseless_lawful (pauseless_scans m) (pauseless_ends m) pauseless_unwinds
    trivial trivial

lemma enter_calm (m : Machine) (entry : Entry) (r : Run) :
    enter m entry r.calm = pauseless.result pauseless.answer (enter m entry r) :=
  Veil.answers_enter pauseless_lawful (pauseless_ends m) entry

/-! ## Where a run pauses -/

/-- What a caller sets of a run, and the steps that are counted against it. -/
structure Pace where
  steps : Nat
  target : Option Nat
  stopping : Bool

/-- The pace of a run. -/
def pace (r : Run) : Pace :=
  ⟨r.steps, r.target, r.stopping⟩

lemma inert_pace (p : Pace) : Inert fun r => r.pace = p :=
  .of_part (fun _ _ _ _ _ _ _ _ _ _ _ _ _ => rfl) p

lemma inert_steps (steps : Nat) : Inert fun r => r.steps = steps :=
  .of_part (fun _ _ _ _ _ _ _ _ _ _ _ _ _ => rfl) steps

/-- A step is completed between the runs, as many are as were asked for, no stop is pending, and the
parse is not at its end. -/
structure PauseDue (m : Machine) (before after : Run) : Prop where
  completed : after.steps = before.steps + 1
  target : before.target = some after.steps
  running : before.stopping = false
  unfinished : atEnd m after = .ok false

/-- A move that completes no step is no reason to pause. -/
lemma not_due_of_le (h : s.steps ≤ r.steps) : ¬PauseDue m r s := by
  intro hdue
  have hcompleted := hdue.completed
  omega

lemma pauseDue_congr (h : t.pace = r.pace) : PauseDue m t s ↔ PauseDue m r s := by
  have hsteps : t.steps = r.steps := congrArg Pace.steps h
  have htarget : t.target = r.target := congrArg Pace.target h
  have hstopping : t.stopping = r.stopping := congrArg Pace.stopping h
  constructor <;> rintro ⟨h₁, h₂, h₃, h₄⟩
  · exact ⟨hsteps ▸ h₁, htarget ▸ h₂, hstopping ▸ h₃, h₄⟩
  · exact ⟨hsteps ▸ h₁, htarget ▸ h₂, hstopping ▸ h₃, h₄⟩

/-- The answer, if there is one, is no pause. -/
def Unpaused (a : Option Status) : Prop :=
  ∀ status, a = some status → status.isPause = false

lemma Unpaused.of_none : Unpaused none := by
  rintro _ ⟨⟩

lemma Unpaused.of_some {status : Status} (h : status.isPause = false) : Unpaused (some status) := by
  rintro _ ⟨⟩
  exact h

lemma Unpaused.ne (h : Unpaused a) : a ≠ some .paused := by
  rintro rfl
  cases h _ rfl

lemma Unpaused.of_asks (h : Asks a) : Unpaused a :=
  fun status ha => Veil.isPause_of_asks (h status ha)

/-- Where no step is completed, no pause is due, and none may be answered. -/
lemma pauses_of_le (ha : Unpaused a) (h : s.steps ≤ r.steps) :
    a = some .paused ↔ PauseDue m r s :=
  ⟨fun hpaused => absurd hpaused ha.ne, fun hdue => absurd hdue (not_due_of_le h)⟩

lemma completeStep_pauses {commits : Bool} (h : completeStep m commits r = .ok a s) :
    a = some .paused ↔ PauseDue m r s := by
  have hstepped : (stepped commits r).steps = r.steps + 1 ∧
      (stepped commits r).target = r.target ∧ (stepped commits r).stopping = r.stopping := by
    cases commits <;> exact ⟨rfl, rfl, rfl⟩
  obtain ⟨hsteps, htarget, hstopping⟩ := hstepped
  obtain ⟨reached, hreached, ⟨rfl, rfl, rfl⟩ | ⟨rfl, hstop, rfl, rfl⟩ | ⟨rfl, hstop, rfl, rfl⟩⟩ :=
    completeStep_ok h
  · refine ⟨fun hpaused => absurd hpaused (Unpaused.of_some rfl).ne, fun hdue => ?_⟩
    cases hreached.symm.trans hdue.unfinished
  · refine ⟨fun hpaused => ?_, fun hdue => ?_⟩
    · cases hpaused
    · rw [hstopping, hdue.running] at hstop
      cases hstop
  · constructor
    · intro hpaused
      split at hpaused
      · rename_i hdue
        exact ⟨hsteps, htarget ▸ hdue, hstopping ▸ hstop, hreached⟩
      · cases hpaused
    · intro hdue
      rw [if_pos (htarget.trans hdue.target)]

lemma step_pauses {id : NodeId} (h : step m id r = .ok a s) :
    a = some .paused ↔ PauseDue m r s := by
  cases step_ok h with
  | refused _ _ _ => exact pauses_of_le .of_none (Nat.le_refl _)
  | suspended _ _ _ _ hact =>
    have hpace := Keeps.part_eq (fun p => (inert_pace p).act (fun _ _ h => h) _ _ _ _) hact
    exact pauses_of_le (.of_asks (asks_act m _ _ _ _ hact))
      (Nat.le_of_eq (congrArg Pace.steps hpace))
  | completed _ _ _ _ hact hcomplete =>
    have hpace := Keeps.part_eq (fun p => (inert_pace p).act (fun _ _ h => h) _ _ _ _) hact
    exact (completeStep_pauses hcomplete).trans (pauseDue_congr hpace)

lemma goForward_pauses (h : goForward m r = .ok a s) : a = some .paused ↔ PauseDue m r s := by
  rw [goForward, get_bind] at h
  cases hqueue : r.queue with
  | cons id rest =>
    simp only [hqueue] at h
    exact step_pauses h
  | nil =>
    simp only [hqueue] at h
    obtain ⟨found, t, hacquire, h1⟩ := bind_eq_ok.1 h
    have hsteps : t.steps ≤ r.steps :=
      Nat.le_of_eq (Keeps.part_eq (fun p => (inert_steps p).acquire fun _ _ h => h) hacquire)
    cases found with
    | queued =>
      cases h1
      exact pauses_of_le .of_none hsteps
    | skipped =>
      cases h1
      exact pauses_of_le .of_none hsteps
    | suspended status =>
      cases h1
      exact pauses_of_le (.of_asks (asks_acquire m hacquire _ rfl)) hsteps
    | noToken region =>
      simp only [get_bind] at h1
      obtain ⟨u, t', hturn, h2⟩ := bind_eq_ok.1 h1
      obtain ⟨-, rfl⟩ := turnBack_ok hturn
      cases h2
      exact pauses_of_le .of_none hsteps

/-- Taking a record back completes no step. -/
lemma undo_steps {record : Record} {taken : TakenBack} (h : undo record r = .ok taken s) :
    s.steps ≤ r.steps := by
  by_cases hrecord : record = .stepEnded
  · subst hrecord
    cases h
    exact Nat.sub_le _ _
  · exact Nat.le_of_eq (Keeps.part_eq
      (fun p => (inert_steps p).undo fun heq => absurd heq hrecord) h)

/-- Going back completes no step, and gives no pause as its answer. -/
lemma unwind_steps {goal : Goal} {records : List Record}
    (h : unwind m goal records r = .ok a s) : s.steps ≤ r.steps ∧ Unpaused a := by
  have hsettle {q : Run} (h : (do return some (← settle m) : Op (Option Status)) q = .ok a s) :
      s.steps ≤ q.steps ∧ Unpaused a := by
    obtain ⟨status, t, hsettled, h1⟩ := bind_eq_ok.1 h
    rw [settle, get_bind] at hsettled
    obtain ⟨reached, u, hlook, h2⟩ := bind_eq_ok.1 hsettled
    obtain ⟨-, rfl⟩ := lookup_eq_ok.1 hlook
    cases h2
    cases h1
    exact ⟨Nat.le_refl _, .of_some rfl⟩
  induction records generalizing r with
  | nil =>
    rw [unwind, get_bind] at h
    split at h
    · exact hsettle h
    · cases h
  | cons record older ih =>
    rw [unwind, get_bind] at h
    split at h
    · exact hsettle h
    · rw [modify_bind, tell_bind] at h
      obtain ⟨taken, t, hundo, h1⟩ := bind_eq_ok.1 h
      have hle := undo_steps hundo
      change t.steps ≤ r.steps at hle
      cases taken with
      | action data =>
        cases h1
        exact ⟨hle, .of_some rfl⟩
      | plain =>
        obtain ⟨hsteps, hnot⟩ := ih (by cases goal <;> exact h1)
        exact ⟨Nat.le_trans hsteps hle, hnot⟩
      | decision alternative =>
        cases goal with
        | step target =>
          obtain ⟨hsteps, hnot⟩ := ih h1
          exact ⟨Nat.le_trans hsteps hle, hnot⟩
        | backtrack =>
          cases h1
          exact ⟨hle, .of_none⟩

/-- A turn answers that it pauses exactly where a pause is due. -/
lemma turn_pauses (h : turn m r = .ok a s) : a = some .paused ↔ PauseDue m r s := by
  rw [turn, get_bind] at h
  cases hpoint : r.point with
  | start =>
    simp only [hpoint] at h
    exact goForward_pauses h
  | reverse goal =>
    simp only [hpoint] at h
    obtain ⟨hsteps, hunpaused⟩ := unwind_steps h
    exact pauses_of_le hunpaused hsteps
  | done =>
    simp only [hpoint] at h
    cases h
    exact pauses_of_le (.of_some rfl) (Nat.le_refl _)
  | _ =>
    simp only [hpoint] at h
    cases h

lemma enter_pauses (h : enter m entry r = .ok a s) : a = some .paused ↔ PauseDue m r s := by
  cases enter_ok h with
  | done _ => exact pauses_of_le (.of_some rfl) (Nat.le_refl _)
  | back _ => exact pauses_of_le .of_none (Nat.le_refl _)
  | start _ _ => exact pauses_of_le .of_none (Nat.le_refl _)
  | action _ _ => exact pauses_of_le .of_none (Nat.le_refl _)
  | reduction _ _ hresume =>
    rcases resumeReduction_ok hresume with ⟨-, rfl, -, span, rfl⟩ | ⟨-, hcomplete⟩
    · exact pauses_of_le .of_none (Nat.le_refl _)
    · exact (completeStep_pauses hcomplete).trans (pauseDue_congr rfl)

/-- A move of a parse, with its answer: the run is entered, and then takes turns. -/
inductive Moved (m : Machine) (entry : Entry) (r : Run) : Run → Run → Option Status → Prop
  | entered {a : Option Status} {s : Run} : enter m entry r = .ok a s → Moved m entry r r s a
  | turned {q s t : Run} {a : Option Status} :
    Moved m entry r q s none → turn m s = .ok a t → Moved m entry r s t a

lemma Moved.pauses (h : Moved m entry r s t a) : a = some .paused ↔ PauseDue m s t := by
  cases h with
  | entered henter => exact enter_pauses henter
  | turned _ hturn => exact turn_pauses hturn

/-- The moves of a parse that answers nothing lead to where its turns go on. -/
lemma Moved.goesOn (h : Moved m entry r s t none) :
    ∃ used, ∀ more, resume m (used + more) entry r = takeTurns m more t := by
  generalize ha : (none : Option Status) = a at h
  induction h with
  | entered henter =>
    subst ha
    exact ⟨0, fun more => by rw [resume, bind_ok henter, Nat.zero_add]⟩
  | turned _ hturn ih =>
    subst ha
    obtain ⟨used, hused⟩ := ih rfl
    refine ⟨used + 1, fun more => ?_⟩
    rw [Nat.add_assoc, Nat.add_comm 1, hused, takeTurns, bind_ok hturn]

/-- A move that gives an answer is the last one of the parse. -/
lemma Moved.answers {status : Status} (h : Moved m entry r s t (some status)) :
    ∃ turns, resume m turns entry r = .ok status t := by
  cases h with
  | entered henter => exact ⟨0, by rw [resume, bind_ok henter]; rfl⟩
  | turned hbefore hturn =>
    obtain ⟨used, hused⟩ := hbefore.goesOn
    refine ⟨used + 1, ?_⟩
    rw [hused, takeTurns, bind_ok hturn]
    rfl

theorem moved_takeTurns {status : Status} {q : Run} (hbefore : Moved m entry r q s none)
    (h : takeTurns m turns s = .ok status t) : ∃ u, Moved m entry r u t (some status) := by
  induction turns generalizing q s with
  | zero => cases h
  | succ turns ih =>
    obtain ⟨a, u, hturn, h1⟩ := bind_eq_ok.1 h
    cases a with
    | some status' =>
      cases h1
      exact ⟨_, .turned hbefore hturn⟩
    | none => exact ih (.turned hbefore hturn) h1

theorem moved_resume {status : Status} (h : resume m turns entry r = .ok status t) :
    ∃ s, Moved m entry r s t (some status) := by
  obtain ⟨a, u, henter, h1⟩ := bind_eq_ok.1 h
  cases a with
  | some status' =>
    cases h1
    exact ⟨_, .entered henter⟩
  | none => exact moved_takeTurns (.entered henter) h1

/-- A parse pauses exactly behind the moves with which a pause is due. -/
theorem parse_paused_iff (halive : r.aborted = false) :
    (∃ turns, parse m turns entry r = .ok .paused s) ↔
      ∃ before after a, Moved m entry r before after a ∧ PauseDue m before after ∧
        s = { after with events := .suspended .paused :: after.events } := by
  constructor
  · rintro ⟨turns, h⟩
    obtain ⟨-, t, hresume, rfl⟩ := ok_of_unlessAborted h
    obtain ⟨before, hmoved⟩ := moved_resume hresume
    exact ⟨before, t, _, hmoved, hmoved.pauses.1 rfl, rfl⟩
  · rintro ⟨before, after, a, hmoved, hdue, rfl⟩
    obtain rfl := hmoved.pauses.2 hdue
    obtain ⟨turns, hresume⟩ := hmoved.answers
    exact ⟨turns, unlessAborted_ok halive hresume⟩

end Rewind.Run
