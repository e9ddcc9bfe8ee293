import Rewind.Proofs.History

/-!
# Where a run says that it is back

A run answers that it is back at a step only where that step ended, or where its log begins.  No
move forward gives that answer.
-/

namespace Rewind.Run

open Attempt Op

/-- Whatever the operation replies is as `P` says. -/
def Replies {α : Type} (P : α → Prop) (op : Op α) : Prop :=
  ∀ ⦃r s : Run⦄ ⦃a : α⦄, op r = .ok a s → P a

namespace Replies

variable {α β : Type} {P : α → Prop} {Q : β → Prop}

lemma pure {a : α} (h : P a) : Replies P (pure a) := by
  rintro r s _ ⟨⟩
  exact h

lemma fail (e : Error) : Replies P (Op.fail e) := by
  intro r s a h
  cases h

lemma bind {x : Op β} {f : β → Op α} (hf : ∀ b, Replies P (f b)) : Replies P (x >>= f) := by
  intro r s a h
  obtain ⟨b, t, -, h1⟩ := bind_eq_ok.1 h
  exact hf b h1

lemma andThen {x : Op β} {f : β → Op α} (hx : Replies Q x) (hf : ∀ b, Q b → Replies P (f b)) :
    Replies P (x >>= f) := by
  intro r s a h
  obtain ⟨b, t, hb, h1⟩ := bind_eq_ok.1 h
  exact hf b (hx hb) h1

lemma ite {p : Prop} [Decidable p] {x y : Op α} (hx : Replies P x) (hy : Replies P y) :
    Replies P (if p then x else y) := by
  split
  · exact hx
  · exact hy

end Replies

/-- The caller is asked to act. -/
def Status.asks : Status → Bool
  | .reduction _ _ _ | .generation _ _ _ | .preEof _ => true
  | _ => false

/-- If there is an answer, it asks the caller to act. -/
def Asks (a : Option Status) : Prop :=
  ∀ status, a = some status → status.asks = true

/-- The answer is not that the run is back. -/
def Onward (a : Option Status) : Prop :=
  ∀ steps, a ≠ some (.reverted steps)

lemma Asks.onward {a : Option Status} (h : Asks a) : Onward a := by
  rintro steps rfl
  cases h _ rfl

/-! ## Moves forward -/

lemma asks_acquire (m : Machine) :
    Replies (fun found => ∀ status, found = .suspended status → Asks (some status))
      (acquire m) := by
  refine .bind fun r => .bind fun regions => ?_
  generalize regions.headD 0 = first
  induction regions with
  | nil => exact .pure nofun
  | cons region regions ih =>
    refine .bind fun outcome => ?_
    cases outcome with
    | noToken => exact ih
    | eof =>
      refine .bind fun r => .ite (.bind fun _ => .bind fun _ => .pure ?_) (.bind fun _ =>
        .bind fun _ => .bind fun _ => .bind fun _ => .pure nofun)
      rintro _ ⟨⟩ _ ⟨⟩
      rfl
    | tree id ignore =>
      exact .bind fun _ => .bind fun _ => .bind fun _ => .bind fun _ => .bind fun _ =>
        .ite (.bind fun _ => .pure nofun) (.bind fun _ => .pure nofun)
    | token element length =>
      refine .bind fun _ => .bind fun _ => .bind fun _ => .ite (.bind fun _ => .bind fun _ =>
        .pure ?_) (.bind fun _ => .bind fun _ => .ite (.bind fun _ => .bind fun _ => .pure nofun)
          (.bind fun _ => .bind fun _ => .pure nofun))
      rintro _ ⟨⟩ _ ⟨⟩
      rfl

lemma asks_reduce (m : Machine) (production : ProductionId) (alternative : Nat)
    (more commits : Bool) : Replies Asks (reduce m production alternative more commits) := by
  refine .bind fun info => .bind fun _ => .bind fun _ => .bind fun _ => .bind fun found => ?_
  cases found with
  | error found => exact .fail _
  | ok found =>
    refine .bind fun _ => .bind fun _ => .bind fun _ => .bind fun _ => .bind fun _ =>
      .bind fun _ => .bind fun _ => .bind fun _ => .bind fun _ =>
        .ite (.bind fun _ => .pure ?_) (.pure nofun)
    rintro _ ⟨⟩
    rfl

lemma asks_act (m : Machine) (id : NodeId) (decision : Grammar.Decision) (target : StateId)
    (commits : Bool) : Replies Asks (act m id decision target commits) := by
  unfold act
  cases decision.action with
  | shift => exact .bind fun _ => .pure nofun
  | reduce production => exact asks_reduce ..
  | shiftReduce production => exact .bind fun _ => asks_reduce ..

lemma onward_completeStep (m : Machine) (commits : Bool) :
    Replies Onward (completeStep m commits) := by
  have hend : Replies Onward (endStep m) :=
    .bind fun _ => .bind fun _ => .bind fun _ => .bind fun _ =>
      .ite (.bind fun _ => .pure nofun) (.ite (.bind fun _ => .pure nofun)
        (.ite (.pure nofun) (.pure nofun)))
  intro r s a h
  rw [completeStep_eq] at h
  exact hend h

lemma onward_goForward (m : Machine) : Replies Onward (goForward m) := by
  refine .bind fun r => ?_
  cases r.queue with
  | cons id rest =>
    refine .bind fun n => .bind fun _ => .bind fun found => ?_
    cases found with
    | none => exact .bind fun _ => .pure nofun
    | some decision =>
      refine .bind fun _ => .bind fun _ => .bind fun _ => .bind fun _ =>
        .andThen (asks_act ..) fun status hstatus => ?_
      cases status with
      | some status => exact .pure hstatus.onward
      | none => exact onward_completeStep ..
  | nil =>
    refine .andThen (asks_acquire m) fun found hfound => ?_
    cases found with
    | queued => exact .pure nofun
    | skipped => exact .pure nofun
    | suspended status => exact .pure (hfound status rfl).onward
    | noToken region => exact .bind fun _ => .bind fun _ => .pure nofun

lemma onward_enter (m : Machine) (entry : Entry) : Replies Onward (enter m entry) := by
  have hresume (production : ProductionId) (commits : Bool) :
      Replies Onward (resumeReduction m production commits) :=
    .bind fun _ => .bind fun _ => .ite
      (.bind fun _ => .bind fun _ => .bind fun _ => .pure nofun) (onward_completeStep ..)
  refine .bind fun r => ?_
  cases r.point with
  | reduction production commits =>
    cases entry with
    | reduction => exact .ite (.fail _) (hresume production commits)
    | _ => exact .ite (.fail _) (.fail _)
  | _ =>
    cases entry <;> first
      | exact .pure nofun
      | exact .ite (.fail _) (.pure nofun)
      | exact .ite (.fail _) (.fail _)
      | exact .ite (.fail _) (.bind fun _ => .pure nofun)

/-! ## Back at a step -/

/-- So many steps are left, and the log tells of nothing since the last of them. -/
structure AtBoundary (m : Machine) (steps : Nat) (r : Run) : Prop where
  steps : r.steps = steps
  last : r.log.records = [] ∨ ∃ older, r.log.records = .stepEnded :: older
  point : ∃ reached, atEnd m r = .ok reached ∧ r.point = if reached then .done else .start

variable {m : Machine} {r s : Run} {steps : Nat}

/-- A run that waits between two steps waits where its view says. -/
lemma AtBoundary.settled (h : AtBoundary m steps r) (ho : Orderly r.view) :
    r.point = settled m r.view := by
  obtain ⟨reached, hreached, hpoint⟩ := h.point
  rw [atEnd_ok ho] at hreached
  rw [hpoint, Run.settled, Except.ok.inj hreached]

/-- It has landed there, on its path. -/
lemma AtBoundary.landed {strict : Prop} {Noted : List Record → View → Prop} {base : View}
    (h : AtBoundary m steps r) (hr : Sound m strict Noted base r) (hbase : Orderly base) :
    Landed m Noted base steps r := by
  refine ⟨h.steps, h.settled (hr.orderly hbase), ?_⟩
  have hpath := hr.path
  rcases h.last with hlog | ⟨older, hlog⟩
  · rw [hlog] at hpath
    exact .inl ⟨hlog, hpath.of_same⟩
  · rw [hlog] at hpath ⊢
    generalize r.view = v at hpath
    cases hpath with
    | change _ _ hnoted => exact .inr (hnoted rfl)

lemma settled_boundary {goal : Goal} (hgoal : atGoal r goal = true)
    (h : (do return some (← settle m) : Op (Option Status)) r = .ok (some (.reverted steps)) s) :
    goal = .step steps ∧ AtBoundary m steps s := by
  obtain ⟨status, t, hsettle, h1⟩ := bind_eq_ok.1 h
  rw [settle, get_bind] at hsettle
  obtain ⟨reached, u, hlook, hrest⟩ := bind_eq_ok.1 hsettle
  obtain ⟨hreached, rfl⟩ := lookup_eq_ok.1 hlook
  cases hrest
  cases h1
  cases goal with
  | step target =>
    obtain ⟨hsteps, hlast⟩ := atGoal_step_iff.1 hgoal
    exact ⟨congrArg Goal.step hsteps.symm, rfl, hlast, reached, hreached, rfl⟩
  | backtrack => cases hgoal

lemma unwind_reverted {goal : Goal} {records : List Record}
    (h : unwind m goal records r = .ok (some (.reverted steps)) s) :
    goal = .step steps ∧ AtBoundary m steps s := by
  induction records generalizing r with
  | nil =>
    rw [unwind, get_bind] at h
    split at h
    · exact settled_boundary ‹_› h
    · cases h
  | cons record older ih =>
    rw [unwind, get_bind] at h
    split at h
    · exact settled_boundary ‹_› h
    · simp only [modify_bind, tell_bind] at h
      obtain ⟨taken, t, -, h1⟩ := bind_eq_ok.1 h
      cases taken with
      | plain => exact ih h1
      | decision alternative =>
        cases goal with
        | step target => exact ih h1
        | backtrack => cases h1
      | action data => cases h1

lemma turn_reverted (h : turn m r = .ok (some (.reverted steps)) s) : AtBoundary m steps s := by
  rw [turn, get_bind] at h
  cases hpoint : r.point with
  | start =>
    simp only [hpoint] at h
    exact absurd rfl (onward_goForward m h steps)
  | reverse goal =>
    simp only [hpoint] at h
    exact (unwind_reverted h).2
  | _ =>
    simp only [hpoint] at h
    cases h

lemma takeTurns_reverted {turns : Nat} (h : takeTurns m turns r = .ok (.reverted steps) s) :
    AtBoundary m steps s := by
  induction turns generalizing r with
  | zero => cases h
  | succ turns ih =>
    rw [takeTurns] at h
    obtain ⟨a, t, hturn, h1⟩ := bind_eq_ok.1 h
    cases a with
    | none => exact ih h1
    | some status =>
      cases h1
      exact turn_reverted hturn

/-- A parse that answers that it is back at a step is there. -/
theorem parse_reverted {turns : Nat} {entry : Entry}
    (h : parse m turns entry r = .ok (.reverted steps) s) : AtBoundary m steps s := by
  obtain ⟨-, t, hresume, rfl⟩ := ok_of_unlessAborted h
  rw [resume] at hresume
  obtain ⟨a, u, henter, hrest⟩ := bind_eq_ok.1 hresume
  cases a with
  | none =>
    have ht := takeTurns_reverted hrest
    exact ⟨ht.steps, ht.last, ht.point⟩
  | some status =>
    cases hrest
    exact absurd rfl (onward_enter m entry henter steps)

/-- So is a run that answers so when something was taken back. -/
theorem undoTo_reverted {target : Nat} (h : undoTo m target r = .ok (.reverted steps) s) :
    AtBoundary m steps s := by
  obtain ⟨-, t, hback, rfl⟩ := ok_of_unlessAborted h
  obtain ⟨hle, hwaits, -⟩ := lasts_goBack (.inl ⟨_, hback⟩)
  rw [goBack_apply hle hwaits] at hback
  have ht := takeTurns_reverted hback
  exact ⟨ht.steps, ht.last, ht.point⟩

end Rewind.Run
