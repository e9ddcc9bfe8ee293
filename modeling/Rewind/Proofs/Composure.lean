import Rewind.Proofs.Aftermath
import Rewind.Proofs.Interruptions
import Rewind.Proofs.Turns

/-!
# What is on its way

While a run waits, a tree may have been rejected, an alternative may wait to be tried, or the run
may be halted.  Where the run waits tells which of these are possible, and so nothing of the kind is
on its way when a step is completed.
-/

namespace Rewind.Run

open Attempt Op

variable {m : Machine} {r s t : Run} {a : Option Status} {e : Error} {turns target : Nat}
  {entry : Entry}

/-! ## What is possible where -/

/-- Nothing is rejected but a reduction, and nothing is tried again while a reduction waits. -/
structure Composed (r : Run) : Prop where
  retry : ∀ production commits, r.point = .reduction production commits → r.retry = 0
  rejecting : r.rejecting = true → (∃ production commits, r.point = .reduction production commits) ∨
    ∃ target, r.point = .reverse (.step target)

/-- No reduction waits, and nothing is rejected. -/
lemma composed_of_not (hpoint : ∀ production commits, r.point ≠ .reduction production commits)
    (hrejecting : r.rejecting = false) : Composed r :=
  ⟨fun production commits h => absurd h (hpoint production commits), fun h => by
    rw [hrejecting] at h
    cases h⟩

namespace Composed

lemma congr (h : Composed r) (hpoint : s.point = r.point) (hretry : s.retry = r.retry)
    (hrejecting : s.rejecting = r.rejecting) : Composed s :=
  ⟨by rw [hpoint, hretry]; exact h.retry, by rw [hpoint, hrejecting]; exact h.rejecting⟩

lemma not_rejecting (h : Composed r)
    (hpoint : ∀ production commits, r.point ≠ .reduction production commits)
    (hback : ∀ target, r.point ≠ .reverse (.step target)) : r.rejecting = false := by
  rw [← Bool.not_eq_true]
  intro hrejecting
  rcases h.rejecting hrejecting with ⟨production, commits, hreduction⟩ | ⟨target, hreverse⟩
  · exact hpoint production commits hreduction
  · exact hback target hreverse

lemma started (h : Composed r) (hpoint : r.point = .start) : r.rejecting = false :=
  h.not_rejecting (fun _ _ h => by cases hpoint.symm.trans h)
    fun _ h => by cases hpoint.symm.trans h

end Composed

/-! ## Going forward -/

/-- What is on its way. -/
def flags (r : Run) : Nat × Bool × Bool :=
  (r.retry, r.rejecting, r.halted)

lemma flags_marked (r : Run) : flags (marked r) = flags r := by
  unfold marked
  split <;> rfl

lemma flags_acquired {found : Acquired} (hrescans : Rescans r t) (h : Acquires m t found s) :
    flags s = flags r := by
  obtain ⟨stream, rest, scanner, -, -, -, rfl⟩ := hrescans
  cases h with
  | preEof | ended | noToken => rfl
  | _ => exact flags_marked _

/-- Acting tries nothing again, and rejects nothing. -/
lemma flags_act {id : NodeId} {decision : Grammar.Decision} {target : StateId} {commits : Bool}
    (h : act m id decision target commits r = .ok a s) : flags s = flags r := by
  have hinert (c : Nat × Bool × Bool) : Inert fun r => flags r = c :=
    .of_part (fun _ _ _ _ _ _ _ _ _ _ _ _ _ => rfl) c
  exact Keeps.part_eq (fun c => (hinert c).act (fun _ _ hr => hr) _ _ _ _) h

lemma flags_completeStep {commits : Bool} (h : completeStep m commits r = .ok a s) :
    flags s = flags r := by
  have hstepped : flags (stepped commits r) = flags r := by cases commits <;> rfl
  obtain ⟨reached, -, ⟨-, -, rfl⟩ | ⟨-, -, -, rfl⟩ | ⟨-, -, -, rfl⟩⟩ := completeStep_ok h
  · exact hstepped
  · exact hstepped
  · exact hstepped

lemma rejecting_of_flags (h : flags s = flags r) : s.rejecting = r.rejecting :=
  congrArg (·.2.1) h

lemma composed_completeStep {commits : Bool} (hpoint : r.point = .start)
    (hrejecting : r.rejecting = false) (h : completeStep m commits r = .ok a s) : Composed s := by
  have hstepped : (stepped commits r).point = .start := by cases commits <;> exact hpoint
  refine composed_of_not (fun production commits => ?_)
    ((rejecting_of_flags (flags_completeStep h)).trans hrejecting)
  obtain ⟨reached, -, ⟨-, -, rfl⟩ | ⟨-, -, -, rfl⟩ | ⟨-, -, -, rfl⟩⟩ := completeStep_ok h
  · exact nofun
  · exact fun h => by cases hstepped.symm.trans h
  · exact fun h => by cases hstepped.symm.trans h

lemma composed_forwards (hr : Composed r) (hpoint : r.point = .start) (h : Forwards m r a s) :
    Composed s := by
  have hrejecting := hr.started hpoint
  have hrescanned {t : Run} (hrescans : Rescans r t) : t.point = .start := by
    obtain ⟨stream, rest, scanner, -, -, -, rfl⟩ := hrescans
    exact hpoint
  cases h with
  | stepped hqueue hsteps =>
    cases hsteps with
    | refused _ _ _ => exact composed_of_not nofun hrejecting
    | suspended _ _ _ _ hact =>
      have hflags := flags_act hact
      refine ⟨fun _ _ _ => congrArg Prod.fst hflags, fun h => ?_⟩
      rw [(rejecting_of_flags hflags).trans hrejecting] at h
      cases h
    | completed _ _ _ _ hact hcomplete =>
      exact composed_completeStep ((act_rests hact).trans hpoint)
        ((rejecting_of_flags (flags_act hact)).trans hrejecting) hcomplete
  | @acquired _ t _ hrescans hacquires =>
    have hfound {found : Acquired} (hacquires : Acquires m t found s)
        (hgoes : found = .queued ∨ found = .skipped) : Composed s := by
      have hstart := ((point_acquires hacquires).1 hgoes).trans (hrescanned hrescans)
      exact composed_of_not (fun _ _ h => by cases hstart.symm.trans h)
        ((rejecting_of_flags (flags_acquired hrescans hacquires)).trans hrejecting)
    rcases hacquires with hacquires | hacquires
    · exact hfound hacquires (.inl rfl)
    · exact hfound hacquires (.inr rfl)
  | suspended _ hrescans hacquires =>
    have hwaits := ((point_acquires hacquires).2 _ rfl).2
    refine composed_of_not (fun _ _ h => ?_)
      ((rejecting_of_flags (flags_acquired hrescans hacquires)).trans hrejecting)
    rcases hwaits with hwaits | hwaits <;> cases hwaits.symm.trans h
  | refused _ hrescans hacquires _ =>
    exact composed_of_not nofun
      ((rejecting_of_flags (flags_acquired hrescans hacquires)).trans hrejecting)

lemma composed_goForward_error (ht : Tidy False r) (hr : Composed r) (hpoint : r.point = .start)
    (he : e.isFatal = false) (h : goForward m r = .error (.error e) s) : Composed s := by
  have hrejecting := hr.started hpoint
  obtain ⟨t, -, rfl, ⟨_, _, _, -, -, -, -, rfl⟩ | ⟨region, -, hrescans, hacquires, -⟩⟩ :=
    goForward_error ht.pool ht.attached he h
  · exact composed_of_not nofun hrejecting
  · exact composed_of_not nofun
      ((rejecting_of_flags (flags_acquired hrescans hacquires)).trans hrejecting)

lemma composed_enters (hr : Composed r) (h : Enters m r a s) : Composed s := by
  cases h with
  | done _ => exact hr
  | back _ => exact hr
  | start _ _ => exact hr
  | action hpoint _ =>
    refine composed_of_not nofun (hr.not_rejecting (fun _ _ h => ?_) fun _ h => ?_) <;>
      rcases hpoint with hpoint | hpoint <;> cases hpoint.symm.trans h
  | reduction _ _ hresume =>
    rcases resumeReduction_ok hresume with ⟨-, -, -, span, rfl⟩ | ⟨hrejecting, hcomplete⟩
    · exact composed_of_not nofun rfl
    · exact composed_completeStep (r := { r with point := .start }) rfl hrejecting hcomplete

lemma composed_enter_error (hr : Composed r) (he : e.isFatal = false)
    (h : enter m entry r = .error (.error e) s) : Composed s := by
  rcases enter_error he h with ⟨-, -, rfl⟩ | ⟨production, commits, -, -, hresume⟩
  · exact hr
  · obtain ⟨-, -, span, -, rfl, -⟩ := resumeReduction_error he hresume
    exact composed_of_not nofun rfl

/-! ## Going back -/

lemma inert_of_flags {I : Run → Prop} (h : ∀ r s : Run, s.point = r.point → s.retry = r.retry →
    s.rejecting = r.rejecting → I r → I s) : Inert I := by
  refine @Inert.of_parts I _ (fun r => (r.point, r.retry, r.rejecting))
    (fun _ _ _ _ _ _ _ _ _ _ _ _ _ => rfl) fun r s hsame => ?_
  obtain ⟨hpoint, hretry, hrejecting⟩ :
      s.point = r.point ∧ s.retry = r.retry ∧ s.rejecting = r.rejecting := by
    simpa only [Prod.mk.injEq] using hsame
  exact h r s hpoint hretry hrejecting

/-- Taking back leaves the run composed. -/
theorem composed_unwind {goal : Goal} {records : List Record} (hr : Composed r)
    (hpoint : r.point = .reverse goal) (h : Lasts (unwind m goal records) r s) : Composed s := by
  have hinert : Inert fun r => Composed r ∧ (goal = .backtrack → r.rejecting = false) :=
    inert_of_flags fun r s hpoint hretry hrejecting hr =>
      ⟨hr.1.congr hpoint hretry hrejecting, fun hgoal => hrejecting.trans (hr.2 hgoal)⟩
  have hback : goal = .backtrack → r.rejecting = false := by
    rintro rfl
    exact hr.not_rejecting (fun _ _ h => by cases hpoint.symm.trans h)
      fun _ h => by cases hpoint.symm.trans h
  have hkeeps := hinert.unwind (m := m)
    (fun _ _ hr => ⟨hr.1.congr rfl rfl rfl, hr.2⟩)
    (fun _ _ _ => ⟨⟨fun _ _ _ => rfl, nofun⟩, fun _ => rfl⟩)
    (fun hgoal _ _ hr => ⟨composed_of_not nofun (hr.2 hgoal), hr.2⟩) records
  exact (hkeeps.lasts ⟨hr, hback⟩ h).1

/-! ## Moves -/

lemma sound_turn {base : View} (hbase : Orderly base)
    (hr : Sound m False (fun _ _ => True) base r) (h : Lasts (turn m) r s) :
    Sound m False (fun _ _ => True) base s := by
  rcases h with ⟨a, h⟩ | ⟨e, he, h⟩
  · exact (turn_sound hr hbase h fun _ _ => trivial).1
  · exact turn_sound_error hr hbase he h

/-- The log of a composed run leads back to the base. -/
theorem steady_composed {base : View} (hbase : Orderly base) :
    Steady m fun r => Sound m False (fun _ _ => True) base r ∧ Composed r where
  enter r s entry hr h := by
    have ho := hr.1.orderly hbase
    rcases h with ⟨a, h⟩ | ⟨e, he, h⟩
    · have henters := enter_ok h
      exact ⟨hr.1.moves (moves_enters hr.1.toTidy ho henters fun _ _ => trivial).1,
        composed_enters hr.2 henters⟩
    · exact ⟨hr.1.moves (moves_enter_error hr.1.toTidy he h), composed_enter_error hr.2 he h⟩
  turn r s hr h := by
    refine ⟨sound_turn hbase hr.1 h, ?_⟩
    rcases lasts_turn h with ⟨hforward, hpoint⟩ | ⟨goal, hpoint, hback⟩ | rfl
    · rcases hforward with ⟨a, h⟩ | ⟨e, he, h⟩
      · exact composed_forwards hr.2 hpoint (goForward_ok hr.1.pool hr.1.attached h)
      · exact composed_goForward_error hr.1.toTidy hr.2 hpoint he h
    · exact composed_unwind hr.2 hpoint hback
    · exact hr.2
  events r events hr :=
    ⟨hr.1.moves (moves_settings hr.1.toTidy r.target r.stopping r.rejecting events),
      hr.2.congr rfl rfl rfl⟩

/-! ## Ends of steps -/

/-- Where a step ends, nothing is on its way. -/
lemma settled_completeStep {commits : Bool} (ho : Orderly r.view) (hpoint : r.point = .start)
    (hflags : flags r = (0, false, false)) (h : completeStep m commits r = .ok a s) :
    Concluded m s.steps s := by
  have hstepped : Orderly (stepped commits r).view := by
    cases commits <;> exact ho.keep rfl rfl rfl
  have hstart : (stepped commits r).point = .start := by cases commits <;> exact hpoint
  have hsame := (flags_completeStep h).trans hflags
  obtain ⟨hretry, hrejecting, hhalted⟩ :
      s.retry = 0 ∧ s.rejecting = false ∧ s.halted = false := by
    simpa only [flags, Prod.mk.injEq] using hsame
  obtain ⟨reached, hreached, hcases⟩ := completeStep_ok h
  rw [atEnd_ok hstepped] at hreached
  have hsettled : settled m (stepped commits r).view = if reached then .done else .start := by
    rw [settled, Except.ok.inj hreached]
  refine ⟨rfl, .inr ?_, ?_, hhalted, hretry, hrejecting⟩
  · refine ⟨(closed commits r).log.records, ?_⟩
    rcases hcases with ⟨-, -, rfl⟩ | ⟨-, -, -, rfl⟩ | ⟨-, -, -, rfl⟩ <;> rfl
  · rcases hcases with ⟨rfl, -, rfl⟩ | ⟨rfl, -, -, rfl⟩ | ⟨rfl, -, -, rfl⟩
    · exact hsettled.symm
    · exact hstart.trans hsettled.symm
    · exact hstart.trans hsettled.symm

lemma settled_forwards (ht : Tidy False r) (hr : Composed r) (ho : Orderly r.view)
    (hpoint : r.point = .start) (hhalted : r.halted = false) (h : Forwards m r a s)
    (hsteps : r.steps < s.steps) : Concluded m s.steps s := by
  have hacquired {t : Run} {found : Acquired} (hqueue : r.queue = []) (hrescans : Rescans r t)
      (h : Acquires m t found s) : Concluded m s.steps s := by
    obtain ⟨-, hsame⟩ : Moves m False (fun _ _ => True) r s ∧ _ :=
      moves_acquired ht ho hqueue hrescans h
    omega
  cases h with
  | stepped hqueue h =>
    cases h with
    | refused _ _ _ => exact absurd hsteps (Nat.lt_irrefl _)
    | suspended hn hdecide _ htarget hact =>
      obtain ⟨-, hsame, -⟩ : Moves m False (fun _ _ => True) r s ∧ _ :=
        moves_act ht ho hn hdecide htarget hact
      omega
    | @completed _ _ _ _ _ _ t hn hdecide _ htarget hact hcomplete =>
      obtain ⟨hmoves, -, hpoint'⟩ : Moves m False (fun _ _ => True) r t ∧ _ :=
        moves_act ht ho hn hdecide htarget hact
      refine settled_completeStep (hmoves.orderly ho) ((hpoint' rfl).trans hpoint) ?_ hcomplete
      rw [flags_act hact, flags, decided, hr.started hpoint, hhalted]
  | acquired hqueue hrescans h =>
    exact h.elim (hacquired hqueue hrescans) (hacquired hqueue hrescans)
  | suspended hqueue hrescans h => exact hacquired hqueue hrescans h
  | @refused region t hqueue hrescans h _ =>
    obtain ⟨-, hsame⟩ : Moves m False (fun _ _ => True) r t ∧ _ :=
      moves_acquired ht ho hqueue hrescans h
    exact absurd hsteps (Nat.not_lt.2 (Nat.le_of_eq hsame))

lemma settled_enters (hr : Composed r) (ho : Orderly r.view) (h : Enters m r a s)
    (hsteps : r.steps < s.steps) : Concluded m s.steps s := by
  cases h with
  | done _ => exact absurd hsteps (Nat.lt_irrefl _)
  | back _ => exact absurd hsteps (Nat.lt_irrefl _)
  | start _ _ => exact absurd hsteps (Nat.lt_irrefl _)
  | action _ _ => exact absurd hsteps (Nat.lt_irrefl _)
  | reduction hpoint hhalted hresume =>
    rcases resumeReduction_ok hresume with ⟨-, -, -, span, rfl⟩ | ⟨hrejecting, hcomplete⟩
    · exact absurd hsteps (Nat.lt_irrefl _)
    · refine settled_completeStep (r := { r with point := .start }) ho rfl ?_ hcomplete
      rw [flags, hr.retry _ _ hpoint, hrejecting, hhalted]

lemma settled_turn {base : View} (hbase : Orderly base)
    (hsound : Sound m False (fun _ _ => True) base r) (hr : Composed r) (hunder : Underway r)
    (h : turn m r = .ok a s) (hsteps : r.steps < s.steps) : Concluded m s.steps s := by
  rcases lasts_turn (lasts_ok h) with ⟨-, hpoint⟩ | ⟨goal, hpoint, -⟩ | rfl
  · rw [turn, get_bind] at h
    simp only [hpoint] at h
    exact settled_forwards hsound.toTidy hr (hsound.orderly hbase) hpoint (hunder.running hpoint)
      (goForward_ok hsound.pool hsound.attached h) hsteps
  · rw [turn, get_bind] at h
    simp only [hpoint] at h
    rcases unwind_sound hsound hbase with ⟨b, t, hback, -, hrecedes⟩ | ⟨misuse, t, hback, -⟩
    · obtain ⟨-, rfl⟩ := EStateM.Result.ok.inj (h.symm.trans hback)
      exact absurd hsteps (Nat.not_lt.2 hrecedes.steps)
    · cases h.symm.trans hback
  · exact absurd hsteps (Nat.lt_irrefl _)

/-! ## How many steps a move completes -/

/-- Nothing is noted, so no step is completed. -/
lemma Path.steps_eq {strict : Prop} {before records : List Record} {base v : View} {unread : Nat}
    (h : Path m strict (fun _ _ => False) before base unread records v) : v.steps = base.steps := by
  induction h with
  | start => rfl
  | change _ hc hnoted ih => rw [hc.steps, if_neg hnoted, ih]

lemma steps_turn {base : View} (hbase : Orderly base)
    (hr : Sound m False (fun _ _ => True) base r) (h : turn m r = .ok a s) :
    s.steps ≤ r.steps + 1 :=
  (turn_sound hr hbase h fun _ _ => trivial).2.2

lemma steps_turn_error {base : View} (hbase : Orderly base)
    (hr : Sound m False (fun _ _ => True) base r) (he : e.isFatal = false)
    (h : turn m r = .error (.error e) s) : s.steps = r.steps := by
  rcases lasts_turn (.inr ⟨e, he, h⟩) with ⟨-, hpoint⟩ | ⟨goal, hpoint, -⟩ | rfl
  · rw [turn, get_bind] at h
    simp only [hpoint] at h
    exact (moves_goForward_error hr.toTidy (hr.orderly hbase) he h).path.steps_eq
  · rw [turn, get_bind] at h
    simp only [hpoint] at h
    rw [grave_unwind m goal _ h] at he
    cases he
  · rfl

lemma steps_enter (ht : Tidy False r) (ho : Orderly r.view) (h : enter m entry r = .ok a s) :
    s.steps ≤ r.steps + 1 := by
  obtain ⟨-, hle⟩ : Moves m False (fun _ _ => True) r s ∧ _ :=
    moves_enters ht ho (enter_ok h) fun _ _ => trivial
  exact hle

lemma steps_enter_error (ht : Tidy False r) (he : e.isFatal = false)
    (h : enter m entry r = .error (.error e) s) : s.steps = r.steps :=
  (moves_enter_error ht he h).path.steps_eq

end Rewind.Run
