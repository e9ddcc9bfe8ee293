import Rewind.Proofs.Books
import Rewind.Proofs.Interruptions
import Rewind.Proofs.Retries

/-!
# Keeping the books

Taking a record back puts the books right without it.  So a run that goes back comes to its goal
before the log is exhausted, if the log tells of the goal at all; and the log does: of the step that
is asked for, since as many are counted as the log tells of, and of the decision that is turned back
to, since that is counted too.
-/

namespace Rewind.Run

open Attempt Op

variable {whole : Prop}

/-! ## Taking back -/

/-- The books are right but for a record that was torn out of the log and is yet to be taken back.
-/
structure Torn (whole : Prop) (point : Point) (record : Record) (r : Run) : Prop where
  lined : Lined (record :: r.log.records) r.queue
  tallied : whole → r.steps = (record :: r.log.records).count .stepEnded
  point : r.point = point

namespace Torn

variable {point : Point} {record : Record} {id : NodeId} {r : Run}

lemma tally (h : Torn whole point record r) (hrecord : record ≠ .stepEnded) (hwhole : whole) :
    Tallied r :=
  (h.tallied hwhole).trans (List.count_cons_of_ne hrecord)

/-- Nothing is to be done about a record that has nothing to do with the books. -/
lemma filed (h : Torn whole point record r) (helsewhere : record.isElsewhere = true)
    (hrecord : record ≠ .stepEnded) : Filed whole point [] [] r := by
  refine ⟨?_, h.tally hrecord, h.point⟩
  rw [List.append_nil]
  exact h.lined.of_elsewhere helsewhere

/-- What joined the lookahead is at its back. -/
lemma joined (h : Torn whole point record r) (hjoined : record.joined? = some id) :
    ∃ front, r.queue = front ++ [id] ∧ Filed whole point [] [] { r with queue := front } := by
  have hrecord : record ≠ .stepEnded := by
    rintro rfl
    cases hjoined
  obtain ⟨front, hqueue, hlined⟩ := h.lined.of_joined hjoined
  refine ⟨front, hqueue, ?_, h.tally hrecord, h.point⟩
  rw [List.append_nil]
  exact hlined

/-- An operation that has nothing to do with the books takes such a record back. -/
lemma quiet {op : Op TakenBack} (helsewhere : record.isElsewhere = true)
    (hrecord : record ≠ .stepEnded) (hop : Quiet op) :
    Brings whole (Torn whole point record) op fun _ => Filed whole point [] [] :=
  (Filed.quiet hop).conseq (fun _ h => h.filed helsewhere hrecord) fun _ _ h => h

end Torn

/-- Taking a record back puts the books right. -/
lemma brings_undo (record : Record) {point : Point} :
    Brings whole (Torn whole point record) (undo record) fun _ => Filed whole point [] [] := by
  have hset {f : Run → Run} (h : ∀ r, SameBooks r (f r)) :
      Quiet (do modify f; return TakenBack.plain) :=
    (Quiet.modify h).bind fun _ => .pure _
  cases record with
  | scanned id start =>
    exact (Brings.takeBack fun _ h => h.joined rfl).bind fun _ =>
      (Filed.quiet (.unscan _ _)).bind fun _ => .pure fun _ h => h
  | setAside id start =>
    exact Torn.quiet rfl (by nofun) ((Quiet.node id).bind fun _ =>
      (Quiet.modify fun _ => by exact ⟨rfl, rfl, rfl, rfl⟩).bind fun _ =>
      (Quiet.unscan _ _).bind fun _ => .pure _)
  | treeTaken id ignore =>
    cases ignore with
    | true =>
      exact Torn.quiet rfl (by nofun) ((Quiet.node id).bind fun _ =>
        (Quiet.modify fun _ => by exact ⟨rfl, rfl, rfl, rfl⟩).bind fun _ =>
        (Quiet.change _ _).bind fun _ => (Quiet.changeStream _).bind fun _ => .pure _)
    | false =>
      exact (Brings.takeBack fun _ h => h.joined rfl).bind fun _ =>
        (Filed.quiet (.changeStream _)).bind fun _ => .pure fun _ h => h
  | sent id =>
    exact (Brings.takeBack fun _ h => h.joined rfl).bind fun _ =>
      (Filed.quiet (Quiet.makes.releaseTree _)).bind fun _ => .pure fun _ h => h
  | consumed text start =>
    exact Torn.quiet rfl (by nofun) ((Quiet.changeStream _).bind fun _ => .pure _)
  | textPushed count =>
    exact Torn.quiet rfl (by nofun) ((Quiet.changeStream _).bind fun _ => .pure _)
  | treePushed id =>
    exact Torn.quiet rfl (by nofun) ((Quiet.changeStream _).bind fun _ =>
      (Quiet.makes.release id).bind fun _ => .pure _)
  | shifted id previous ignored alternative more =>
    have hrest : Brings whole (Filed whole point [id] []) (do
        putFront id
        modify fun r => { r with state := previous }
        takeBackDecision alternative more) fun _ => Filed whole point [] [] :=
      (Brings.modify fun _ h => by exact ⟨h.lined, h.tallied, h.point⟩).bind fun _ =>
        (Filed.quiet (.modify fun _ => by exact ⟨rfl, rfl, rfl, rfl⟩)).bind fun _ =>
        Filed.quiet (.takeBackDecision _ _)
    have hundo : Brings whole (Filed whole point [id] [])
        (undo (.shifted id previous ignored alternative more))
        fun _ => Filed whole point [] [] :=
      (Filed.quiet (.node id)).bind fun _ =>
        (Filed.quiet (.modify fun _ => by exact ⟨rfl, rfl, rfl, rfl⟩)).bind fun _ =>
        (Filed.quiet (.change _ _)).bind fun _ => .ite
          (fun _ => (Filed.quiet (.change _ _)).bind fun _ =>
            (Filed.quiet (.modify fun _ => by exact ⟨rfl, rfl, rfl, rfl⟩)).bind fun _ => hrest)
          fun _ => hrest
    refine hundo.conseq (fun r h => ⟨?_, h.tally nofun, h.point⟩) fun _ _ h => h
    rw [List.append_nil]
    exact h.lined.of_shifted
  | reduced tree previous alternative more =>
    refine (Brings.takeFront fun r h => ?_).bind fun _ => .look fun _ =>
      (Filed.quiet (.lookup _)).bind fun _ =>
        (Filed.quiet (Quiet.makes.restack Quiet.places.stack _)).bind fun _ =>
      (Filed.quiet (Quiet.makes.release _)).bind fun _ =>
      (Filed.quiet (.modify fun _ => by exact ⟨rfl, rfl, rfl, rfl⟩)).bind fun _ =>
      Filed.quiet (.takeBackDecision _ _)
    obtain ⟨rest, hqueue, hlined⟩ := h.lined.of_reduced
    refine ⟨rest, hqueue, ?_, h.tally nofun, h.point⟩
    rw [List.append_nil]
    exact hlined
  | stepEnded =>
    refine (Brings.modify fun r h => ⟨?_, fun hwhole => ?_, h.point⟩).bind fun _ =>
      .pure fun _ h => h
    · rw [List.append_nil]
      exact h.lined.of_elsewhere rfl
    · have hsteps : r.steps = r.log.records.count .stepEnded + 1 :=
        (h.tallied hwhole).trans List.count_cons_self
      exact Nat.sub_eq_of_eq_add hsteps
  | bound name previous => exact Torn.quiet rfl (by nofun) (hset fun _ => ⟨rfl, rfl, rfl, rfl⟩)
  | dropped chain => exact Torn.quiet rfl (by nofun) (hset fun _ => ⟨rfl, rfl, rfl, rfl⟩)
  | committed barrier retries =>
    exact Torn.quiet rfl (by nofun) (hset fun _ => ⟨rfl, rfl, rfl, rfl⟩)
  | endActionMarked previous => exact Torn.quiet rfl (by nofun) (hset fun _ => ⟨rfl, rfl, rfl, rfl⟩)
  | action data => exact Torn.quiet rfl (by nofun) (.pure _)

/-- A goal that taking back reaches before the log is exhausted, if the log is whole. -/
def Goal.Within (whole : Prop) (records : List Record) : Goal → Prop
  | .step target => whole → target ≤ records.count .stepEnded
  | .backtrack => ∃ record ∈ records, record.decides = true

/-- What is taken back on the way to a goal is not the goal. -/
lemma Goal.Within.older {goal : Goal} {record : Record} {older : List Record} {r : Run}
    (h : goal.Within whole (record :: older))
    (hr : whole → r.steps = (record :: older).count .stepEnded)
    (hlog : r.log.records = record :: older) (hgoal : atGoal r goal = false)
    (hnot : goal = .backtrack → record.decides = false) : goal.Within whole older := by
  cases goal with
  | step target =>
    intro hwhole
    have hle : target ≤ (record :: older).count .stepEnded := h hwhole
    by_cases hrecord : record = .stepEnded
    · subst hrecord
      have hsteps := hr hwhole
      rw [List.count_cons_self] at hle hsteps
      have hne : r.steps ≠ target := by
        intro hsame
        simp [atGoal, hsame, Journal.last?, hlog] at hgoal
      omega
    · rwa [List.count_cons_of_ne hrecord] at hle
  | backtrack =>
    obtain ⟨decision, hmem, hdecides⟩ := h
    rcases List.mem_cons.1 hmem with rfl | hmem
    · rw [hnot rfl] at hdecides
      cases hdecides
    · exact ⟨decision, hmem, hdecides⟩

lemma brings_settle (m : Machine) {point : Point} :
    Brings whole (Filed whole point [] []) (settle m) fun status =>
      Proceeds whole (some status) := by
  refine .look fun _ => (Filed.quiet (.lookup _)).bind fun reached =>
    .bind (Q := fun _ => Filed whole (if reached = true then .done else .start) [] [])
      (.modify fun _ h => ⟨h.lined, h.tallied, rfl⟩)
      fun _ => .look fun _ => .pure fun _ h => ⟨_, ?_, h, ?_⟩
  · cases reached <;> rfl
  · cases reached <;> nofun

/-- A goal that is within the log is reached before the log is exhausted. -/
theorem brings_unwind (m : Machine) (goal : Goal) (records : List Record) :
    Brings whole (fun r => r.log.records = records ∧ Filed whole (.reverse goal) [] [] r ∧
      goal.Within whole records)
      (unwind m goal records) (Proceeds whole) := by
  have hsettle : Brings whole (Filed whole (.reverse goal) [] []) (do return some (← settle m))
      (Proceeds whole) :=
    (brings_settle m).bind fun _ => .pure fun _ h => h
  induction records with
  | nil =>
    refine .get fun r hr => .ite
      (fun _ => hsettle.conseq (fun _ h => h.1.2.1) fun _ _ h => h) fun hgoal => ?_
    obtain ⟨hlog, hfiled, hwithin⟩ := hr
    cases goal with
    | step target =>
      refine .get fun q hq => .fail fun t ht =>
        ⟨fun _ => ⟨fun hwhole => hgoal ?_, _, _, rfl⟩, ht.1.1.2.1.tallied, nofun⟩
      have hnone : target = 0 := Nat.le_zero.1 (hwithin hwhole)
      have hsteps : r.steps = 0 := by
        rw [hfiled.tallied hwhole, hlog]
        rfl
      simp [atGoal, hsteps, hnone, Journal.last?, hlog]
    | backtrack =>
      obtain ⟨record, hmem, -⟩ := hwithin
      cases hmem
  | cons record older ih =>
    refine .get fun r hr => .ite
      (fun _ => hsettle.conseq (fun _ h => h.1.2.1) fun _ _ h => h) fun hgoal => ?_
    obtain ⟨hlog, hfiled, hwithin⟩ := hr
    have htallied (hwhole : whole) : r.steps = (record :: older).count .stepEnded :=
      hlog ▸ hfiled.tallied hwhole
    have holder := hwithin.older htallied hlog (by simpa using hgoal)
    let Left (b : TakenBack) (s : Run) : Prop :=
      s.log.records = older ∧ Filed whole (.reverse goal) [] [] s ∧ b = record.takenBack
    have hundo : Brings whole (fun s => s.log.records = older ∧ Torn whole (.reverse goal) record s)
        (undo record) Left := by
      refine fun s hs => ⟨fun b u hrun => ?_, fun e u hrun => ((brings_undo record) hs.2).2 hrun⟩
      have hback := (restores_undo record).ok hrun
      exact ⟨hback.log ▸ hs.1, ((brings_undo record) hs.2).1 hrun, hback.reported⟩
    have hnext (b : TakenBack)
        (hgoes : goal = .backtrack → ∀ alternative, b ≠ .decision alternative) :
        Brings whole (Left b) (unwind m goal older) (Proceeds whole) := by
      refine fun s hs => ih ⟨hs.1, hs.2.1, holder fun hback => ?_⟩
      rw [← Bool.not_eq_true, Record.decides_iff]
      rintro ⟨alternative, htaken⟩
      exact hgoes hback alternative (hs.2.2.trans htaken)
    refine .bind (Q := fun _ s => s.log.records = older ∧ Torn whole (.reverse goal) record s)
      (.modify ?_) fun _ => .bind (Q := fun _ s => s.log.records = older ∧
        Torn whole (.reverse goal) record s) (.modify ?_) fun _ => hundo.bind fun b => ?_
    · rintro s ⟨-, rfl⟩
      refine ⟨rfl, ?_, htallied, hfiled.point⟩
      have hlined := hfiled.lined
      rw [hlog, List.nil_append, List.append_nil] at hlined
      exact hlined
    · exact fun s hs => ⟨hs.1, hs.2.lined, hs.2.tallied, hs.2.point⟩
    · cases b with
      | plain => exact hnext .plain nofun
      | decision alternative =>
        cases goal with
        | step target => exact hnext (.decision alternative) nofun
        | backtrack =>
          exact (Brings.modify fun s hs => by
            exact show Filed whole .start [] [] _ from ⟨hs.2.1.lined, hs.2.1.tallied, rfl⟩).bind
              fun _ => .pure fun _ h => h
      | action data =>
        refine .pure fun s hs => ⟨.reverse goal, rfl, hs.2.1, ?_⟩
        rintro hwhole target hgoal
        cases hgoal
        have hwithin : target ≤ older.count .stepEnded := holder nofun hwhole
        rwa [← hs.1, ← hs.2.1.tallied hwhole] at hwithin

/-! ## Turns whole -/

variable {m : Machine}

/-- The log tells of the step to go back to, if that lies behind. -/
lemma Filed.within {r : Run} {point : Point} {front back : List NodeId} {target : Nat}
    (h : Filed whole point front back r) (hle : whole → target ≤ r.steps) :
    (Goal.step target).Within whole r.log.records :=
  fun hwhole => Nat.le_trans (hle hwhole) (Nat.le_of_eq (h.tallied hwhole))

/-- A run that turns back has a decision to turn back to. -/
lemma RetriesCounted.within {r : Run} (h : RetriesCounted r)
    (hpoint : r.point = .reverse .backtrack) :
    Goal.backtrack.Within whole r.log.records := by
  obtain ⟨fewer, hfewer⟩ := Nat.exists_eq_succ_of_ne_zero (Nat.ne_of_gt (h.hopeful hpoint))
  have hcounted := h.counted
  rw [Counted, hfewer] at hcounted
  obtain ⟨newer, decision, older, hlog, -, hdecides, -⟩ := hcounted.split
  refine ⟨decision, ?_, hdecides⟩
  rw [hlog]
  exact List.mem_append_right _ List.mem_cons_self

/-- A run that takes turns goes forward, or goes back to something that its log tells of. -/
def Moving (whole : Prop) (r : Run) : Prop :=
  Filed whole .start [] [] r ∨ ∃ goal :
    Goal, Filed whole (.reverse goal) [] [] r ∧ goal.Within whole r.log.records

/-- A run goes on, or waits for the entry that its status names. -/
def GoesOn (whole : Prop) (a : Option Status) (r : Run) : Prop :=
  match a with
  | none => Moving whole r
  | some status => Proceeds whole (some status) r

lemma Proceeds.goesOn {a : Option Status} {r : Run} (h : Proceeds whole a r) :
    GoesOn whole a r := by
  cases a with
  | none => exact .inl h
  | some status => exact h

lemma Turns.goesOn {a : Option Status} {r : Run} (h : Turns whole a r)
    (hcounts : RetriesCounted r) :
    GoesOn whole a r := by
  rcases h with h | ⟨rfl, h⟩
  · exact h.goesOn
  · exact .inr ⟨.backtrack, h, hcounts.within h.point⟩

lemma brings_turn (m : Machine) :
    Brings whole (fun r => RetriesCounted r ∧ Moving whole r) (turn m) fun a r => RetriesCounted r ∧
      GoesOn whole a r := by
  intro r hr
  have hcounts {a s} (h : turn m r = .ok a s) :
      RetriesCounted s := retriesCounted_turn hr.1 (lasts_ok h)
  rcases hr.2 with hfiled | ⟨goal, hfiled, hwithin⟩
  · have hturn : turn m r = goForward m r := by
      rw [turn, get_bind, hfiled.point]
    obtain ⟨hok, herror⟩ := brings_goForward m hfiled
    refine ⟨fun a s h => ?_, fun e s h => herror (hturn ▸ h)⟩
    exact ⟨hcounts h, (hok (hturn ▸ h)).goesOn (hcounts h)⟩
  · have hturn : turn m r = unwind m goal r.log.records r := by
      rw [turn, get_bind, hfiled.point]
    obtain ⟨hok, herror⟩ := brings_unwind m goal r.log.records ⟨rfl, hfiled, hwithin⟩
    refine ⟨fun a s h => ?_, fun e s h => herror (hturn ▸ h)⟩
    exact ⟨hcounts h, (hok (hturn ▸ h)).goesOn⟩

theorem brings_takeTurns (m : Machine) (turns : Nat) :
    Brings whole (fun r => RetriesCounted r ∧ Moving whole r) (takeTurns m turns)
      fun status => Proceeds whole (some status) := by
  induction turns with
  | zero => refine fun r _ => ⟨fun a s h => ?_, fun e s h => ?_⟩ <;> cases h
  | succ turns ih =>
    refine (brings_turn m).bind fun a => ?_
    cases a with
    | none => exact ih
    | some status => exact .pure fun _ h => h.2

/-! ## Entering -/

lemma brings_resumeReduction (m : Machine) (production : ProductionId) (commits : Bool)
    {point : Point} :
    Brings whole (Filed whole point [] []) (resumeReduction m production commits)
      (Turns whole) := by
  refine .bind (Q := fun _ => Filed whole .start [] [])
    (.modify fun _ h => ⟨h.lined, h.tallied, rfl⟩)
    fun _ => .look fun r => .ite (fun _ => ?_)
    fun _ => (brings_completeStep m commits).conseq (fun _ h => h) fun _ _ h => .inl h
  refine (Filed.quiet (.modify fun _ => by exact ⟨rfl, rfl, rfl, rfl⟩)).bind fun _ => ?_
  exact (Filed.quiet Quiet.makes.frontSpan).bind fun span => brings_turnBack rfl

/-- A run that waits for an entry, with books that are right. -/
structure Awaits (whole : Prop) (entry : Entry) (r : Run) : Prop where
  filed : ∃ point, point.entry = entry ∧ Filed whole point [] [] r ∧
    (whole → ∀ target, point = .reverse (.step target) → target ≤ r.steps)
  retriesCounted : RetriesCounted r
  underway : Underway r

lemma brings_enter (m : Machine) (entry : Entry) :
    Brings whole (Awaits whole entry) (enter m entry) fun a r => RetriesCounted r ∧
      GoesOn whole a r := by
  intro r h
  obtain ⟨point, rfl, hfiled, hbound⟩ := h.filed
  have hrunning : r.point.entry ≠ .reverse → r.halted = false := by
    intro hentry
    by_contra hhalted
    obtain ⟨steps, hpoint⟩ := h.underway (by simpa using hhalted)
    rw [hpoint] at hentry
    exact hentry rfl
  have henter := enter_awaited (m := m) hfiled.point (hfiled.point ▸ hrunning)
  -- Where nothing is done but that the run may go forward, its books stay right.
  have hgo {a : Option Status} {s : Run} (henter : enter m point.entry r = .ok a s)
      (hs : GoesOn whole a s) :
      (∀ a s, enter m point.entry r = .ok a s → GoesOn whole a s) ∧
        ∀ e s, enter m point.entry r = .error (.error e) s → Fails whole e s := by
    rw [henter]
    refine ⟨fun a s h => ?_, fun e s h => ?_⟩ <;> cases h
    exact hs
  have hgoesOn : (∀ a s, enter m point.entry r = .ok a s → GoesOn whole a s) ∧
      ∀ e s, enter m point.entry r = .error (.error e) s → Fails whole e s := by
    cases point with
    | start => exact hgo henter (.inl hfiled)
    | done => exact hgo henter ⟨.done, rfl, hfiled, nofun⟩
    | generation => exact hgo henter (.inl ⟨hfiled.lined, hfiled.tallied, rfl⟩)
    | preEof => exact hgo henter (.inl ⟨hfiled.lined, hfiled.tallied, rfl⟩)
    | reverse goal =>
      refine hgo henter (.inr ⟨goal, hfiled, ?_⟩)
      cases goal with
      | step target => exact hfiled.within fun hwhole => hbound hwhole target rfl
      | backtrack => exact h.retriesCounted.within hfiled.point
    | reduction production commits =>
      obtain ⟨hok, herror⟩ := brings_resumeReduction m production commits hfiled
      refine ⟨fun a s hrun => ?_, fun e s hrun => herror (henter.symm.trans hrun)⟩
      exact (hok (henter.symm.trans hrun)).goesOn
        (retriesCounted_enter h.retriesCounted (lasts_ok hrun))
  exact ⟨fun a s hrun =>
    ⟨retriesCounted_enter h.retriesCounted (lasts_ok hrun), hgoesOn.1 a s hrun⟩,
    fun e s hrun => hgoesOn.2 e s hrun⟩

theorem brings_resume (m : Machine) (turns : Nat) (entry : Entry) :
    Brings whole (Awaits whole entry) (resume m turns entry) fun status =>
      Proceeds whole (some status) := by
  refine (brings_enter m entry).bind fun a => ?_
  cases a with
  | none => exact brings_takeTurns m turns
  | some status => exact .pure fun _ h => h.2

/-- A run that is not taking back is taken back to a step that it has completed. -/
lemma brings_goBack (m : Machine) (target : Nat) {point : Point} (hentry : point.entry ≠ .reverse) :
    Brings whole (fun r => (Filed whole point [] [] r ∧ RetriesCounted r) ∧ target ≤ r.steps)
      (goBack m target)
      fun status => Proceeds whole (some status) := by
  rintro r ⟨⟨hfiled, hcounts⟩, hle⟩
  have hwaits (goal : Goal) : r.point ≠ .reverse goal := by
    intro hpoint
    rw [← hfiled.point, hpoint] at hentry
    exact hentry rfl
  rw [goBack_apply hle hwaits]
  exact (brings_takeTurns m 1) ⟨⟨hcounts.counted, nofun⟩,
    .inr ⟨.step target, ⟨hfiled.lined, hfiled.tallied, rfl⟩, hfiled.within fun _ => hle⟩⟩

/-! ## Halting -/

/-- A run that gives control back is halted only while it goes back to a step. -/
theorem underway_resume {r s : Run} {turns : Nat} {entry : Entry} {status : Status}
    (h : Underway r) (hrun : resume m turns entry r = .ok status s) : Underway s := by
  obtain ⟨a, t, henter, h1⟩ := bind_eq_ok.1 hrun
  cases a with
  | some status =>
    cases h1
    cases enter_ok henter with
    | done _ => exact h
    | reduction _ hrunning hresume =>
      exact underway_of_running ((running_resumeReduction m _ _).ok hrunning hresume)
  | none =>
    have ht := ((poised_enter m entry h.poised).1 _ _ henter).2 rfl
    exact (underway_takeTurns m turns).ok ht h1

lemma underway_goBack {r s : Run} {target : Nat} {status : Status}
    (hrun : goBack m target r = .ok status s) : Underway s := by
  obtain ⟨hle, hwaits, -⟩ := lasts_goBack (lasts_ok hrun)
  rw [goBack_apply hle hwaits] at hrun
  have hunder : Underway { r with point := .reverse (.step target) } := fun _ => ⟨target, rfl⟩
  exact (underway_takeTurns m 1).ok hunder hrun

/-- A halted run refuses every entry, and stays as it is. -/
theorem resume_halted {r : Run} (h : Halts whole r) (turns : Nat) (entry : Entry) :
    resume m turns entry r = .error (.error .halted) r := by
  refine bind_error ?_ _
  rw [enter, get_bind, h.point]
  cases entry <;> exact congrFun (if_pos h.halted) r

/-! ## Between calls and within them -/

/-- A run whose books are right, wherever it waits. -/
structure BooksRight (whole : Prop) (r : Run) : Prop where
  filed : Filed whole r.point [] [] r
  retriesCounted : RetriesCounted r
  /-- It goes back to no step that lies ahead. -/
  bound : whole → ∀ target, r.point = .reverse (.step target) → target ≤ r.steps

namespace BooksRight

variable {r s : Run} {a : Option Status}

lemma of_proceeds {status : Status} (h : Proceeds whole (some status) r)
    (hcounts : RetriesCounted r) : BooksRight whole r := by
  obtain ⟨point, -, hfiled, hbound⟩ := h
  obtain rfl := hfiled.point
  exact ⟨hfiled, hcounts, hbound⟩

lemma of_start (h : Filed whole .start [] [] r) (hcounts : RetriesCounted r) :
    BooksRight whole r := by
  have hpoint := h.point
  refine ⟨hpoint.symm ▸ h, hcounts, fun _ target hback => ?_⟩
  rw [hpoint] at hback
  cases hback

lemma of_goesOn (h : GoesOn whole a r) (hcounts : RetriesCounted r) : BooksRight whole r := by
  cases a with
  | some status => exact of_proceeds h hcounts
  | none =>
    rcases h with hfiled | ⟨goal, hfiled, hwithin⟩
    · exact of_start hfiled hcounts
    · have hpoint := hfiled.point
      refine ⟨hpoint.symm ▸ hfiled, hcounts, fun hwhole target hback => ?_⟩
      obtain rfl : goal = .step target := Point.reverse.inj (hpoint.symm.trans hback)
      exact Nat.le_trans (hwithin hwhole) (Nat.le_of_eq (hfiled.tallied hwhole).symm)

lemma of_halts (h : Halts whole r) (hcounts : RetriesCounted r) : BooksRight whole r :=
  of_start h.toFiled hcounts

/-- What an operation comes to that keeps the books, if it is not over. -/
lemma of_brings {op : Op (Option Status)} {P : Run → Prop}
    (hop : Brings whole P op (GoesOn whole)) (hr : P r) (hlasts : Lasts op r s)
    (hcounts : RetriesCounted s) : BooksRight whole s := by
  rcases hlasts with ⟨a, hrun⟩ | ⟨e, he, hrun⟩
  · exact of_goesOn ((hop hr).1 hrun) hcounts
  · exact of_halts (((hop hr).2 hrun).halts he).2 hcounts

lemma moving (h : BooksRight whole r)
    (hpoint : r.point = .start ∨ ∃ goal, r.point = .reverse goal) :
    Moving whole r := by
  rcases hpoint with hpoint | ⟨goal, hpoint⟩
  · exact .inl (hpoint ▸ h.filed)
  · refine .inr ⟨goal, hpoint ▸ h.filed, ?_⟩
    cases goal with
    | step target => exact h.filed.within fun hwhole => h.bound hwhole target hpoint
    | backtrack => exact h.retriesCounted.within hpoint

lemma turn (h : BooksRight whole r) (hlasts : Lasts (turn m) r s) : BooksRight whole s := by
  have hcounts := retriesCounted_turn h.retriesCounted hlasts
  have hmoves (hpoint : r.point = .start ∨ ∃ goal, r.point = .reverse goal) : BooksRight whole s :=
    of_brings ((brings_turn m).conseq (fun _ hq => hq) fun _ _ hq => hq.2)
      ⟨h.retriesCounted, h.moving hpoint⟩ hlasts hcounts
  rcases lasts_turn hlasts with ⟨-, hpoint⟩ | ⟨goal, hpoint, -⟩ | rfl
  · exact hmoves (.inl hpoint)
  · exact hmoves (.inr ⟨goal, hpoint⟩)
  · exact h

lemma enter {entry : Entry} (h : BooksRight whole r) (hlasts : Lasts (enter m entry) r s) :
    BooksRight whole s := by
  have hcounts := retriesCounted_enter h.retriesCounted hlasts
  rcases hlasts with ⟨a, henter⟩ | ⟨e, he, henter⟩
  · cases enter_ok henter with
    | action _ _ => exact of_start ⟨h.filed.lined, h.filed.tallied, rfl⟩ hcounts
    | reduction _ _ hresume =>
      have hturns := (brings_resumeReduction m _ _ h.filed).1 hresume
      exact of_goesOn (hturns.goesOn hcounts) hcounts
    | _ => exact h
  · rcases enter_error he henter with ⟨-, -, rfl⟩ | ⟨production, commits, -, -, hresume⟩
    · exact h
    · have hfails := (brings_resumeReduction m production commits h.filed).2 hresume
      exact of_halts (hfails.halts he).2 hcounts

/-- A run may go back to a step that it has completed. -/
lemma aimed {target : Nat} (h : BooksRight whole r) (hle : whole → target ≤ r.steps) :
    BooksRight whole { r with point := .reverse (.step target) } where
  filed := ⟨h.filed.lined, h.filed.tallied, rfl⟩
  retriesCounted := ⟨h.retriesCounted.counted, nofun⟩
  bound hwhole target' hpoint := by
    cases hpoint
    exact hle hwhole

lemma tallied (h : BooksRight True r) : Tallied r :=
  h.filed.tallied trivial

end BooksRight

/-- Books stay right from move to move, until the run is over. -/
theorem steady_booksRight (m : Machine) : Steady m (BooksRight whole) where
  enter _ _ _ h hlasts := h.enter hlasts
  turn _ _ h hlasts := h.turn hlasts
  events _ _ h := ⟨⟨h.filed.lined, h.filed.tallied, rfl⟩,
    ⟨h.retriesCounted.counted, h.retriesCounted.hopeful⟩, h.bound⟩

end Rewind.Run
