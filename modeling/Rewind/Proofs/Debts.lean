import Rewind.Proofs.Additions
import Rewind.Proofs.Protocol
import Rewind.Proofs.Reverted

/-!
# Data that is owed to a caller

A caller may leave data with a run whenever it acts, and is given back what it has left, one datum
after the other, when the run takes these actions back.  An `Account` is kept by a caller who only
looks on: of the data that it has left and was not given back, of what that was when each step was
completed, and of what it was when each decision was taken that could have been another.  What the
run gives back is always what was left last; and wherever it comes back to, it owes exactly what it
owed there.
-/

namespace Rewind.Run

open Attempt Op

/-! ## Accounts -/

/-- The data of an action. -/
def Record.data? : Record → Option Bytes
  | .action data => some data
  | _ => none

/-- The data that a log holds, the newest first. -/
def dataOf (records : List Record) : List Bytes :=
  records.filterMap Record.data?

/-- What a caller knows of the data that it has left. -/
structure Account where
  /-- What was left and not yet given back, the newest first. -/
  owed : List Bytes := []
  /-- For each number of steps, what was owed when the last of them was completed. -/
  atStep : Nat → List Bytes := fun _ => []
  /-- For each number of records, what was owed when the decision on top of them was taken. -/
  atDecision : Nat → List Bytes := fun _ => []

/-- The move between these runs took a decision that could have been another: its record stands on
top of the log that there was before. -/
def decidesBetween (before after : Run) : Bool :=
  (after.log.records.take (after.log.length - before.log.length)).getLast?.any Record.decides

namespace Account

/-- The account behind a move of a parse. -/
def note (a : Account) (before after : Run) : Account where
  owed := a.owed
  atStep :=
    if before.steps < after.steps then Function.update a.atStep after.steps a.owed else a.atStep
  atDecision :=
    if decidesBetween before after then Function.update a.atDecision before.log.length a.owed
    else a.atDecision

/-- The account behind moves of a parse that passes through runs. -/
def notes : Account → Run → List Run → Account
  | a, _, [] => a
  | a, before, after :: later => notes (a.note before after) after later

/-- The account behind a status: a datum may be given back. -/
def settle (a : Account) : Option Status → Account
  | some (.reverse _) => { a with owed := a.owed.tail }
  | _ => a

/-- The account behind a request and its reply. -/
def after (a : Account) (m : Machine) (turns : Nat) (r : Run) :
    Request → Except Error Reply → Account
  | .leaveData data, .ok _ => { a with owed := data :: a.owed }
  | .parse entry, .ok (.status status) => (a.notes r (passed m turns entry r)).settle (some status)
  | .parse entry, _ => a.notes r (passed m turns entry r)
  | .undoTo _, .ok (.status status) => a.settle (some status)
  | _, _ => a

/-- The account tells what was owed at the ends of steps and the decisions that a log tells of. -/
def Tells (a : Account) : List Record → Prop
  | [] => True
  | record :: older => a.Tells older ∧
    (record = .stepEnded → a.atStep (older.count .stepEnded + 1) = dataOf older) ∧
    (record.decides = true → a.atDecision older.length = dataOf older)

variable {a : Account} {newer older : List Record} {r s : Run}

lemma Tells.of_append (h : a.Tells (newer ++ older)) : a.Tells older := by
  induction newer with
  | nil => exact h
  | cons record newer ih => exact ih h.1

lemma Tells.append (hnewer : ∀ record ∈ newer, record ≠ .stepEnded ∧ record.decides = false)
    (h : a.Tells older) : a.Tells (newer ++ older) := by
  induction newer with
  | nil => exact h
  | cons record newer ih =>
    obtain ⟨hends, hdecides⟩ := hnewer record List.mem_cons_self
    refine ⟨ih fun x hx => hnewer x (List.mem_cons_of_mem _ hx), fun heq => absurd heq hends,
      fun htrue => ?_⟩
    rw [hdecides] at htrue
    cases htrue

/-- What is owed now is no matter for what was owed before. -/
lemma Tells.congr {b : Account} {records : List Record} (h : a.Tells records)
    (hstep : b.atStep = a.atStep) (hdecision : b.atDecision = a.atDecision) : b.Tells records := by
  induction records with
  | nil => trivial
  | cons record older ih =>
    refine ⟨ih h.1, ?_, ?_⟩
    · rw [hstep]
      exact h.2.1
    · rw [hdecision]
      exact h.2.2

/-- What is noted of a move says nothing of the log that there was before. -/
lemma Tells.note {records : List Record} (h : a.Tells records)
    (hlength : records.length ≤ r.log.length) (hsteps : records.count .stepEnded ≤ r.steps) :
    (a.note r s).Tells records := by
  induction records with
  | nil => trivial
  | cons record older ih =>
    obtain ⟨holder, hstep, hdecision⟩ := h
    have hfewer : older.count .stepEnded ≤ (record :: older).count .stepEnded :=
      List.count_le_count_cons
    have hshorter : older.length < r.log.length := hlength
    refine ⟨ih holder (Nat.le_of_lt hshorter) (Nat.le_trans hfewer hsteps), fun hends => ?_,
      fun hdecides => ?_⟩
    · subst hends
      rw [List.count_cons_self] at hsteps
      rw [← hstep rfl]
      simp only [Account.note]
      split
      · exact Function.update_of_ne (by omega) _ _
      · rfl
    · rw [← hdecision hdecides]
      simp only [Account.note]
      split
      · exact Function.update_of_ne (by omega) _ _
      · rfl

end Account

lemma dataOf_append (newer older : List Record) :
    dataOf (newer ++ older) = dataOf newer ++ dataOf older :=
  List.filterMap_append

lemma dataOf_eq_nil {records : List Record} (h : ∀ record ∈ records, record.data? = none) :
    dataOf records = [] :=
  List.filterMap_eq_nil_iff.2 h

lemma Record.isBland_iff {record : Record} : record.isBland = true ↔
    record.data? = none ∧ record ≠ .stepEnded ∧ record.decides = false := by
  cases record <;> simp [Record.isBland, Record.data?, Record.decides]

lemma Record.of_isDecision {record : Record} (h : record.isDecision = true) :
    record.data? = none ∧ record ≠ .stepEnded := by
  cases record with
  | shifted _ _ _ _ _ => exact ⟨rfl, nofun⟩
  | reduced _ _ _ _ => exact ⟨rfl, nofun⟩
  | _ => cases h

/-- The record on top of the log that there was before tells whether the move decided. -/
lemma decidesBetween_eq {r s : Run} {above : List Record} {record : Record}
    (hlog : s.log.records = above ++ record :: r.log.records) :
    decidesBetween r s = record.decides := by
  have hsplit : s.log.records = (above ++ [record]) ++ r.log.records := by rw [hlog]; simp
  have hlength : s.log.length - r.log.length = (above ++ [record]).length := by
    rw [Journal.length, hsplit, List.length_append]
    exact Nat.add_sub_cancel ..
  rw [decidesBetween, hlength, hsplit, List.take_left, List.getLast?_concat]
  rfl

/-- A move that only takes back decides nothing. -/
lemma decidesBetween_of_le {r s : Run} (h : s.log.length ≤ r.log.length) :
    decidesBetween r s = false := by
  rw [decidesBetween, Nat.sub_eq_zero_of_le h]
  rfl

/-- The account of a run is right: it owes what its log holds. -/
structure Square (a : Account) (r : Run) : Prop where
  owed : dataOf r.log.records = a.owed
  tells : a.Tells r.log.records

namespace Square

variable {a : Account} {r s : Run}

/-- Moves that add what is bland are no matter for an account. -/
lemma written (h : Square a r) (hs : Written Record.isBland r.log.records s) : Square a s := by
  obtain ⟨newer, hlog, hnewer⟩ := hs
  have hbland (record : Record) (hrecord : record ∈ newer) :=
    Record.isBland_iff.1 (hnewer record hrecord)
  constructor
  · rw [hlog, dataOf_append, dataOf_eq_nil fun record hrecord => (hbland record hrecord).1]
    exact h.owed
  · rw [hlog]
    exact h.tells.append fun record hrecord => (hbland record hrecord).2

/-- A move forward leaves what is owed, and is noted where it decides or completes a step. -/
lemma lengthens (h : Square a r) (htallied : Tallied r) (hs : Lengthens r s) :
    Square (a.note r s) s := by
  obtain ⟨decided, middle, ended, hlog, hdecided, hmiddle, hended⟩ := hs
  have hbland (record : Record) (hrecord : record ∈ middle) :=
    Record.isBland_iff.1 (hmiddle record hrecord)
  have hbefore : (a.note r s).Tells r.log.records :=
    h.tells.note (Nat.le_refl _) (Nat.le_of_eq htallied.symm)
  -- First the decision, then what is bland, and then the end of the step.
  have hfirst : (a.note r s).Tells (decided ++ r.log.records) ∧
      dataOf (decided ++ r.log.records) = a.owed ∧
      (decided ++ r.log.records).count .stepEnded = r.steps := by
    rcases hdecided with rfl | ⟨record, rfl, hrecord⟩
    · exact ⟨hbefore, h.owed, htallied.symm⟩
    · obtain ⟨hdata, hends⟩ := Record.of_isDecision hrecord
      refine ⟨⟨hbefore, fun heq => absurd heq hends, fun hdecides => ?_⟩, ?_, ?_⟩
      · have hnewer : s.log.records = (ended ++ middle) ++ record :: r.log.records := by
          rw [hlog, List.append_assoc]
          rfl
        have hnow : decidesBetween r s = true := (decidesBetween_eq hnewer).trans hdecides
        simp only [Account.note, if_pos hnow]
        exact (Function.update_self ..).trans h.owed.symm
      · rw [dataOf_append, dataOf_eq_nil (by simpa using hdata)]
        exact h.owed
      · exact (List.count_cons_of_ne hends).trans htallied.symm
  obtain ⟨htells, howed, hcount⟩ := hfirst
  have hmid : (a.note r s).Tells (middle ++ (decided ++ r.log.records)) :=
    htells.append fun record hrecord => (hbland record hrecord).2
  have hdata : dataOf (middle ++ (decided ++ r.log.records)) = a.owed := by
    rw [dataOf_append, dataOf_eq_nil fun record hrecord => (hbland record hrecord).1]
    exact howed
  rcases hended with ⟨rfl, -⟩ | ⟨rfl, hsteps⟩
  · exact ⟨hlog ▸ hdata, hlog ▸ hmid⟩
  · constructor
    · rw [hlog]
      exact hdata
    · rw [hlog]
      refine ⟨hmid, fun _ => ?_, nofun⟩
      have hnone : middle.count .stepEnded = 0 :=
        List.count_eq_zero.2 fun hmem => (hbland _ hmem).2.1 rfl
      change (a.note r s).atStep ((middle ++ (decided ++ r.log.records)).count .stepEnded + 1) =
        dataOf (middle ++ (decided ++ r.log.records))
      rw [List.count_append, hnone, Nat.zero_add, hcount, hdata, ← hsteps]
      simp only [Account.note, if_pos (show r.steps < s.steps by omega)]
      exact Function.update_self ..

end Square

/-- A move back is not noted. -/
lemma Account.note_of_shorter (a : Account) {r s : Run} (hlength : s.log.length ≤ r.log.length)
    (hsteps : s.steps ≤ r.steps) : a.note r s = a := by
  rw [Account.note, if_neg (Nat.not_lt.2 hsteps), decidesBetween_of_le hlength]
  rfl

/-! ## Going back -/

/-- What a move back takes from the log, by its answer: an action is given back at once; a decision
is the last thing taken from the log when the run goes forward again. -/
def Gives (newer : List Record) (s : Run) : Option Status → Prop
  | some (.reverse data) => dataOf newer = [data]
  | some _ => dataOf newer = []
  | none => dataOf newer = [] ∧ s.point = .start ∧
    ∃ above decision, newer = above ++ [decision] ∧ decision.decides = true

variable {m : Machine} {r s : Run} {x : Option Status} {a : Account}

lemma Gives.cons {record : Record} {newer : List Record} (hdata : record.data? = none)
    (h : Gives newer s x) : Gives (record :: newer) s x := by
  have hsame : dataOf (record :: newer) = dataOf newer := List.filterMap_cons_none hdata
  cases x with
  | none =>
    obtain ⟨hnone, hpoint, above, decision, rfl, hdecides⟩ := h
    exact ⟨hsame.trans hnone, hpoint, record :: above, decision, rfl, hdecides⟩
  | some status => cases status <;> exact hsame.trans h

/-- What is given back is the data of an action. -/
lemma Record.of_takenBack {record : Record} {data : Bytes}
    (h : record.takenBack = .action data) : record = .action data := by
  cases record with
  | shifted _ _ _ _ more => cases more <;> cases h
  | reduced _ _ _ more => cases more <;> cases h
  | action _ =>
    cases h
    rfl
  | _ => cases h

lemma Record.data?_of_takenBack {record : Record} (h : ∀ data, record.takenBack ≠ .action data) :
    record.data? = none := by
  cases record with
  | action data => exact absurd rfl (h data)
  | _ => rfl

theorem gives_unwind {goal : Goal} {records : List Record} (hlog : r.log.records = records)
    (h : unwind m goal records r = .ok x s) :
    ∃ newer, r.log.records = newer ++ s.log.records ∧ Gives newer s x := by
  have hsettle {q : Run} (h : (do return some (← settle m) : Op (Option Status)) q = .ok x s) :
      ∃ newer, q.log.records = newer ++ s.log.records ∧ Gives newer s x := by
    obtain ⟨status, t, hrun, h1⟩ := bind_eq_ok.1 h
    rw [settle, get_bind] at hrun
    obtain ⟨reached, u, hlook, hrest⟩ := bind_eq_ok.1 hrun
    obtain ⟨-, rfl⟩ := lookup_eq_ok.1 hlook
    cases hrest
    cases h1
    exact ⟨[], rfl, rfl⟩
  induction records generalizing r with
  | nil =>
    rw [unwind, get_bind] at h
    split at h
    · exact hsettle h
    · cases h
  | cons record older ih =>
    rw [unwind, get_bind] at h
    split at h
    · exact hsettle h
    · simp only [modify_bind, tell_bind] at h
      obtain ⟨b, t, hundo, h1⟩ := bind_eq_ok.1 h
      have hback := (restores_undo record).ok hundo
      have ht : t.log.records = older := by rw [hback.log]
      -- Where it goes on, the record was no action.
      have hgoes (hdata : ∀ data, b ≠ .action data) (hrest : unwind m goal older t = .ok x s) :
          ∃ newer, r.log.records = newer ++ s.log.records ∧ Gives newer s x := by
        obtain ⟨newer, hnewer, hgives⟩ := ih ht hrest
        refine ⟨record :: newer, ?_, hgives.cons (Record.data?_of_takenBack fun data htaken =>
          hdata data (hback.reported.trans htaken))⟩
        rw [hlog, List.cons_append, ← hnewer, ht]
      cases b with
      | plain => exact hgoes (by rintro _ ⟨⟩) h1
      | decision alternative =>
        cases goal with
        | step target => exact hgoes (by rintro _ ⟨⟩) h1
        | backtrack =>
          cases h1
          have hdecides := Record.decides_iff.2 ⟨alternative, hback.reported.symm⟩
          refine ⟨[record], by rw [hlog, ← ht]; rfl, ?_, rfl, [], record, rfl, hdecides⟩
          refine dataOf_eq_nil fun x hx => ?_
          rw [List.mem_singleton.1 hx]
          refine Record.data?_of_takenBack fun data htaken => ?_
          cases hback.reported.trans htaken
      | action data =>
        cases h1
        obtain rfl := Record.of_takenBack hback.reported.symm
        exact ⟨[.action data], by rw [hlog, ← ht]; rfl, rfl⟩

/-! ## Going forward -/

/-- The answer gives nothing back. -/
def Forthright (x : Option Status) : Prop :=
  ∀ data, x ≠ some (.reverse data)

lemma Asks.forthright (h : Asks x) : Forthright x := by
  rintro data rfl
  cases h _ rfl

lemma forthright_completeStep {commits : Bool} (h : completeStep m commits r = .ok x s) :
    Forthright x := by
  rintro data rfl
  obtain ⟨reached, -, ⟨-, hx, -⟩ | ⟨-, -, hx, -⟩ | ⟨-, -, hx, -⟩⟩ := completeStep_ok h
  · cases hx
  · cases hx
  · split at hx <;> cases hx

lemma forthright_goForward (h : goForward m r = .ok x s) : Forthright x := by
  rw [goForward, get_bind] at h
  cases hqueue : r.queue with
  | cons id rest =>
    simp only [hqueue] at h
    cases step_ok h with
    | refused _ _ _ => rintro _ ⟨⟩
    | suspended _ _ _ _ hact => exact (asks_act m _ _ _ _ hact).forthright
    | completed _ _ _ _ _ hcomplete => exact forthright_completeStep hcomplete
  | nil =>
    simp only [hqueue] at h
    obtain ⟨found, t, hacquire, h1⟩ := bind_eq_ok.1 h
    cases found with
    | suspended status =>
      cases h1
      exact (asks_acquire m hacquire status rfl).forthright
    | noToken region =>
      simp only [get_bind] at h1
      obtain ⟨u, t', -, h2⟩ := bind_eq_ok.1 h1
      cases h2
      rintro _ ⟨⟩
    | _ =>
      cases h1
      rintro _ ⟨⟩

lemma forthright_enter {entry : Entry} (h : enter m entry r = .ok x s) : Forthright x := by
  cases enter_ok h with
  | reduction _ _ hresume =>
    rcases resumeReduction_ok hresume with ⟨-, rfl, -, -⟩ | ⟨-, hcomplete⟩
    · rintro _ ⟨⟩
    · exact forthright_completeStep hcomplete
  | _ => rintro _ ⟨⟩

lemma Account.settle_of_forthright (hx : Forthright x) : a.settle x = a := by
  unfold Account.settle
  split
  · exact absurd rfl (hx _)
  · rfl

/-! ## Moves -/

/-- What an answer makes of an account, which is `b` with all moves noted: what is given back was
left last. -/
structure Settles (a b : Account) (x : Option Status) (s : Run) : Prop where
  given : ∀ data, x = some (.reverse data) → ∃ rest, a.owed = data :: rest
  square : Square (b.settle x) s

lemma Settles.of_forthright {b : Account} (hx : Forthright x) (h : Square b s) : Settles a b x s :=
  ⟨fun data hdata => absurd hdata (hx data), (Account.settle_of_forthright hx).symm ▸ h⟩

/-- A move back gives back what was left last, or leaves what is owed. -/
lemma Square.unwind {goal : Goal} (h : Square a r) (hr : Tallied r) (hs : Tallied s)
    (hrun : unwind m goal r.log.records r = .ok x s) :
    Settles a a x s ∧ a.note r s = a := by
  obtain ⟨newer, hlog, hgives⟩ := gives_unwind rfl hrun
  have hlength : s.log.length ≤ r.log.length := by
    rw [Journal.length, Journal.length, hlog, List.length_append]
    exact Nat.le_add_left ..
  have hsteps : s.steps ≤ r.steps := by
    rw [hr, hs, hlog, List.count_append]
    exact Nat.le_add_left ..
  have howed : a.owed = dataOf newer ++ dataOf s.log.records := by
    rw [← h.owed, hlog, dataOf_append]
  have htells : a.Tells s.log.records := (hlog ▸ h.tells).of_append
  refine ⟨?_, a.note_of_shorter hlength hsteps⟩
  have hleaves (hnone : dataOf newer = []) (hx : Forthright x) : Settles a a x s := by
    rw [hnone] at howed
    exact .of_forthright hx ⟨howed.symm, htells⟩
  cases x with
  | none => exact hleaves hgives.1 (by rintro _ ⟨⟩)
  | some status =>
    cases status with
    | reverse data =>
      rw [show dataOf newer = [data] from hgives] at howed
      refine ⟨fun data' hdata => ⟨dataOf s.log.records, ?_⟩, ?_, htells.congr rfl rfl⟩
      · cases hdata
        exact howed
      · exact (congrArg List.tail howed).symm
    | _ => exact hleaves hgives (by rintro _ ⟨⟩)

lemma Square.turn (h : Square a r) (hbooks : BooksRight True r) (hturn : turn m r = .ok x s) :
    Settles a (a.note r s) x s := by
  have hs : Tallied s := (hbooks.turn (lasts_ok hturn)).tallied
  have hrun := hturn
  rw [Run.turn, get_bind] at hrun
  cases hpoint : r.point with
  | start =>
    simp only [hpoint] at hrun
    exact .of_forthright (forthright_goForward hrun)
      (h.lengthens hbooks.tallied (lengthens_goForward hrun))
  | reverse goal =>
    simp only [hpoint] at hrun
    obtain ⟨hsettles, hsame⟩ := h.unwind hbooks.tallied hs hrun
    exact hsame.symm ▸ hsettles
  | done =>
    simp only [hpoint] at hrun
    cases hrun
    exact .of_forthright (by rintro _ ⟨⟩) (h.lengthens hbooks.tallied (.of_same rfl rfl))
  | _ =>
    simp only [hpoint] at hrun
    cases hrun

lemma Square.enter {entry : Entry} (h : Square a r) (hbooks : BooksRight True r)
    (henter : enter m entry r = .ok x s) : Settles a (a.note r s) x s :=
  .of_forthright (forthright_enter henter) (h.lengthens hbooks.tallied (lengthens_enter henter))

/-- An error in a turn that lies in the input. -/
lemma turn_idles {e : Error} (he : e.isFatal = false) (h : turn m r = .error (.error e) s) :
    Idles r s := by
  rw [turn, get_bind] at h
  cases hpoint : r.point with
  | start =>
    simp only [hpoint] at h
    exact idles_goForward_error he h
  | reverse goal =>
    simp only [hpoint] at h
    rw [grave_unwind m goal r.log.records h] at he
    cases he
  | done =>
    simp only [hpoint] at h
    cases h
  | _ =>
    simp only [hpoint] at h
    cases h
    cases he

/-! ## Parses -/

lemma Account.owed_notes (a : Account) (r : Run) (later : List Run) :
    (a.notes r later).owed = a.owed := by
  induction later generalizing a r with
  | nil => rfl
  | cons s later ih => exact ih _ s

/-- What an operation makes of an account, which is `b` with all moves noted. -/
structure Pays (a b : Account) (op : Op Status) (r : Run) : Prop where
  answered : ∀ status s, op r = .ok status s → Settles a b (some status) s
  failed : ∀ e s, e.isFatal = false → op r = .error (.error e) s → Square b s

theorem Square.takeTurns {turns : Nat} (h : Square a r) (hbooks : BooksRight True r) :
    Pays a (a.notes r (turnsTaken m turns r)) (takeTurns m turns) r := by
  induction turns generalizing a r with
  | zero => refine ⟨fun status s hrun => ?_, fun e s _ hrun => ?_⟩ <;> cases hrun
  | succ turns ih =>
    rw [turnsTaken]
    cases hturn : Run.turn m r with
    | error x t =>
      refine ⟨fun status s hrun => ?_, fun e s he hrun => ?_⟩ <;>
        rw [Run.takeTurns, bind_error hturn] at hrun <;> cases hrun
      exact h.written (turn_idles he hturn).written
    | ok x t =>
      have hsettles := h.turn hbooks hturn
      cases x with
      | some status =>
        refine ⟨fun status' s hrun => ?_, fun e s _ hrun => ?_⟩ <;>
          rw [Run.takeTurns, bind_ok hturn] at hrun <;> cases hrun
        exact hsettles
      | none =>
        obtain ⟨hanswered, hfailed⟩ := ih hsettles.square (hbooks.turn (lasts_ok hturn))
        refine ⟨fun status s hrun => ?_, fun e s he hrun => ?_⟩ <;>
          rw [Run.takeTurns, bind_ok hturn] at hrun
        · exact ⟨(hanswered status s hrun).given, (hanswered status s hrun).square⟩
        · exact hfailed e s he hrun

theorem Square.resume {turns : Nat} {entry : Entry} (h : Square a r) (hbooks : BooksRight True r) :
    Pays a (a.notes r (passed m turns entry r)) (resume m turns entry) r := by
  rw [passed]
  cases henter : Run.enter m entry r with
  | error x t =>
    refine ⟨fun status s hrun => ?_, fun e s he hrun => ?_⟩ <;>
      rw [Run.resume, bind_error henter] at hrun <;> cases hrun
    exact h.written (idles_enter_error he henter).written
  | ok x t =>
    have hsettles := h.enter hbooks henter
    cases x with
    | some status =>
      refine ⟨fun status' s hrun => ?_, fun e s _ hrun => ?_⟩ <;>
        rw [Run.resume, bind_ok henter] at hrun <;> cases hrun
      exact hsettles
    | none =>
      obtain ⟨hanswered, hfailed⟩ := hsettles.square.takeTurns (hbooks.enter (lasts_ok henter))
      refine ⟨fun status s hrun => ?_, fun e s he hrun => ?_⟩ <;>
        rw [Run.resume, bind_ok henter] at hrun
      · exact ⟨(hanswered status s hrun).given, (hanswered status s hrun).square⟩
      · exact hfailed e s he hrun

theorem Square.goBack {target : Nat} (h : Square a r) (hbooks : BooksRight True r) :
    Pays a a (goBack m target) r := by
  -- Going back is a single turn, which takes back and is not noted.
  have hturn {q : Run} (hpoint : q.point = .reverse (.step target)) :
      Run.turn m q = Run.unwind m (.step target) q.log.records q := by
    rw [Run.turn, get_bind, hpoint]
  constructor
  · intro status s hrun
    obtain ⟨hle, hwaits, hlasts⟩ := lasts_goBack (lasts_ok hrun)
    have hs : Tallied s :=
      ((steady_booksRight m).takeTurns (hbooks.aimed fun _ => hle) hlasts).tallied
    rw [goBack_apply hle hwaits] at hrun
    obtain ⟨x, t, hback, h1⟩ := bind_eq_ok.1 hrun
    cases x with
    | none => cases h1
    | some status' =>
      cases h1
      rw [hturn rfl] at hback
      have haimed : Square a { r with point := .reverse (.step target) } := ⟨h.owed, h.tells⟩
      exact (haimed.unwind hbooks.tallied hs hback).1
  · intro e s he hrun
    obtain ⟨hle, hwaits, -⟩ := lasts_goBack (.inr ⟨e, he, hrun⟩)
    rw [goBack_apply hle hwaits] at hrun
    rcases bind_eq_error.1 hrun with hback | ⟨x, t, -, h1⟩
    · rw [hturn rfl] at hback
      rw [grave_unwind m _ _ hback] at he
      cases he
    · cases x <;> cases h1

/-! ## Requests -/

/-- A run after all that its caller asked for and set since the start, until a parse or taking
something back fails for good, and the account of a caller who looked on.  A run that a parse passes
through, with turns behind it that are yet to come, is such a run too. -/
inductive Owing (m : Machine) (start : Run) : Account → Run → Prop
  | start : Owing m start {} start
  | asked {a : Account} {r s : Run} {turns : Nat} {request : Request}
      {answer : Except Error Reply} :
    Owing m start a r → request ≠ .giveUpLog → Replied (perform m turns request r) answer s →
    s.aborted = false → Owing m start (a.after m turns r request answer) s
  | set {a : Account} {r s : Run} : Owing m start a r → Sets r s → Owing m start a s
  | passing {a : Account} {r s next : Run} {turns : Nat} {entry : Entry}
      {earlier later : List Run} :
    Owing m start a r → r.aborted = false →
    passed m turns entry r = earlier ++ s :: next :: later →
    Owing m start (a.notes r (earlier ++ [s])) s

/-- What joins the log between two moves and is no decision. -/
lemma Square.added {b : Account} (newer : List Record) (h : Square a r)
    (hlog : s.log.records = newer ++ r.log.records)
    (hnewer : ∀ record ∈ newer, record.isOwn = false) (howed : b.owed = dataOf newer ++ a.owed)
    (hstep : b.atStep = a.atStep) (hdecision : b.atDecision = a.atDecision) : Square b s where
  owed := by rw [hlog, dataOf_append, h.owed, howed]
  tells := by
    rw [hlog]
    refine (h.tells.congr hstep hdecision).append fun record hrecord => ?_
    have hother := hnewer record hrecord
    constructor
    · rintro rfl
      cases hother
    · cases record <;> first | rfl | cases hother

variable {request : Request} {answer : Except Error Reply} {turns : Nat}

/-- What a caller contributes joins the account only where it is data. -/
lemma Contributes.square (h : Contributes r request answer s) (hguarded : request.isGuarded = false)
    (hsquare : Square a r) (turns : Nat) : Square (a.after m turns r request answer) s := by
  cases h with
  | refused _ _ _ => cases request <;> first | exact hsquare | cases hguarded
  | text _ _ => exact hsquare.added [_] rfl (by simp [Record.isOwn]) rfl rfl rfl
  | tree _ _ => exact hsquare.added [_] rfl (by simp [Record.isOwn]) rfl rfl rfl
  | token _ => exact hsquare.added [_] rfl (by simp [Record.isOwn]) rfl rfl rfl
  | named _ => exact hsquare.added [_, _] rfl (by simp [Record.isOwn]) rfl rfl rfl
  | bound => exact hsquare.added [_] rfl (by simp [Record.isOwn]) rfl rfl rfl
  | data => exact hsquare.added [_] rfl (by simp [Record.isOwn]) rfl rfl rfl
  | dropped => exact hsquare.added [_] rfl (by simp [Record.isOwn]) rfl rfl rfl
  | _ => exact ⟨hsquare.owed, hsquare.tells⟩

/-- What a guarded operation makes of an account. -/
lemma Pays.replied {op : Op Status} {b : Account} (h : Pays a b op r)
    (hreplied : Guarded op r answer s) (hlive : r.aborted = false) (hs : s.aborted = false) :
    (∀ status, answer = .ok (.status status) → Settles a b (some status) s) ∧
      ((∀ status, answer ≠ .ok (.status status)) → Square b s) := by
  cases hreplied with
  | refused haborted => cases haborted.symm.trans hlive
  | answered _ hop =>
    have hsettles := h.answered _ _ hop
    refine ⟨fun status hstatus => ?_, fun hnone => absurd rfl (hnone _)⟩
    cases hstatus
    exact ⟨hsettles.given, hsettles.square.owed, hsettles.square.tells⟩
  | halted _ hop he => exact ⟨nofun, fun _ => h.failed _ _ he hop⟩
  | ended _ _ _ => cases hs

/-- A reply settles an account: what is given back was left last. -/
theorem Square.replied (h : Square a r) (hbooks : BooksRight True r) (hgive : request ≠ .giveUpLog)
    (hreplied : Replied (perform m turns request r) answer s) (hlive : r.aborted = false)
    (hs : s.aborted = false) :
    Square (a.after m turns r request answer) s ∧
      ∀ data, answer = .ok (.status (.reverse data)) → ∃ rest, a.owed = data :: rest := by
  cases hguarded : request.isGuarded with
  | false =>
    have hcontributes := contributes_of_replied hguarded hgive hreplied
    refine ⟨hcontributes.square hguarded h turns, fun data hdata => ?_⟩
    subst hdata
    cases hcontributes
  | true =>
    rcases request.guarded_of_replied hguarded hreplied with ⟨entry, rfl, hg⟩ | ⟨target, rfl, hg⟩
    · obtain ⟨hstatus, hother⟩ := (h.resume hbooks).replied hg hlive hs
      refine ⟨?_, fun data hdata => (hstatus _ hdata).given data rfl⟩
      cases hg with
      | answered _ _ => exact (hstatus _ rfl).square
      | _ => exact hother nofun
    · obtain ⟨hstatus, hother⟩ := (h.goBack hbooks).replied hg hlive hs
      refine ⟨?_, fun data hdata => (hstatus _ hdata).given data rfl⟩
      cases hg with
      | answered _ _ => exact (hstatus _ rfl).square
      | _ => exact hother nofun

/-- An account is right wherever turns pass through, while there are turns yet to come. -/
lemma Square.turnsTaken {next : Run} {earlier later : List Run} (h : Square a r)
    (hbooks : BooksRight True r) (hsplit : turnsTaken m turns r = earlier ++ s :: next :: later) :
    Square (a.notes r (earlier ++ [s])) s := by
  induction turns generalizing a r earlier with
  | zero => simp [Run.turnsTaken] at hsplit
  | succ turns ih =>
    rw [Run.turnsTaken] at hsplit
    cases hturn : Run.turn m r with
    | error x t => simp [hturn] at hsplit
    | ok x t =>
      have hsettles := h.turn hbooks hturn
      cases x with
      | some status => cases earlier <;> simp [hturn] at hsplit
      | none =>
        rw [hturn] at hsplit
        cases earlier with
        | nil =>
          obtain ⟨rfl, -⟩ := List.cons.inj hsplit
          exact hsettles.square
        | cons first earlier =>
          obtain ⟨rfl, hrest⟩ := List.cons.inj hsplit
          have hlater := ih hsettles.square (hbooks.turn (lasts_ok hturn)) hrest
          exact hlater

lemma Square.passed {entry : Entry} {next : Run} {earlier later : List Run} (h : Square a r)
    (hbooks : BooksRight True r) (hsplit : passed m turns entry r = earlier ++ s :: next :: later) :
    Square (a.notes r (earlier ++ [s])) s := by
  rw [Run.passed] at hsplit
  cases henter : Run.enter m entry r with
  | error x t => simp [henter] at hsplit
  | ok x t =>
    have hsettles := h.enter hbooks henter
    cases x with
    | some status => cases earlier <;> simp [henter] at hsplit
    | none =>
      rw [henter] at hsplit
      cases earlier with
      | nil =>
        obtain ⟨rfl, -⟩ := List.cons.inj hsplit
        exact hsettles.square
      | cons first earlier =>
        obtain ⟨rfl, hrest⟩ := List.cons.inj hsplit
        exact hsettles.square.turnsTaken (hbooks.enter (lasts_ok henter)) hrest

lemma Owing.answered {start : Run} {reply : Reply} (h : Owing m start a r)
    (hperform : perform m turns request r = .ok reply s) (hs : s.aborted = false)
    (hgive : request ≠ .giveUpLog) : Owing m start (a.after m turns r request (.ok reply)) s :=
  .asked h hgive (hperform ▸ .ok reply s) hs

/-- The books and the account of a run that is not over. -/
structure Settled (a : Account) (r : Run) : Prop where
  booksRight : BooksRight True r
  square : Square a r
  live : r.aborted = false

lemma Owing.settled {forest : Forest} {target : Option Nat}
    (h : Owing m (initial m forest target) a r) : Settled a r := by
  induction h with
  | start => exact ⟨⟨⟨.empty, fun _ => rfl, rfl⟩, ⟨.empty, nofun⟩, nofun⟩, ⟨rfl, trivial⟩, rfl⟩
  | asked _ hgive hreplied hs ih =>
    exact ⟨ih.booksRight.replied hgive hreplied hs,
      (ih.square.replied ih.booksRight hgive hreplied ih.live hs).1, hs⟩
  | set _ hsets ih =>
    refine hsets.keeps (I := Settled _) (fun target stopping events hr => ?_) ih
    exact ⟨⟨⟨hr.booksRight.filed.lined, hr.booksRight.filed.tallied, hr.booksRight.filed.point⟩,
      ⟨hr.booksRight.retriesCounted.counted, hr.booksRight.retriesCounted.hopeful⟩,
        hr.booksRight.bound⟩,
      ⟨hr.square.owed, hr.square.tells⟩, hr.live⟩
  | passing _ _ hsplit ih =>
    have hmem : _ ∈ passed _ _ _ _ := hsplit ▸ List.mem_append_right _ List.mem_cons_self
    exact ⟨(steady_booksRight m).passed ih.booksRight hmem, ih.square.passed ih.booksRight hsplit,
      detached_alive.steady.passed ih.live hmem⟩

/-- A reply that tells of a step is at its end. -/
lemma boundary_of_replied {steps : Nat} (hgive : request ≠ .giveUpLog)
    (h : Replied (perform m turns request r) (.ok (.status (.reverted steps))) s) :
    AtBoundary m steps s := by
  cases request with
  | parse entry =>
    rcases h.cases_of with ⟨status, hparse, hanswer⟩ | ⟨e, -, hanswer⟩
    · cases hanswer
      exact parse_reverted hparse
    · cases hanswer
  | undoTo target =>
    rcases h.cases_of with ⟨status, hundo, hanswer⟩ | ⟨e, -, hanswer⟩
    · cases hanswer
      exact undoTo_reverted hundo
    · cases hanswer
  | _ => cases contributes_of_replied rfl hgive h

/-- At the end of a step, what was owed then is owed. -/
lemma Square.at_boundary {steps : Nat} (h : Square a r) (htallied : Tallied r)
    (hboundary : AtBoundary m steps r) :
    (steps = 0 → a.owed = []) ∧ (steps ≠ 0 → a.owed = a.atStep steps) := by
  have hsteps : steps = r.log.records.count .stepEnded := hboundary.steps.symm.trans htallied
  have howed := h.owed
  have htells := h.tells
  rcases hboundary.last with hlog | ⟨older, hlog⟩ <;> rw [hlog] at hsteps howed htells
  · exact ⟨fun _ => howed.symm, fun hne => absurd hsteps hne⟩
  · rw [List.count_cons_self] at hsteps
    refine ⟨fun hzero => by omega, fun _ => ?_⟩
    rw [hsteps, htells.2.1 rfl]
    exact howed.symm

/-- Where a run goes forward again, what was owed when it decided is owed. -/
lemma Square.at_decision (h : Square a r) (hpoint : r.point = .reverse .backtrack)
    (hturn : Run.turn m r = .ok none s) :
    s.point = .start ∧ ∃ newer decision, r.log.records = newer ++ decision :: s.log.records ∧
      decision.decides = true ∧ a.owed = a.atDecision s.log.length := by
  have hrun : Run.unwind m .backtrack r.log.records r = .ok none s := by
    rw [Run.turn, get_bind] at hturn
    simpa only [hpoint] using hturn
  obtain ⟨_, hlog, hnone, hstart, above, decision, rfl, hdecides⟩ := gives_unwind rfl hrun
  rw [List.append_assoc, List.singleton_append] at hlog
  have htells : a.Tells (decision :: s.log.records) := (hlog ▸ h.tells).of_append
  refine ⟨hstart, above, decision, hlog, hdecides, ?_⟩
  have howed := h.owed
  have hsplit : r.log.records = (above ++ [decision]) ++ s.log.records := by rw [hlog]; simp
  rw [hsplit, dataOf_append, hnone] at howed
  exact howed.symm.trans (htells.2.2 hdecides).symm

/-- A run owes the data that its log holds, and no other, whatever its caller has asked for and set.
What it gives back was left last, and is owed no more.  Where it is back at the end of a step, it
owes what it owed when the step was completed, and nothing where it is back at the start; and where
it turns back and goes forward again, it owes what it owed when it took the decision that it
retries. -/
theorem actions_reversed {forest : Forest} {target : Option Nat}
    (h : Owing m (initial m forest target) a r) :
    dataOf r.log.records = a.owed ∧
    (∀ turns request answer s, request ≠ .giveUpLog →
      Replied (perform m turns request r) answer s → s.aborted = false →
      (∀ data, answer = .ok (.status (.reverse data)) →
        a.owed = data :: (a.after m turns r request answer).owed) ∧
      ∀ steps, answer = .ok (.status (.reverted steps)) →
        (steps = 0 → (a.after m turns r request answer).owed = []) ∧
        (steps ≠ 0 → (a.after m turns r request answer).owed =
          (a.after m turns r request answer).atStep steps)) ∧
    ∀ s, r.point = .reverse .backtrack → turn m r = .ok none s →
      s.point = .start ∧ ∃ newer decision, r.log.records = newer ++ decision :: s.log.records ∧
        decision.decides = true ∧ a.owed = a.atDecision s.log.length := by
  obtain ⟨hbooks, hsquare, hlive⟩ := h.settled
  refine ⟨hsquare.owed, fun turns request answer s hgive hreplied hs => ?_,
    fun s hpoint hturn => hsquare.at_decision hpoint hturn⟩
  obtain ⟨hafter, hgiven⟩ := hsquare.replied hbooks hgive hreplied hlive hs
  refine ⟨fun data hdata => ?_, fun steps hsteps => ?_⟩
  · obtain ⟨rest, howed⟩ := hgiven data hdata
    subst hdata
    cases request with
    | parse entry =>
      refine howed.trans (congrArg (data :: ·) ?_)
      exact ((congrArg List.tail (a.owed_notes r _)).trans (congrArg List.tail howed)).symm
    | undoTo target => exact howed.trans (congrArg (data :: ·) (congrArg List.tail howed).symm)
    | _ => cases contributes_of_replied rfl hgive hreplied
  · have htallied := (hbooks.replied hgive hreplied hs).tallied
    subst hsteps
    exact hafter.at_boundary htallied (boundary_of_replied hgive hreplied)

/-- The letter is shifted, and more is left.  That leads nowhere; what was left last is given back,
and where the letter is made a word of, only what was left in front of it is owed. -/
theorem actions_reversed_letter : ∃ b q a r s,
    Owing letterMachine (initial letterMachine (Pool.empty 8 8) (some 1)) b q ∧
    perform letterMachine 20 (.parse .start) q = .ok (.status (.reverse [7])) r ∧
    b.owed = [[7], [1]] ∧
    Owing letterMachine (initial letterMachine (Pool.empty 8 8) (some 1)) a r ∧
    turn letterMachine r = .ok none s ∧ a.owed = [[1]] ∧ a.atDecision s.log.length = [[1]] := by
  let start := initial letterMachine (Pool.empty 8 8) (some 1)
  have hattach : perform letterMachine 0 (.attach (Stream.ofBytes [97])) start =
      .ok .accepted { start with
        scanner := { start.scanner with stream := some (Stream.ofBytes [97]) } } := rfl
  generalize ho : ({ start with
    scanner := { start.scanner with stream := some (Stream.ofBytes [97]) } } : Run) = o at hattach
  have hleave : perform letterMachine 0 (.leaveData [1]) o =
    .ok .accepted { o with log := o.log.append (.action [1]) } := rfl
  generalize hp : { o with log := o.log.append (.action [1]) } = p at hleave
  have hparse := Result.eq_ok_left (show Result.answer? (parse letterMachine 20 .start p) =
    some .paused by
      subst hp ho
      decide +kernel)
  generalize hu : Result.left (parse letterMachine 20 .start p) = u at hparse
  have hmore : perform letterMachine 0 (.leaveData [7]) u =
    .ok .accepted { u with log := u.log.append (.action [7]) } := rfl
  generalize hq : { u with log := u.log.append (.action [7]) } = q at hmore
  have hback := Result.eq_ok_left (show Result.answer? (parse letterMachine 20 .start q) =
    some (.reverse [7]) by
      subst hq hu hp ho
      decide +kernel)
  generalize hr : Result.left (parse letterMachine 20 .start q) = r at hback
  have hagain := Result.eq_ok_left (show Result.answer? (turn letterMachine r) = some none by
      subst hr hq hu hp ho
      decide +kernel)
  generalize Result.left (turn letterMachine r) = s at hagain
  have hpoint : r.point = .reverse .backtrack := by
    subst hr hq hu hp ho
    decide +kernel
  have hlive : o.aborted = false ∧ p.aborted = false ∧ u.aborted = false ∧ q.aborted = false ∧
      r.aborted = false := by
    subst hr hq hu hp ho
    decide +kernel
  obtain ⟨hlo, hlp, hlu, hlq, hlr⟩ := hlive
  have hreversed : perform letterMachine 20 (.parse .start) q = .ok (.status (.reverse [7])) r :=
    bind_ok hback _
  have hpaused : perform letterMachine 20 (.parse .start) p = .ok (.status .paused) u :=
    bind_ok hparse _
  obtain ⟨b, hbefore, howed⟩ : ∃ b, Owing letterMachine start b q ∧ b.owed = [[7], [1]] :=
    ⟨_, (((Owing.start.answered hattach hlo nofun).answered hleave hlp nofun).answered
      hpaused hlu nofun).answered hmore hlq nofun,
      congrArg ([7] :: ·) (Account.owed_notes _ _ _)⟩
  have hafter := hbefore.answered hreversed hlr nofun
  have hreplied : Replied (perform letterMachine 20 (.parse .start) q)
      (.ok (.status (.reverse [7]))) r := hreversed ▸ .ok _ r
  obtain ⟨hgiven, -⟩ := (actions_reversed hbefore).2.1 20 (.parse .start) _ r nofun hreplied hlr
  obtain ⟨-, _, _, -, -, hdecided⟩ := (actions_reversed hafter).2.2 s hpoint hagain
  have hrest := (List.cons.inj ((hgiven [7] rfl).symm.trans howed)).2
  exact ⟨b, q, _, r, s, hbefore, hreversed, howed, hafter, hagain, hrest, hdecided ▸ hrest⟩

end Rewind.Run
