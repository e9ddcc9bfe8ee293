import Rewind.Proofs.Course
import Rewind.Run.Parse

/-!
# Taking back a path

A run is `Sound` if its log is a path from the base to its view.  Taking records from the tail of
the log then goes back along that path, view by view, until the goal is reached or an action of the
caller is met.  A step that was completed on the path is always reached, and nothing in between can
fail.
-/

namespace Rewind.Run

open Attempt Op

/-- Whether the parse is at its end, by the view alone. -/
def View.ended (m : Machine) (v : View) : Bool :=
  match v.stack.bind v.nodes with
  | none => false
  | some n => n.element = m.grammar.eof ∨ (m.fragment = some n.element ∧ n.next = none)

/-- Where a run waits between two steps. -/
def settled (m : Machine) (v : View) : Point :=
  if v.ended m then .done else .start

/-- A run whose log is a path from the base. -/
structure Sound (m : Machine) (strict : Prop) (Noted : List Record → View → Prop) (base : View)
    (r : Run) : Prop extends Tidy strict r where
  path : Path m strict Noted [] base r.unread r.log.records r.view

variable {m : Machine} {strict : Prop} {Noted : List Record → View → Prop} {base : View}
  {r s : Run}

lemma Sound.orderly (h : Sound m strict Noted base r) (hbase : Orderly base) :
    Orderly r.view :=
  h.path.orderly hbase

lemma Sound.moves (h : Sound m strict Noted base r) (hmoves : Moves m strict Noted r s) :
    Sound m strict Noted base s :=
  ⟨hmoves.tidy, (h.path.mono hmoves.unread).trans hmoves.path⟩

/-- The end of the parse can always be told: the top of the stack is live, and shown as it is. -/
lemma atEnd_ok (ho : Orderly r.view) : atEnd m r = .ok (r.view.ended m) := by
  obtain ⟨ids, hlinked, -, hout⟩ := stack_shown ho
  cases hstack : r.stack with
  | none => simp only [atEnd, View.ended, view, hstack, Option.bind_none]
  | some top =>
    rw [hstack] at hlinked
    cases hlinked with
    | @cons _ n rest _ hn _ =>
      have hshown : r.shown top = some n := (hout top List.mem_cons_self).2.trans hn
      simp only [atEnd, View.ended, view, hstack, read_eq_ok.2 hn, Option.bind_some, hshown]
      rfl

lemma settle_ok (ho : Orderly r.view) :
    settle m r = .ok (.reverted r.steps) { r with
      halted := false
      retry := 0
      rejecting := false
      point := settled m r.view } := by
  rw [settle, get_bind, atEnd_ok ho]
  rfl

/-- One record is taken back. -/
lemma unwind_back {goal : Goal} {record : Record} {older : List Record} {v : View} {length : Nat}
    (ht : Tidy strict r) (ho : Orderly v) (hc : Change m strict r.unread length record v r.view)
    (hlog : r.log.records = record :: older) (hgoal : atGoal r goal = false) :
    ∃ s, Tidy strict s ∧ s.view = v ∧ Returns record r s ∧
      SameCourse { r with log := ⟨older⟩, events := .undone record :: r.events } s ∧
      unwind m goal r.log.records r = match record.takenBack, goal with
        | .action data, _ => .ok (some (.reverse data)) s
        | .decision alternative, .backtrack =>
          .ok none { s with retry := alternative + 1, point := .start }
        | _, _ => unwind m goal older s := by
  let t : Run := { r with log := ⟨older⟩, events := .undone record :: r.events }
  have htidy : Tidy strict t := ⟨ht.attached, ht.pool, ht.loose⟩
  obtain ⟨s, hundo, hview, hs, hreturns, hcourse⟩ := undoes htidy ho (Nat.le_refl _) hc rfl
  refine ⟨s, hs, hview, ⟨⟨hreturns.unread, hreturns.ended⟩, hreturns.slots, hreturns.node⟩,
    hcourse, ?_⟩
  rw [hlog, unwind, get_bind, hgoal]
  simp only [Bool.false_eq_true, if_false, modify_bind, tell_bind]
  rw [bind_ok hundo]
  cases htaken : record.takenBack with
  | plain => rfl
  | decision alternative => cases goal <;> rfl
  | action data => cases goal <;> rfl

/-- A run whose log is a course from the base. -/
structure Backed (m : Machine) (strict : Prop) (Step : Record → List Record → View → View → Prop)
    (base : View) (r : Run) : Prop extends Tidy strict r where
  course : Course m strict Step base r.unread r.log.records r.view

section Backed

variable {Step : Record → List Record → View → View → Prop}

lemma Backed.orderly (h : Backed m strict Step base r) (hbase : Orderly base) :
    Orderly r.view :=
  h.course.orderly hbase

/-- What no record tells of may change. -/
lemma Backed.quiet (h : Backed m strict Step base r) (ht : Tidy strict s) (hv : s.view = r.view)
    (hlog : s.log = r.log) (hunread : s.unread = r.unread) : Backed m strict Step base s :=
  ⟨ht, by rw [hv, hlog, hunread]; exact h.course⟩

/-- One record of a backed run is taken back, and the run stays backed. -/
lemma unwind_latest {record : Record} {older : List Record} (h : Backed m strict Step base r)
    (hbase : Orderly base) (goal : Goal) (hlog : r.log.records = record :: older)
    (hgoal : atGoal r goal = false) :
    ∃ s, Backed m strict Step base s ∧ Step record older s.view r.view ∧
      (r.steps = if record = .stepEnded then s.steps + 1 else s.steps) ∧
      s.log.records = older ∧ Returns record r s ∧
      SameCourse { r with log := ⟨older⟩, events := .undone record :: r.events } s ∧
      unwind m goal r.log.records r = match record.takenBack, goal with
        | .action data, _ => .ok (some (.reverse data)) s
        | .decision alternative, .backtrack =>
          .ok none { s with retry := alternative + 1, point := .start }
        | _, _ => unwind m goal older s := by
  have hcourse := h.course
  rw [hlog] at hcourse
  generalize hview : r.view = w at hcourse
  cases hcourse with
  | @change _ _ v _ hcourse hc hstep =>
    rw [← hview] at hc
    obtain ⟨s, hs, rfl, hreturns, hsame, hunwind⟩ :=
      unwind_back h.toTidy (hcourse.orderly hbase) hc hlog hgoal
    have holder : s.log.records = older := by rw [hsame.log]
    refine ⟨s, ⟨hs, ?_⟩, hstep, hc.steps, holder, hreturns, hsame, hunwind⟩
    rw [hreturns.unread, holder]
    exact hcourse

end Backed

/-- A sound run is one whose course tells what was noted. -/
lemma Sound.backed (h : Sound m strict Noted base r) : Backed m strict
    (fun record older _ w => record = .stepEnded → Noted (record :: older) w) base r :=
  ⟨h.toTidy, .of_path h.path⟩

lemma Backed.sound (h : Backed m strict
    (fun record older _ w => record = .stepEnded → Noted (record :: older) w) base r) :
    Sound m strict Noted base r :=
  ⟨h.toTidy, h.course.toPath⟩

/-! ## Back to a step -/

lemma atGoal_step_iff {target : Nat} :
    atGoal r (.step target) = true ↔ r.steps = target ∧
      (r.log.records = [] ∨ ∃ older, r.log.records = .stepEnded :: older) := by
  unfold atGoal Journal.last?
  cases r.log.records with
  | nil => simp
  | cons record older => cases record <;> simp

/-- The run is back at a step.  What it shows is the base, or was noted at the end of the step. -/
structure Landed (m : Machine) (Noted : List Record → View → Prop) (base : View) (target : Nat)
    (s : Run) : Prop where
  steps : s.steps = target
  point : s.point = settled m s.view
  noted : s.log.records = [] ∧ s.view = base ∨ Noted s.log.records s.view

/-- What going back to a step comes to: the step is reached, or the caller has to act before going
back further. -/
inductive Retreats (m : Machine) (Noted : List Record → View → Prop) (base : View) (target : Nat)
    (r : Run) : Status → Run → Prop
  | landed {s : Run} : Landed m Noted base target s → s.log.length ≤ r.log.length →
    Retreats m Noted base target r (.reverted target) s
  | waiting {s : Run} {data : Bytes} : target ≤ s.steps → s.point = r.point →
    s.log.length < r.log.length → Retreats m Noted base target r (.reverse data) s

lemma Retreats.trans {target : Nat} {status : Status} {t : Run}
    (h : Retreats m Noted base target s status t) (hlog : s.log.length < r.log.length)
    (hpoint : s.point = r.point) : Retreats m Noted base target r status t := by
  cases h with
  | landed hland hle => exact .landed hland (Nat.le_of_lt (Nat.lt_of_le_of_lt hle hlog))
  | waiting hle hp hlt => exact .waiting hle (hp.trans hpoint) (Nat.lt_trans hlt hlog)

lemma unwind_landed {target : Nat} {records : List Record} (h : Sound m strict Noted base r)
    (hbase : Orderly base) (hgoal : atGoal r (.step target) = true) :
    ∃ s, unwind m (.step target) records r = .ok (some (.reverted target)) s ∧
      Sound m strict Noted base s ∧ s.aborted = r.aborted ∧
      Retreats m Noted base target r (.reverted target) s := by
  obtain ⟨hsteps, hlog⟩ := atGoal_step_iff.1 hgoal
  let s : Run := { r with
    halted := false
    retry := 0
    rejecting := false
    point := settled m r.view }
  have hunwind : unwind m (.step target) records r = .ok (some (.reverted target)) s := by
    rw [unwind.eq_def, get_bind, if_pos hgoal, bind_ok (settle_ok (h.orderly hbase)), ← hsteps]
    rfl
  refine ⟨s, hunwind, ⟨⟨h.attached, h.pool, h.loose⟩, h.path⟩, rfl,
    .landed ⟨hsteps, rfl, ?_⟩ (Nat.le_refl _)⟩
  have hpath := h.path
  rcases hlog with hempty | ⟨older, hended⟩
  · rw [hempty] at hpath
    cases hpath
    exact .inl ⟨hempty, rfl⟩
  · rw [hended] at hpath
    cases hpath with
    | change _ _ hnoted =>
      refine .inr ?_
      rw [show s.log.records = _ from hended]
      exact hnoted rfl

/-- A step that was completed on the way is always reached, but for the actions of the caller. -/
theorem unwind_step {target : Nat} (h : Sound m strict Noted base r) (hbase : Orderly base)
    (hlow : base.steps ≤ target) (hhigh : target ≤ r.steps) :
    ∃ status s, unwind m (.step target) r.log.records r = .ok (some status) s ∧
      Sound m strict Noted base s ∧ s.aborted = r.aborted ∧
      Retreats m Noted base target r status s := by
  generalize hrecords : r.log.records = records
  induction records generalizing r with
  | nil =>
    have hsteps : r.steps = base.steps := by
      have hpath := h.path
      rw [hrecords] at hpath
      generalize hview : r.view = v at hpath
      cases hpath
      exact congrArg View.steps hview
    have hgoal : atGoal r (.step target) = true :=
      atGoal_step_iff.2 ⟨by omega, .inl hrecords⟩
    obtain ⟨s, hunwind, hland⟩ := unwind_landed h hbase hgoal
    exact ⟨_, s, hunwind, hland⟩
  | cons record older ih =>
    cases hgoal : atGoal r (.step target) with
    | true =>
      obtain ⟨s, hunwind, hland⟩ := unwind_landed h hbase hgoal
      exact ⟨_, s, hunwind, hland⟩
    | false =>
      obtain ⟨s, hback, -, hsteps, hlog, -, hcourse, hunwind⟩ :=
        unwind_latest h.backed hbase _ hrecords hgoal
      have hs := hback.sound
      rw [← hrecords, hunwind]
      have hshorter : s.log.length < r.log.length := by
        rw [Journal.length, Journal.length, hlog, hrecords, List.length_cons]
        omega
      -- A step that ends where the goal is not yet reached is one too many.
      have hle : target ≤ s.steps := by
        split at hsteps
        · rename_i hended
          have hne : r.steps ≠ target := fun heq => by
            rw [atGoal_step_iff.2 ⟨heq, .inr ⟨older, hended ▸ hrecords⟩⟩] at hgoal
            cases hgoal
          omega
        · omega
      obtain ⟨status, t, hrest, ht, haborted, hretreats⟩ := ih hs hle hlog
      have hback := hretreats.trans hshorter hcourse.point
      cases htaken : record.takenBack with
      | action data =>
        exact ⟨.reverse data, s, rfl, hs, hcourse.aborted,
          .waiting hle hcourse.point hshorter⟩
      | plain => exact ⟨status, t, hrest, ht, haborted.trans hcourse.aborted, hback⟩
      | decision alternative =>
        exact ⟨status, t, hrest, ht, haborted.trans hcourse.aborted, hback⟩

/-! ## Back to anywhere -/

/-- What going back leaves of a run. -/
structure Recedes (r s : Run) : Prop where
  aborted : s.aborted = r.aborted
  steps : s.steps ≤ r.steps
  unread : s.unread = r.unread
  log : s.log.records <:+ r.log.records

lemma Recedes.trans {t : Run} (h : Recedes r s) (h' : Recedes s t) : Recedes r t :=
  ⟨h'.aborted.trans h.aborted, Nat.le_trans h'.steps h.steps, h'.unread.trans h.unread,
    h'.log.trans h.log⟩

section Backed

variable {Step : Record → List Record → View → View → Prop}

lemma unwind_reached {goal : Goal} (h : Backed m strict Step base r) (hbase : Orderly base)
    (hgoal : atGoal r goal = true) (records : List Record) :
    ∃ a s, unwind m goal records r = .ok a s ∧ Backed m strict Step base s ∧ Recedes r s := by
  refine ⟨some (.reverted r.steps), { r with
    halted := false
    retry := 0
    rejecting := false
    point := settled m r.view }, ?_, h.quiet ⟨h.attached, h.pool, h.loose⟩ rfl rfl rfl,
    rfl, Nat.le_refl _, rfl, List.suffix_rfl⟩
  rw [unwind.eq_def, get_bind, if_pos hgoal, bind_ok (settle_ok (h.orderly hbase))]
  rfl

/-- Whatever the goal, going back either comes to a run that is backed as well, or finds the log
exhausted, with all that it told of taken back. -/
lemma unwind_backed (h : Backed m strict Step base r) (hbase : Orderly base) (goal : Goal) :
    (∃ a s, unwind m goal r.log.records r = .ok a s ∧ Backed m strict Step base s ∧
        Recedes r s) ∨
      ∃ s, unwind m goal r.log.records r =
          .error (.error (.misuse (.undoPastStart (goalSteps s goal) s.steps))) s ∧
        Backed m strict Step base s ∧ Recedes r s ∧ s.log.records = [] := by
  generalize hrecords : r.log.records = records
  induction records generalizing r with
  | nil =>
    cases hgoal : atGoal r goal with
    | true => exact .inl (unwind_reached h hbase hgoal _)
    | false =>
      refine .inr ⟨r, ?_, h, ⟨rfl, Nat.le_refl _, rfl, List.suffix_rfl⟩, hrecords⟩
      rw [unwind, get_bind, hgoal]
      rfl
  | cons record older ih =>
    cases hgoal : atGoal r goal with
    | true => exact .inl (unwind_reached h hbase hgoal _)
    | false =>
      obtain ⟨s, hbacked, -, hsteps, hlog, hreturns, hsame, hunwind⟩ :=
        unwind_latest h hbase _ hrecords hgoal
      rw [← hrecords, hunwind]
      have hback : Recedes r s := by
        refine ⟨hsame.aborted, ?_, hreturns.unread, ?_⟩
        · split at hsteps <;> omega
        · rw [hlog, hrecords]
          exact List.suffix_cons record older
      have hrest := ih hbacked hlog
      have hgoes : (∃ a t, unwind m goal older s = .ok a t ∧ Backed m strict Step base t ∧
          Recedes r t) ∨
            ∃ t, unwind m goal older s =
                .error (.error (.misuse (.undoPastStart (goalSteps t goal) t.steps))) t ∧
              Backed m strict Step base t ∧ Recedes r t ∧ t.log.records = [] := by
        rcases hrest with ⟨a, t, hrun, ht, hback'⟩ | ⟨t, hrun, ht, hback', hnone⟩
        · exact .inl ⟨a, t, hrun, ht, hback.trans hback'⟩
        · exact .inr ⟨t, hrun, ht, hback.trans hback', hnone⟩
      cases htaken : record.takenBack with
      | action data => exact .inl ⟨_, s, rfl, hbacked, hback⟩
      | plain => exact hgoes
      | decision alternative =>
        cases goal with
        | step target => exact hgoes
        | backtrack =>
          exact .inl ⟨_, _, rfl,
            hbacked.quiet ⟨hbacked.attached, hbacked.pool, hbacked.loose⟩ rfl rfl rfl,
            hback.aborted, hback.steps, hback.unread, hback.log⟩

end Backed

/-- Whatever the goal, going back either comes to a sound run or finds the log exhausted. -/
theorem unwind_sound {goal : Goal} (h : Sound m strict Noted base r) (hbase : Orderly base) :
    (∃ a s, unwind m goal r.log.records r = .ok a s ∧ Sound m strict Noted base s ∧
        Recedes r s) ∨
      ∃ misuse s, unwind m goal r.log.records r = .error (.error (.misuse misuse)) s ∧
        ∃ target steps, misuse = .undoPastStart target steps := by
  rcases unwind_backed h.backed hbase goal with ⟨a, s, hrun, hs, hback⟩ | ⟨s, hrun, -⟩
  · exact .inl ⟨a, s, hrun, hs.sound, hback⟩
  · exact .inr ⟨_, s, hrun, _, _, rfl⟩

end Rewind.Run
