import Rewind.Proofs.Backtrack
import Rewind.Proofs.Exactness
import Rewind.Proofs.Garbage
import Rewind.Proofs.Invariants

/-!
# Retries and the barrier

However a run is driven, its retries are the decisions since its barrier that could have been
others, and its barrier is not behind the end of its log.  If no node that the run needs goes with a
log that is given up, then the log also leads to the run from somewhere.
-/

namespace Rewind.Run

open Attempt Op

/-! ## Runs that can be reached -/

/-- Callers do not give up the log while they take back.  A sparing caller never does so if a node
goes with the log that the run needs. -/
def Call.IsPermitted (sparing : Bool) (r : Run) : Call → Prop
  | giveUpLog => (∀ goal, r.point ≠ .reverse goal) ∧
    (sparing = true → ∀ id, r.Discarded id → ¬r.Needs id)
  | _ => True

/-- Whether taking back goes on behind what was taken back. -/
def TakenBack.goesOn (goal : Goal) : TakenBack → Bool
  | .plain => true
  | .decision _ => goal ≠ .backtrack
  | .action _ => false

/-- The runs that can be reached, between calls and within them.  A sparing caller begins with a
stream of bytes. -/
inductive Reached (m : Machine) : (sparing : Bool) → Run → Prop
  | initial (blockLength blockLimit : Nat) (target : Option Nat) :
    Reached m false (initial m (Pool.empty blockLength blockLimit) target)
  | fresh {stream : Stream} {r : Run} : Fresh m stream r → Reached m true r
  | call {sparing : Bool} {call : Call} {r s : Run} :
    Reached m sparing r → call.IsPermitted sparing r → call.Leads m r s → s.aborted = false →
    Reached m sparing s
  | passed {sparing : Bool} {call : Call} {r s : Run} :
    Reached m sparing r → s ∈ call.passed m r → Reached m sparing s
  | aimed {sparing : Bool} {target : Nat} {r : Run} :
    Reached m sparing r → target ≤ r.steps → (∀ goal, r.point ≠ .reverse goal) →
    Reached m sparing { r with point := .reverse (.step target) }
  | undone {sparing : Bool} {goal : Goal} {record : Record} {older : List Record} {b : TakenBack}
      {r s : Run} :
    Reached m sparing r → r.point = .reverse goal → atGoal r goal = false →
    r.log.records = record :: older →
    undo record { r with log := ⟨older⟩, events := .undone record :: r.events } = .ok b s →
    b.goesOn goal = true → Reached m sparing s

variable {m : Machine} {sparing : Bool} {r s : Run} {a : Option Status}

/-! ## The counters are right -/

lemma retriesCounted_turn (h : RetriesCounted r) (hlasts : Lasts (turn m) r s) :
    RetriesCounted s := by
  rcases lasts_turn hlasts with ⟨⟨a, hrun⟩ | ⟨e, he, hrun⟩, hpoint⟩ |
    ⟨goal, hpoint, ⟨a, hrun⟩ | ⟨e, he, hrun⟩⟩ | rfl
  · exact retriesCounted_goForward h hpoint hrun
  · exact retriesCounted_goForward_error h he hrun
  · exact retriesCounted_unwind h hpoint hrun
  · rw [grave_unwind m goal r.log.records hrun] at he
    cases he
  · exact h

lemma retriesCounted_enter {entry : Entry} (h : RetriesCounted r)
    (hlasts : Lasts (enter m entry) r s) : RetriesCounted s := by
  rcases hlasts with ⟨a, henter⟩ | ⟨e, he, henter⟩
  · cases enter_ok henter with
    | done _ => exact h
    | back _ => exact h
    | start _ _ => exact h
    | action _ _ => exact ⟨h.counted, nofun⟩
    | reduction _ _ hresume =>
      rcases resumeReduction_ok hresume with ⟨-, -, hpos, span, rfl⟩ | ⟨-, hcomplete⟩
      · exact ⟨h.counted, fun _ => hpos⟩
      · have hcounted : Counted { r with point := .start } := h.counted
        exact ⟨counted_completeStep hcounted hcomplete,
          fun hpoint => nomatch point_completeStep hcomplete hpoint⟩
  · rcases enter_error he henter with ⟨-, -, rfl⟩ | ⟨production, commits, -, -, hresume⟩
    · exact h
    · obtain ⟨-, -, span, -, rfl, -⟩ := resumeReduction_error he hresume
      exact ⟨h.counted, nofun⟩

theorem steady_retriesCounted (m : Machine) : Steady m RetriesCounted where
  enter _ _ _ h hlasts := retriesCounted_enter h hlasts
  turn _ _ h hlasts := retriesCounted_turn h hlasts
  events _ _ h := ⟨h.counted, h.hopeful⟩

lemma Relates.ends {α : Type} {op : Op α} (h : Relates Adds op) (hends : Ends op r s) :
    Adds r s := by
  rcases hends with ⟨a, hrun⟩ | ⟨e, hrun⟩
  · exact (h r).ok hrun
  · exact ((h r).error hrun).1

lemma adds_obliges : (Law.relating Adds).Obliges where
  toHandles := adds_handles
  streams := ⟨fun _ _ => adds_onScanner _⟩
  writes := ⟨fun record hkind => adds_write (by cases record <;> first | rfl | cases hkind)⟩

/-- Calls that neither parse nor take back write plain records only. -/
lemma adds_call {call : Call} (haside : call.IsAside ∨ ∃ stream, call = .attach stream)
    (h : call.Leads m r s) : Adds r s := by
  have ho := adds_obliges
  cases call with
  | attach stream => exact Relates.ends (adds_onScanner _) h
  | parse turns entry => simp [Call.IsAside] at haside
  | undoTo target => simp [Call.IsAside] at haside
  | giveUpLog => simp [Call.IsAside] at haside
  | pushText text => exact Relates.ends (ho.pushText text) h
  | pushTree tree ignore => exact Relates.ends (ho.pushTree tree ignore) h
  | queueToken element text name => exact Relates.ends (ho.queueToken element text name) h
  | bind name id => exact Relates.ends (ho.bind name id) h
  | leaveData data => exact Relates.ends (ho.leaveData data) h
  | dropAside => exact Relates.ends ho.dropAside h
  | reject =>
    rcases h with ⟨u, h⟩ | ⟨e, h⟩
    · unfold reject at h
      split at h <;> cases h
      exact ⟨⟨[], rfl, nofun⟩, rfl, rfl, fun h => h⟩
    · unfold reject at h
      split at h <;> cases h
      exact (SameCount.refl r).adds
  | stop =>
    cases h
    exact ⟨⟨[], rfl, nofun⟩, rfl, rfl, fun h => h⟩
  | pauseAt target =>
    cases h
    exact ⟨⟨[], rfl, nofun⟩, rfl, rfl, fun h => h⟩
  | takeEvents =>
    cases h
    exact ⟨⟨[], rfl, nofun⟩, rfl, rfl, fun h => h⟩

lemma retriesCounted_call {call : Call} (h : RetriesCounted r)
    (hpermitted : call.IsPermitted sparing r)
    (hcall : call.Leads m r s) (halive : s.aborted = false) : RetriesCounted s := by
  cases call with
  | parse turns entry => exact (steady_retriesCounted m).parse h hcall halive
  | undoTo target =>
    have haimed : RetriesCounted { r with point := .reverse (.step target) } := ⟨h.counted, nofun⟩
    exact (steady_retriesCounted m).undoTo haimed hcall halive
  | giveUpLog =>
    rcases hcall with ⟨u, hgive⟩ | ⟨e, hgive⟩
    · rw [(givenUp_of_ok hgive).same]
      exact ⟨.empty, fun hpoint => absurd hpoint (hpermitted.1 .backtrack)⟩
    · exact absurd hgive giveUpLog_ne_error
  | attach stream => exact h.adds (adds_call (.inr ⟨stream, rfl⟩) hcall)
  | _ =>
    refine h.adds (adds_call ?_ hcall)
    exact .inl trivial

/-! ## Sparing callers -/

/-- The log leads to the run from somewhere. -/
def Grounded (m : Machine) (r : Run) : Prop :=
  ∃ base, Orderly base ∧ Sound m False (fun _ _ => True) base r

lemma Grounded.moves (h : Grounded m r) (hmoves : ∀ base, Orderly base →
    Sound m False (fun _ _ => True) base r → Moves m False (fun _ _ => True) r s) :
    Grounded m s := by
  obtain ⟨base, hbase, hr⟩ := h
  exact ⟨base, hbase, hr.moves (hmoves base hbase hr)⟩

theorem steady_grounded (m : Machine) : Steady m (Grounded m) where
  enter r s entry h hlasts := h.moves fun base hbase hr => by
    rcases hlasts with ⟨a, henter⟩ | ⟨e, he, henter⟩
    · exact (moves_enters hr.toTidy (hr.orderly hbase) (enter_ok henter) fun _ _ => trivial).1
    · exact moves_enter_error hr.toTidy he henter
  turn r s h hlasts := by
    obtain ⟨base, hbase, hr⟩ := h
    rcases hlasts with ⟨a, hturn⟩ | ⟨e, he, hturn⟩
    · exact ⟨base, hbase, (turn_sound hr hbase hturn fun _ _ => trivial).1⟩
    · exact ⟨base, hbase, turn_sound_error hr hbase he hturn⟩
  events r events h := by
    obtain ⟨base, hbase, hr⟩ := h
    exact ⟨base, hbase, hr.events events⟩

lemma grounded_aimed (h : Grounded m r) (goal : Goal) :
    Grounded m { r with point := .reverse goal } :=
  h.moves fun _ _ hr => moves_awaited hr.toTidy (.reverse goal) r.rejecting

lemma grounded_call {call : Call} (h : Grounded m r) (hpermitted : call.IsPermitted true r)
    (hcall : call.Leads m r s) (halive : s.aborted = false) : Grounded m s := by
  cases call with
  | parse turns entry => exact (steady_grounded m).parse h hcall halive
  | undoTo target =>
    exact (steady_grounded m).undoTo (grounded_aimed h (.step target)) hcall halive
  | giveUpLog =>
    -- What the run needs stays, so the log is all that matters of what is given up.
    obtain ⟨base, hbase, hr⟩ := h
    rcases hcall with ⟨u, hgive⟩ | ⟨e, hgive⟩
    · have hgiven := givenUp_of_ok hgive
      have horderly := hgiven.orderly (hpermitted.2 rfl) (hr.orderly hbase)
      have hattached : s.scanner.stream.isSome := by
        rw [hgiven.same]
        exact hr.attached
      have hstart : Path m False (fun _ _ => True) [] s.view s.unread s.log.records s.view := by
        rw [show s.log.records = [] by rw [hgiven.same]; rfl]
        exact .start
      exact ⟨s.view, horderly, ⟨hattached, sound_giveUpLog hr.pool hgive, nofun⟩, hstart⟩
    · exact absurd hgive giveUpLog_ne_error
  | attach stream =>
    -- A stream is attached already, and refuses another.
    obtain ⟨base, hbase, hr⟩ := h
    obtain ⟨attached, hattached⟩ := hr.stream
    have hsame : s = r := by
      rcases hcall with ⟨u, hrun⟩ | ⟨e, hrun⟩
      · unfold Run.attach onScanner Scanner.attach at hrun
        rw [hattached] at hrun
        cases hrun
      · unfold Run.attach onScanner Scanner.attach at hrun
        rw [hattached] at hrun
        cases hrun
        rfl
    rw [hsame]
    exact ⟨base, hbase, hr⟩
  | _ =>
    refine h.moves fun base hbase hr => ?_
    refine (moves_call hr.toTidy (hr.orderly hbase) ?_ nofun hcall).1
    exact trivial

/-! ## One record -/

section Undone

variable {goal : Goal} {record : Record} {older : List Record} {b : TakenBack}

lemma retriesCounted_undone (h : RetriesCounted r) (hpoint : r.point = .reverse goal)
    (hlog : r.log.records = record :: older)
    (hundo : undo record { r with log := ⟨older⟩, events := .undone record :: r.events } = .ok b s)
    (hgoes : b.goesOn goal = true) : RetriesCounted s := by
  have hback := (restores_undo record).ok hundo
  have hs : Undone record older r s := hback.undone rfl h.counted hlog
  refine ⟨hs.counted, fun hbacktrack => ?_⟩
  have hr : r.point = .reverse .backtrack := hs.point ▸ hbacktrack
  have hpos := h.hopeful hr
  obtain rfl : goal = .backtrack := Point.reverse.inj (hpoint.symm.trans hr)
  rcases hs.counters with ⟨-, hzero⟩ | ⟨hdecides, -⟩ | ⟨-, -, hsame⟩
  · omega
  · obtain ⟨alternative, htaken⟩ := Record.decides_iff.1 hdecides
    rw [hback.reported, htaken] at hgoes
    cases hgoes
  · omega

lemma grounded_undone (h : Grounded m r) (hlog : r.log.records = record :: older)
    (hundo : undo record { r with log := ⟨older⟩, events := .undone record :: r.events } =
      .ok b s) : Grounded m s := by
  obtain ⟨base, hbase, hr⟩ := h
  refine ⟨base, hbase, ?_⟩
  have hpath := hr.path
  rw [hlog] at hpath
  cases hpath with
  | change hpath hc _ =>
    let t : Run := { r with log := ⟨older⟩, events := .undone record :: r.events }
    have ht : Tidy False t := ⟨hr.attached, hr.pool, hr.loose⟩
    obtain ⟨s', hundo', hview, hs', hreturns, hcourse⟩ :=
      undoes ht (hpath.orderly hbase) (Nat.le_refl _) hc rfl
    rw [hundo] at hundo'
    obtain ⟨-, rfl⟩ := EStateM.Result.ok.inj hundo'
    refine ⟨hs', ?_⟩
    rw [hreturns.unread, hcourse.log, hview]
    exact hpath

end Undone

/-! ## Every run that can be reached -/

lemma fresh_grounded {stream : Stream} (h : Fresh m stream r) : Grounded m r := by
  refine ⟨r.view, h.orderly, h.tidy, ?_⟩
  obtain ⟨blockLength, blockLimit, target, rfl⟩ := h.eq
  exact .start

theorem reached_grounded (h : Reached m true r) : Grounded m r := by
  generalize hsparing : true = sparing at h
  induction h with
  | initial => cases hsparing
  | fresh hfresh => exact fresh_grounded hfresh
  | call _ hpermitted hcall halive ih =>
    subst hsparing
    exact grounded_call (ih rfl) hpermitted hcall halive
  | @passed _ call _ _ _ hs ih =>
    cases call with
    | parse turns entry => exact (steady_grounded m).passed (ih hsparing) hs
    | _ => cases hs
  | aimed _ _ _ ih => exact grounded_aimed (ih hsparing) _
  | undone _ _ _ hlog hundo _ ih => exact grounded_undone (ih hsparing) hlog hundo

theorem reached_retriesCounted (h : Reached m sparing r) : RetriesCounted r := by
  induction h with
  | initial blockLength blockLimit target => exact ⟨.empty, nofun⟩
  | fresh hfresh =>
    obtain ⟨blockLength, blockLimit, target, rfl⟩ := hfresh.eq
    exact ⟨.empty, nofun⟩
  | call _ hpermitted hcall halive ih => exact retriesCounted_call ih hpermitted hcall halive
  | @passed _ call _ _ _ hs ih =>
    cases call with
    | parse turns entry => exact (steady_retriesCounted m).passed ih hs
    | _ => cases hs
  | aimed _ _ _ ih => exact ⟨ih.counted, nofun⟩
  | undone _ hpoint _ hlog hundo hgoes ih => exact retriesCounted_undone ih hpoint hlog hundo hgoes

end Rewind.Run
