import Rewind.Proofs.Composure
import Rewind.Proofs.Dealings

/-!
# What a driver does

A driver asks a run for one thing after the other, and is answered.  While it does, it keeps an
`Episode` for every number of steps: the moment at which the last of them was completed most
recently, and its responses since.  A parse may complete steps on its way and go on.  Then what is
left of it belongs to the episode, as a parse of its own.
-/

namespace Rewind.Run

open Attempt Op

/-! ## Responses -/

/-- What a driver does with a run, and what it is answered. -/
inductive Response where
  | asked (request : Request) (answer : Except Error Reply)
  | stopped
  | pausedAt (target : Option Nat)

namespace Response

/-- What a response makes of a run, if no parse takes more turns than are allowed. -/
inductive Leads (m : Machine) (turns : Nat) (r : Run) : Response → Run → Prop
  | asked {request : Request} {answer : Except Error Reply} {s : Run} :
    Replied (perform m turns request r) answer s → Leads m turns r (.asked request answer) s
  | stopped : Leads m turns r .stopped r.stop
  | pausedAt (target : Option Nat) : Leads m turns r (.pausedAt target) (r.pauseAt target)

/-- The log tells of all that it changes, and nothing ends the run. -/
def IsPlain : Response → Prop
  | asked request answer => request.IsLogged ∧ ∀ e, answer = .error e → e.isFatal = false
  | _ => True

def answer : Response → Except Error Reply
  | asked _ answer => answer
  | _ => .ok .accepted

/-- The runs that a response passes through, if it goes forward. -/
def passed (m : Machine) (turns : Nat) (r : Run) : Response → List Run
  | asked (.parse entry) _ => Run.passed m turns entry r
  | _ => []

end Response

/-- Where so many steps were completed last, of the runs passed through, and those passed through
since. -/
def lastEnd (steps : Nat) : Run → List Run → Option (Run × List Run)
  | _, [] => none
  | before, after :: later =>
    lastEnd steps after later <|>
      if before.steps < after.steps ∧ after.steps = steps then some (after, later) else none

/-- A moment, and the responses of the driver since, the latest first. -/
structure Episode where
  run : Run
  responses : List Response := []

/-- The episode of a number of steps, after a response that led to a run.  It begins anew if the
last step was completed on the way, either where the parse ended or where it went on. -/
def Episode.after (episode : Episode) (response : Response) (s : Run) :
    Option (Run × List Run) → Episode
  | none => { episode with responses := response :: episode.responses }
  | some (moment, later) =>
    if later.isEmpty && response.answer.isOk then { run := s }
    else { run := moment, responses := [.asked (.parse .start) response.answer] }

/-- A run after all that its driver did since the start, with an episode for each number of steps.
Nothing was done that the log does not tell of, and no error was fatal. -/
inductive Driven (m : Machine) (start : Run) : (Nat → Episode) → Run → Prop
  | start : Driven m start (fun _ => { run := start }) start
  | next {episodes : Nat → Episode} {r s : Run} {response : Response} {turns : Nat} :
    Driven m start episodes r → response.IsPlain → response.Leads m turns r s →
    Driven m start (fun steps => (episodes steps).after response s
      (lastEnd steps r (response.passed m turns r))) s

/-- The run after the same responses. -/
inductive Replays (m : Machine) (start : Run) : List Response → Run → Prop
  | start : Replays m start [] start
  | next {responses : List Response} {r s : Run} {response : Response} {turns : Nat} :
    Replays m start responses r → response.Leads m turns r s →
    Replays m start (response :: responses) s

variable {m : Machine} {base : View} {p r s t start moment : Run} {later : List Run}
  {a : Option Status} {e : Error} {k turns : Nat} {entry : Entry}

/-! ## The same steps again -/

lemma lastEnd_cons_none (h : lastEnd k r (t :: later) = none) :
    lastEnd k t later = none ∧ ¬(r.steps < t.steps ∧ t.steps = k) := by
  rw [lastEnd] at h
  cases hlater : lastEnd k t later with
  | some found =>
    rw [hlater] at h
    cases h
  | none =>
    rw [hlater] at h
    refine ⟨rfl, fun hcompleted => ?_⟩
    rw [if_pos hcompleted] at h
    cases h

lemma lastEnd_cons_some (h : lastEnd k r (t :: later) = some (moment, after)) :
    lastEnd k t later = some (moment, after) ∨
      lastEnd k t later = none ∧ r.steps < t.steps ∧ t.steps = k ∧ moment = t ∧ after = later := by
  rw [lastEnd] at h
  cases hlater : lastEnd k t later with
  | some found =>
    rw [hlater] at h
    exact .inl h
  | none =>
    rw [hlater] at h
    split at h
    · rename_i hcompleted
      cases h
      exact .inr ⟨rfl, hcompleted.1, hcompleted.2, rfl, rfl⟩
    · cases h

/-- A run was above a step before it completed the step, and has not fallen below since. -/
lemma above_of_not (hle : t.steps ≤ r.steps + 1) (hnot : ¬(r.steps < t.steps ∧ t.steps = k))
    (hk : k ≤ t.steps) : k ≤ r.steps := by
  omega

theorem above_takeTurns (hbase : Orderly base) (hr : Sound m False (fun _ _ => True) base r)
    (hlasts : Lasts (takeTurns m turns) r s)
    (hnone : lastEnd k r (turnsTaken m turns r) = none) (hk : k ≤ s.steps) : k ≤ r.steps := by
  induction turns generalizing r with
  | zero => rcases hlasts with ⟨status, hrun⟩ | ⟨e, -, hrun⟩ <;> cases hrun
  | succ turns ih =>
    rcases lasts_bind hlasts with ⟨e, he, hturn⟩ | ⟨a, t, hturn, hrest⟩
    · rwa [← steps_turn_error hbase hr he hturn]
    · rw [turnsTaken, hturn] at hnone
      cases a with
      | some status =>
        obtain ⟨-, hnot⟩ := lastEnd_cons_none hnone
        rcases hrest with ⟨status', hrun⟩ | ⟨e, -, hrun⟩ <;> cases hrun
        exact above_of_not (steps_turn hbase hr hturn) hnot hk
      | none =>
        obtain ⟨hlater, hnot⟩ := lastEnd_cons_none hnone
        exact above_of_not (steps_turn hbase hr hturn) hnot
          (ih (sound_turn hbase hr (lasts_ok hturn)) hrest hlater)

namespace Since

/-- Turns that do not complete the step again. -/
lemma takeTurns (hp : Footing m base p) (h : Since m p r)
    (hlasts : Lasts (takeTurns m turns) r s)
    (hnone : lastEnd p.steps r (turnsTaken m turns r) = none) (hsteps : p.steps ≤ s.steps) :
    (∀ t ∈ turnsTaken m turns r, Since m p t) ∧ Since m p s := by
  induction turns generalizing r with
  | zero => rcases hlasts with ⟨status, hrun⟩ | ⟨e, -, hrun⟩ <;> cases hrun
  | succ turns ih =>
    rw [turnsTaken]
    rcases lasts_bind hlasts with ⟨e, he, hturn⟩ | ⟨a, t, hturn, hrest⟩
    · rw [hturn]
      exact ⟨List.forall_mem_nil _, h.turn hp (.inr ⟨e, he, hturn⟩) hsteps⟩
    · rw [turnsTaken, hturn] at hnone
      rw [hturn]
      cases a with
      | some status =>
        rcases hrest with ⟨status', hrun⟩ | ⟨e, -, hrun⟩ <;> cases hrun
        have ht := h.turn hp (lasts_ok hturn) hsteps
        exact ⟨fun u hu => List.mem_singleton.1 hu ▸ ht, ht⟩
      | none =>
        obtain ⟨hlater, -⟩ := lastEnd_cons_none hnone
        have hsound := sound_turn hp.orderly (h.sound hp) (lasts_ok hturn)
        have ht := h.turn hp (lasts_ok hturn)
          (above_takeTurns hp.orderly hsound hrest hlater hsteps)
        obtain ⟨hpassed, hs⟩ := ih ht hrest hlater
        exact ⟨List.forall_mem_cons.2 ⟨ht, hpassed⟩, hs⟩

/-- A parse that does not complete the step again. -/
lemma resume (hp : Footing m base p) (h : Since m p r) (hlasts : Lasts (resume m turns entry) r s)
    (hnone : lastEnd p.steps r (passed m turns entry r) = none) (hsteps : p.steps ≤ s.steps) :
    (∀ t ∈ passed m turns entry r, Since m p t) ∧ Since m p s := by
  rw [passed]
  rcases lasts_bind hlasts with ⟨e, he, henter⟩ | ⟨a, t, henter, hrest⟩
  · rw [henter]
    exact ⟨List.forall_mem_nil _, h.enter hp (.inr ⟨e, he, henter⟩)⟩
  · have ht := h.enter hp (lasts_ok henter)
    rw [passed, henter] at hnone
    rw [henter]
    cases a with
    | some status =>
      rcases hrest with ⟨status', hrun⟩ | ⟨e, -, hrun⟩ <;> cases hrun
      exact ⟨fun u hu => List.mem_singleton.1 hu ▸ ht, ht⟩
    | none =>
      obtain ⟨hlater, -⟩ := lastEnd_cons_none hnone
      obtain ⟨hpassed, hs⟩ := ht.takeTurns hp hrest hlater hsteps
      exact ⟨List.forall_mem_cons.2 ⟨ht, hpassed⟩, hs⟩

end Since

theorem above_resume (hbase : Orderly base) (hr : Sound m False (fun _ _ => True) base r)
    (hlasts : Lasts (resume m turns entry) r s)
    (hnone : lastEnd k r (passed m turns entry r) = none) (hk : k ≤ s.steps) : k ≤ r.steps := by
  have ho := hr.orderly hbase
  rcases lasts_bind hlasts with ⟨e, he, henter⟩ | ⟨a, t, henter, hrest⟩
  · rwa [← steps_enter_error hr.toTidy he henter]
  · have hle := steps_enter hr.toTidy ho henter
    rw [passed, henter] at hnone
    cases a with
    | some status =>
      obtain ⟨-, hnot⟩ := lastEnd_cons_none hnone
      rcases hrest with ⟨status', hrun⟩ | ⟨e, -, hrun⟩ <;> cases hrun
      exact above_of_not hle hnot hk
    | none =>
      obtain ⟨hlater, hnot⟩ := lastEnd_cons_none hnone
      have ht : Sound m False (fun _ _ => True) base t :=
        hr.moves (moves_enters hr.toTidy ho (enter_ok henter) fun _ _ => trivial).1
      exact above_of_not hle hnot (above_takeTurns hbase ht hrest hlater hk)

/-! ## Moments -/

/-- A run that a parse passes through. -/
structure Going (m : Machine) (start r : Run) : Prop where
  since : Since m start r
  composed : Composed r
  underway : Underway r
  alive : r.aborted = false

/-- A run that waits for its driver. -/
structure Resting (m : Machine) (start r : Run) : Prop where
  since : Since m start r
  composed : Composed r
  poised : Poised r
  alive : r.aborted = false

/-- The moment at which a step was completed, and how the parse went on. -/
structure Completes (m : Machine) (start : Run) (k : Nat) (x : Result Status) (moment : Run)
    (later : List Run) : Prop where
  going : Going m start moment
  settled : Concluded m k moment
  last : lastEnd k moment later = none
  goesOn : (later = [] ∧ ∃ status, x = .ok status moment) ∨
    ∃ turns, x = takeTurns m turns moment ∧ later = turnsTaken m turns moment

lemma Resting.enter (hstart : Footing m base start) (h : Resting m start r)
    (henter : enter m entry r = .ok a s) :
    Since m start s ∧ Composed s ∧ s.aborted = false := by
  have hsound := h.since.sound hstart
  refine ⟨h.since.enter hstart (lasts_ok henter), composed_enters h.composed (enter_ok henter), ?_⟩
  obtain ⟨hmoves, -⟩ : Moves m False (fun _ _ => True) r s ∧ _ :=
    moves_enters hsound.toTidy (hsound.orderly hstart.orderly) (enter_ok henter) fun _ _ => trivial
  exact hmoves.aborted.trans h.alive

section Moments

variable (hstart : Footing m base start) (hzero : start.steps = 0)

include hstart hzero

lemma Going.turn (h : Going m start r) (hturn : turn m r = .ok a s) : Going m start s where
  since := h.since.turn hstart (lasts_ok hturn) (by rw [hzero]; exact Nat.zero_le _)
  composed := ((steady_composed hstart.orderly).turn ⟨h.since.sound hstart, h.composed⟩
    (lasts_ok hturn)).2
  underway := (underway_turn m).ok h.underway hturn
  alive := (turn_sound (h.since.sound hstart) hstart.orderly hturn fun _ _ => trivial).2.1.trans
    h.alive

lemma completes_turns (h : Going m start r)
    (hfound : lastEnd k r (turnsTaken m turns r) = some (moment, later)) :
    Completes m start k (takeTurns m turns r) moment later := by
  induction turns generalizing r with
  | zero => cases hfound
  | succ turns ih =>
    rw [turnsTaken] at hfound
    cases hturn : Run.turn m r with
    | error e t =>
      rw [hturn] at hfound
      cases hfound
    | ok a t =>
      have ht := h.turn hstart hzero hturn
      rw [hturn] at hfound
      rw [Run.takeTurns, bind_ok hturn]
      cases a with
      | none =>
        rcases lastEnd_cons_some hfound with hfound | ⟨hnone, hlt, hsteps, rfl, rfl⟩
        · exact ih ht hfound
        · subst hsteps
          exact ⟨ht, settled_turn hstart.orderly (h.since.sound hstart) h.composed h.underway hturn
            hlt, hnone, .inr ⟨turns, rfl, rfl⟩⟩
      | some status =>
        rcases lastEnd_cons_some hfound with hfound | ⟨hnone, hlt, hsteps, rfl, rfl⟩
        · cases hfound
        · subst hsteps
          exact ⟨ht, settled_turn hstart.orderly (h.since.sound hstart) h.composed h.underway hturn
            hlt, hnone, .inl ⟨rfl, status, rfl⟩⟩

theorem completes_resume (h : Resting m start r)
    (hfound : lastEnd k r (passed m turns entry r) = some (moment, later)) :
    Completes m start k (resume m turns entry r) moment later := by
  rw [passed] at hfound
  cases henter : Run.enter m entry r with
  | error e t =>
    rw [henter] at hfound
    cases hfound
  | ok a t =>
    obtain ⟨hsince, hcomposed, halive⟩ := h.enter hstart henter
    have hsettled (hlt : r.steps < t.steps) : Concluded m t.steps t :=
      settled_enters h.composed (h.since.orderly hstart) (enter_ok henter) hlt
    rw [henter] at hfound
    rw [Run.resume, bind_ok henter]
    cases a with
    | none =>
      have ht : Going m start t :=
        ⟨hsince, hcomposed, ((poised_enter m entry h.poised).1 _ _ henter).2 rfl, halive⟩
      rcases lastEnd_cons_some hfound with hfound | ⟨hnone, hlt, hsteps, rfl, rfl⟩
      · exact completes_turns hstart hzero ht hfound
      · subst hsteps
        exact ⟨ht, hsettled hlt, hnone, .inr ⟨turns, rfl, rfl⟩⟩
    | some status =>
      rcases lastEnd_cons_some hfound with hfound | ⟨hnone, hlt, hsteps, rfl, rfl⟩
      · cases hfound
      · subst hsteps
        have hend := hsettled hlt
        exact ⟨⟨hsince, hcomposed, underway_of_running hend.halted, halive⟩, hend, hnone,
          .inl ⟨rfl, status, rfl⟩⟩

end Moments

/-- Where a step is completed is where it can be gone back to. -/
lemma Completes.footing {x : Result Status} (hstart : Footing m base start)
    (h : Completes m start k x moment later) : Footing m base moment :=
  ⟨hstart.orderly, h.going.since.sound hstart, h.going.since.inOrder.again, h.settled.ended⟩

/-! ## From response to response -/

variable {request : Request} {answer : Except Error Reply} {response : Response} {reply : Reply}
  {target : Nat}

lemma perform_ok (hguarded : request.isGuarded = false)
    (hplain : ∀ e, answer = .error e → e.isFatal = false)
    (h : Replied (perform m turns request r) answer s) :
    ∃ reply, perform m turns request r = .ok reply s := by
  generalize hrun : perform m turns request r = x at h
  cases h with
  | ok reply s => exact ⟨reply, rfl⟩
  | error e s =>
    have he := hplain e rfl
    rw [grave_unguarded hguarded hrun] at he
    cases he

/-- What is asked for aside is a call. -/
lemma call_of_ok (hlogged : request.IsLogged) (hguarded : request.isGuarded = false)
    (hattached : r.scanner.stream.isSome) (h : perform m turns request r = .ok reply s) :
    ∃ call : Call, call.IsAside ∧ call.Leads m r s := by
  cases request with
  | attach stream =>
    obtain ⟨u, t, hrun, -⟩ := bind_eq_ok.1 h
    obtain ⟨stream', hstream⟩ := Option.isSome_iff_exists.1 hattached
    unfold attach Op.onScanner Scanner.attach at hrun
    simp only [hstream] at hrun
    cases hrun
  | detach | giveUpLog | editNodes => exact hlogged.elim
  | parse | undoTo => cases hguarded
  | pushText text =>
    obtain ⟨u, t, hrun, h1⟩ := bind_eq_ok.1 h
    cases h1
    exact ⟨.pushText text, trivial, .inl ⟨u, hrun⟩⟩
  | pushTree tree ignore =>
    obtain ⟨slot, t, hrun, h1⟩ := bind_eq_ok.1 h
    cases h1
    exact ⟨.pushTree tree ignore, trivial, .inl ⟨slot, hrun⟩⟩
  | queueToken element text name =>
    obtain ⟨id, t, hrun, h1⟩ := bind_eq_ok.1 h
    cases h1
    exact ⟨.queueToken element text name, trivial, .inl ⟨id, hrun⟩⟩
  | bind name id =>
    obtain ⟨u, t, hrun, h1⟩ := bind_eq_ok.1 h
    cases h1
    exact ⟨.bind name id, trivial, .inl ⟨u, hrun⟩⟩
  | leaveData data =>
    obtain ⟨u, t, hrun, h1⟩ := bind_eq_ok.1 h
    cases h1
    exact ⟨.leaveData data, trivial, .inl ⟨u, hrun⟩⟩
  | dropAside =>
    obtain ⟨u, t, hrun, h1⟩ := bind_eq_ok.1 h
    cases h1
    exact ⟨.dropAside, trivial, .inl ⟨u, hrun⟩⟩
  | reject =>
    obtain ⟨u, t, hrun, h1⟩ := bind_eq_ok.1 h
    cases h1
    unfold rejectNow at hrun
    split at hrun
    · rename_i hreject
      cases hrun
      exact ⟨.reject, trivial, .inl ⟨_, hreject⟩⟩
    all_goals cases hrun

lemma passed_nil (hguarded : request.isGuarded = false) :
    (Response.asked request answer).passed m turns r = [] := by
  cases request <;> first | rfl | cases hguarded

lemma lasts_single (h : Lasts (takeTurns m 1) r s) : Lasts (turn m) r s := by
  rcases lasts_bind h with ⟨e, he, hturn⟩ | ⟨a, t, hturn, hrest⟩
  · exact .inr ⟨e, he, hturn⟩
  · cases a with
    | some status =>
      rcases hrest with ⟨status', hrun⟩ | ⟨e, -, hrun⟩ <;> cases hrun
      exact lasts_ok hturn
    | none => rcases hrest with ⟨status, hrun⟩ | ⟨e, -, hrun⟩ <;> cases hrun

lemma Guarded.lasts_of_plain {op : Op Status} (h : Guarded op r answer s)
    (halive : r.aborted = false)
    (hplain : ∀ e, answer = .error e → e.isFatal = false) :
    ∃ t events, Lasts op r t ∧ s = { t with events } := by
  cases h with
  | refused haborted =>
    rw [halive] at haborted
    cases haborted
  | answered _ hrun => exact ⟨_, _, lasts_ok hrun, rfl⟩
  | halted _ hrun he => exact ⟨s, s.events, .inr ⟨_, he, hrun⟩, rfl⟩
  | ended _ _ he =>
    rw [hplain _ rfl] at he
    cases he

namespace Since

lemma aside (hp : Footing m base p) (h : Since m p r) (hlogged : request.IsLogged)
    (hguarded : request.isGuarded = false) (hrun : perform m turns request r = .ok reply s) :
    Since m p s ∧ s.steps = r.steps := by
  obtain ⟨call, haside, hleads⟩ := call_of_ok hlogged hguarded h.tidy.attached hrun
  obtain ⟨hmoves, hsteps⟩ : Moves m False (fun _ _ => True) r s ∧ s.steps = r.steps :=
    moves_call h.tidy (h.orderly hp) haside nofun hleads
  exact ⟨h.moves hp hmoves (accounts_call h.tidy.attached haside hleads), hsteps⟩

lemma goBack (hp : Footing m base p) (h : Since m p r) (hlasts : Lasts (goBack m target) r s)
    (hsteps : p.steps ≤ s.steps) : Since m p s := by
  obtain ⟨-, -, hturns⟩ := lasts_goBack hlasts
  have haimed : Since m p { r with point := .reverse (.step target) } :=
    h.quiet ⟨h.tidy.attached, h.tidy.pool, nofun⟩ rfl rfl rfl rfl
  exact haimed.turn hp (lasts_single hturns) hsteps

/-- A response that does not complete the step again, and does not lead behind it. -/
lemma next (hp : Footing m base p) (h : Since m p r) (halive : r.aborted = false)
    (hplain : response.IsPlain) (hleads : response.Leads m turns r s)
    (hnone : lastEnd p.steps r (response.passed m turns r) = none) (hsteps : p.steps ≤ s.steps) :
    (∀ t ∈ response.passed m turns r, Since m p t) ∧ Since m p s := by
  cases hleads with
  | stopped =>
    exact ⟨List.forall_mem_nil _,
      h.quiet ⟨h.tidy.attached, h.tidy.pool, nofun⟩ rfl rfl rfl rfl⟩
  | pausedAt target =>
    exact ⟨List.forall_mem_nil _,
      h.quiet ⟨h.tidy.attached, h.tidy.pool, nofun⟩ rfl rfl rfl rfl⟩
  | @asked request answer _ hreplied =>
    obtain ⟨hlogged, hplain⟩ := hplain
    cases hguarded : request.isGuarded with
    | false =>
      obtain ⟨reply, hrun⟩ := perform_ok hguarded hplain hreplied
      rw [passed_nil hguarded]
      exact ⟨List.forall_mem_nil _, (h.aside hp hlogged hguarded hrun).1⟩
    | true =>
      rcases request.guarded_of_replied hguarded hreplied with
        ⟨entry, rfl, hrun⟩ | ⟨target, rfl, hrun⟩
      · obtain ⟨t, events, hlasts, rfl⟩ := hrun.lasts_of_plain halive hplain
        obtain ⟨hpassed, ht⟩ := h.resume hp hlasts hnone hsteps
        exact ⟨hpassed, ht.events events⟩
      · obtain ⟨t, events, hlasts, rfl⟩ := hrun.lasts_of_plain halive hplain
        exact ⟨List.forall_mem_nil _, (h.goBack hp hlasts hsteps).events events⟩

end Since

lemma steps_goBack (hbase : Orderly base) (hr : Sound m False (fun _ _ => True) base r)
    (hlasts : Lasts (goBack m target) r s) : s.steps ≤ r.steps := by
  obtain ⟨-, -, hturns⟩ := lasts_goBack hlasts
  have haimed : Sound m False (fun _ _ => True) base { r with point := .reverse (.step target) } :=
    hr.moves (moves_awaited hr.toTidy _ r.rejecting)
  rcases lasts_turn (lasts_single hturns) with ⟨-, hpoint⟩ | ⟨goal, -, hback⟩ | rfl
  · cases hpoint
  · rcases hback with ⟨b, hback⟩ | ⟨e, he, hback⟩
    · rcases unwind_sound haimed hbase with ⟨a, t, hrun, -, hrecedes⟩ | ⟨misuse, t, hrun, -⟩
      · cases hback.symm.trans hrun
        exact hrecedes.steps
      · cases hback.symm.trans hrun
    · rw [grave_unwind m goal _ hback] at he
      cases he
  · exact Nat.le_refl _

lemma above_next (hp : Footing m base p) (h : Since m p r) (halive : r.aborted = false)
    (hplain : response.IsPlain) (hleads : response.Leads m turns r s)
    (hnone : lastEnd k r (response.passed m turns r) = none) (hk : k ≤ s.steps) : k ≤ r.steps := by
  have hsound := h.sound hp
  cases hleads with
  | stopped => exact hk
  | pausedAt target => exact hk
  | @asked request answer _ hreplied =>
    obtain ⟨hlogged, hplain⟩ := hplain
    cases hguarded : request.isGuarded with
    | false =>
      obtain ⟨reply, hrun⟩ := perform_ok hguarded hplain hreplied
      rwa [← (h.aside hp hlogged hguarded hrun).2]
    | true =>
      rcases request.guarded_of_replied hguarded hreplied with
        ⟨entry, rfl, hrun⟩ | ⟨target, rfl, hrun⟩
      · obtain ⟨t, events, hlasts, rfl⟩ := hrun.lasts_of_plain halive hplain
        exact above_resume hp.orderly hsound hlasts hnone hk
      · obtain ⟨t, events, hlasts, rfl⟩ := hrun.lasts_of_plain halive hplain
        have hle : t.steps ≤ r.steps := steps_goBack hp.orderly hsound hlasts
        exact Nat.le_trans hk hle

lemma composed_next (hbase : Orderly base) (hr : Sound m False (fun _ _ => True) base r)
    (hcomposed : Composed r) (halive : r.aborted = false) (hplain : response.IsPlain)
    (hleads : response.Leads m turns r s) : Composed s := by
  cases hleads with
  | stopped => exact hcomposed.congr rfl rfl rfl
  | pausedAt target => exact hcomposed.congr rfl rfl rfl
  | @asked request answer _ hreplied =>
    cases hguarded : request.isGuarded with
    | false =>
      have hkeeps : Keeps Composed Composed (perform m turns request) := by
        refine keeps_perform
          (inert_of_flags fun _ _ hpoint hretry hrejecting h => h.congr hpoint hretry hrejecting)
          (fun _ production commits hpoint h =>
            ⟨h.retry, fun _ => .inl ⟨production, commits, hpoint⟩⟩)
          (fun _ _ => .onScanner (fun _ _ h => h.congr rfl rfl rfl) _)
          (fun _ => .onScanner (fun _ _ h => h.congr rfl rfl rfl) _) ?_ ?_
        · rintro entry rfl
          cases hguarded
        · rintro target rfl
          cases hguarded
      rw [← hreplied.left]
      exact hkeeps.left hcomposed
    | true =>
      rcases request.guarded_of_replied hguarded hreplied with
        ⟨entry, rfl, hrun⟩ | ⟨target, rfl, hrun⟩
      · obtain ⟨t, events, hlasts, rfl⟩ := hrun.lasts_of_plain halive hplain.2
        exact ((steady_composed hbase).resume ⟨hr, hcomposed⟩ hlasts).2.congr rfl rfl rfl
      · obtain ⟨t, events, hlasts, rfl⟩ := hrun.lasts_of_plain halive hplain.2
        obtain ⟨-, -, hturns⟩ := lasts_goBack hlasts
        have haimed : Composed { r with point := .reverse (.step target) } :=
          ⟨nofun, fun _ => .inr ⟨target, rfl⟩⟩
        exact ((steady_composed hbase).takeTurns
          ⟨hr.moves (moves_awaited hr.toTidy _ r.rejecting), haimed⟩ hturns).2.congr rfl rfl rfl

lemma alive_next (halive : r.aborted = false) (hplain : response.IsPlain)
    (hleads : response.Leads m turns r s) : s.aborted = false := by
  cases hleads with
  | stopped => exact halive
  | pausedAt target => exact halive
  | @asked request answer _ hreplied =>
    have hnot {op : Op Status} (hop : Keeps (·.aborted = false) (·.aborted = false) op)
        (hrun : Guarded op r answer s) : s.aborted = false := by
      rw [← Bool.not_eq_true, hrun.aborted_iff hop, halive]
      rintro (hover | ⟨e, rfl, he⟩)
      · cases hover
      · rw [hplain.2 e rfl] at he
        cases he
    cases hguarded : request.isGuarded with
    | false => exact (aborted_unguarded hguarded hreplied).trans halive
    | true =>
      rcases request.guarded_of_replied hguarded hreplied with
        ⟨entry, rfl, hrun⟩ | ⟨target, rfl, hrun⟩
      · exact hnot (detached_alive.resume turns entry) hrun
      · exact hnot (detached_alive.goBack target) hrun

/-- Before the first step nothing was completed. -/
lemma lastEnd_zero (r : Run) (later : List Run) : lastEnd 0 r later = none := by
  induction later generalizing r with
  | nil => rfl
  | cons t later ih =>
    rw [lastEnd, ih, if_neg (by omega)]
    rfl

/-- After a response the run waits for its driver again. -/
lemma Resting.next (hstart : Footing m base start) (hzero : start.steps = 0)
    (h : Resting m start r) (hplain : response.IsPlain) (hleads : response.Leads m turns r s) :
    Resting m start s where
  since := by
    refine (h.since.next hstart h.alive hplain hleads ?_ ?_).2
    · rw [hzero]
      exact lastEnd_zero _ _
    · rw [hzero]
      exact Nat.zero_le _
  composed :=
    composed_next hstart.orderly (h.since.sound hstart) h.composed h.alive hplain hleads
  poised := by
    cases hleads with
    | stopped => exact h.poised
    | pausedAt target => exact h.poised
    | @asked request _ _ hreplied =>
      rw [← hreplied.left]
      exact (poised_perform m turns request).left h.poised
  alive := alive_next h.alive hplain hleads

end Rewind.Run
