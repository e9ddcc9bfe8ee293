import Rewind.Proofs.Chunking
import Rewind.Proofs.Exactness
import Rewind.Proofs.Responses

/-!
# What was undone is done again

A run that was taken back to a step, and is asked for the same things again, answers the same.  It
takes the same decisions, fails where it failed, and comes to hold the same, down to the slots of
its nodes.  That it has read ahead in its stream makes no difference, and nothing is left of what
was on its way when it turned back.
-/

namespace Rewind

/-- A node that is the same but for place and state is the one with this place and this state. -/
lemma Node.placedAs_of_loose {n n' : Node} (h : n'.loose = n.loose) :
    Node.placedAs n' n = n' := by
  obtain ⟨⟩ := n
  obtain ⟨⟩ := n'
  simp_all [Node.loose, Node.placedAs]

namespace Run

open Attempt Op

variable {m : Machine} {base : View} {start p r s t : Run} {later : List Run} {a : Option Status}
  {k turns answers : Nat} {response : Response} {responses : List Response}
  {answer : Except Error Reply} {q : Reprise} {episode : Episode} {stream : Stream}

/-! ## Responses are repeated -/

lemma ensues_of_replied {x : Result Reply} (h : Replied x answer s)
    (hplain : ∀ e, answer = .error e → e.isFatal = false) : Ensues x answer s := by
  cases h with
  | ok reply s => exact .ok reply s
  | error e s => exact .error s (hplain e rfl)

lemma replied_of_ensues {x : Result Reply} (h : Ensues x answer s) : Replied x answer s := by
  cases h with
  | ok reply s => exact .ok reply s
  | error s _ => exact .error _ s

/-- The nodes that the second run begins with are nodes of the first one. -/
def Reprise.Fits (q : Reprise) (p : Run) : Prop :=
  ∀ ⦃id k⦄, q.nodes id = some k → ∃ n, Pool.get? p.forest id = some n ∧
    (.tree id true ∈ p.content → k.state = n.state)

/-- A tree that is to be set aside has entered no other state since. -/
lemma Reprise.Fits.concurs (hfits : q.Fits p) (h : Since m p r) : q.Concurs r := by
  intro id k n hid hk hn
  obtain ⟨n₀, hn₀, hstate⟩ := hfits hk
  have hlive : (p.view.nodes id).isSome := by
    change (p.shown id).isSome
    rw [isSome_shown, hn₀]
    rfl
  have hwaited : .tree id true ∈ p.content := (h.path.lasting hlive).ignored hid
  obtain ⟨n', hn', hsame⟩ := h.states hwaited hn₀
  cases hn.symm.trans hn'
  exact (hstate hwaited).trans hsame.symm

/-- A response is repeated that does not lead behind the step. -/
lemma repeats_next (hp : Footing m base p) (h : Since m p r) (hfits : q.Fits p)
    (hplain : response.IsPlain) (hleads : response.Leads m turns r s)
    (hpassed : ∀ t ∈ response.passed m turns r, Since m p t) (hsupplied : q.Supplied s) :
    q.Supplied r ∧ ∀ r', q.Matches r r' → ∃ s', response.Leads m turns r' s' ∧ q.Matches s s' := by
  cases hleads with
  | stopped =>
    have hset : q.Repeats (modify Run.stop) r := .modify (fun _ _ _ => rfl) fun _ hid => hid
    obtain ⟨hr, hrest⟩ := hset (.ok () r.stop) hsupplied
    refine ⟨hr, fun r' hr' => ?_⟩
    obtain ⟨s', hs', hmatches⟩ := hrest r' hr'
    cases hs'
    exact ⟨_, .stopped, hmatches⟩
  | pausedAt target =>
    have hset : q.Repeats (modify (Run.pauseAt target)) r :=
      .modify (fun _ _ _ => rfl) fun _ hid => hid
    obtain ⟨hr, hrest⟩ := hset (.ok () (r.pauseAt target)) hsupplied
    refine ⟨hr, fun r' hr' => ?_⟩
    obtain ⟨s', hs', hmatches⟩ := hrest r' hr'
    cases hs'
    exact ⟨_, .pausedAt target, hmatches⟩
  | @asked request answer _ hreplied =>
    have hordered := ordered h.tidy (h.orderly hp)
    have hasked : q.Repeats (perform m turns request) r := by
      refine .perform h.tidy hplain.1 ?_ ?_
      · rintro entry rfl
        refine .parse hordered fun t ht => ?_
        have hsince := hpassed t ht
        exact .turn hp.orderly (hsince.sound hp) (hfits.concurs hsince)
      · rintro target rfl
        exact .undoTo hp.orderly (h.sound hp)
    obtain ⟨hr, hrest⟩ := hasked (ensues_of_replied hreplied hplain.2) hsupplied
    refine ⟨hr, fun r' hr' => ?_⟩
    obtain ⟨s', hs', hmatches⟩ := hrest r' hr'
    exact ⟨s', .asked (replied_of_ensues hs'), hmatches⟩

/-! ## Episodes -/

/-- What was done since the moment of an episode is repeated, wherever it begins. -/
def Episode.Retold (m : Machine) (episode : Episode) (r : Run) : Prop :=
  ∀ ⦃q : Reprise⦄, q.Fits episode.run → q.Supplied r → q.Supplied episode.run ∧
    ∀ s, q.Matches episode.run s → ∃ t, Replays m s episode.responses t ∧ q.Matches r t

/-- The episode begins where the step was completed, and the run can be taken back there. -/
structure Chronicled (m : Machine) (base : View) (k : Nat) (episode : Episode) (r : Run) :
    Prop where
  footing : Footing m base episode.run
  settled : Concluded m k episode.run
  alive : episode.run.aborted = false
  since : Since m episode.run r
  retold : episode.Retold m r

lemma Episode.retold_begun (r : Run) : (Episode.mk r []).Retold m r :=
  fun _ _ hsupplied => ⟨hsupplied, fun s hs => ⟨s, .start, hs⟩⟩

/-- An episode that begins. -/
lemma Chronicled.begun (hp : Footing m base p) (hsettled : Concluded m k p)
    (halive : p.aborted = false) : Chronicled m base k { run := p } p :=
  ⟨hp, hsettled, halive, hp.since, Episode.retold_begun p⟩

/-- An episode goes on with a response. -/
lemma Chronicled.goesOn (h : Chronicled m base k episode r) (halive : r.aborted = false)
    (hplain : response.IsPlain) (hleads : response.Leads m turns r s)
    (hnone : lastEnd k r (response.passed m turns r) = none) (hk : k ≤ s.steps) :
    Chronicled m base k { episode with responses := response :: episode.responses } s := by
  rw [← h.settled.steps] at hnone hk
  obtain ⟨hpassed, hsince⟩ := h.since.next h.footing halive hplain hleads hnone hk
  refine ⟨h.footing, h.settled, h.alive, hsince, fun q hfits hsupplied => ?_⟩
  obtain ⟨hr, hrest⟩ := repeats_next h.footing h.since hfits hplain hleads hpassed hsupplied
  obtain ⟨hp, hbefore⟩ := h.retold hfits hr
  refine ⟨hp, fun s hs => ?_⟩
  obtain ⟨r', hreplays, hmatches⟩ := hbefore s hs
  obtain ⟨s', hleads', hmatches'⟩ := hrest r' hmatches
  exact ⟨s', hreplays.next hleads', hmatches'⟩

/-! ## A step that is completed on the way -/

/-- A run that waits behind a step goes on with its turns when it is entered at its start. -/
lemma Concluded.resume (h : Concluded m k p) (hlasts : Lasts (takeTurns m turns) p s) :
    resume m turns .start p = takeTurns m turns p ∧
      ∀ steps, lastEnd steps p (passed m turns .start p) =
        lastEnd steps p (turnsTaken m turns p) := by
  have hself (steps : Nat) (later : List Run) :
      lastEnd steps p (p :: later) = lastEnd steps p later := by
    rw [lastEnd, if_neg fun hless => Nat.lt_irrefl _ hless.1]
    cases lastEnd steps p later <;> rfl
  have hpoint := h.point
  rw [settled] at hpoint
  split at hpoint
  · have henter : Run.enter m .start p = .ok (some .done) p := by
      rw [Run.enter, get_bind, hpoint]
      rfl
    have hturn : Run.turn m p = .ok (some .done) p := by
      rw [Run.turn, get_bind, hpoint]
      rfl
    cases turns with
    | zero => rcases hlasts with ⟨status, hrun⟩ | ⟨e, -, hrun⟩ <;> cases hrun
    | succ turns =>
      refine ⟨?_, fun steps => ?_⟩
      · rw [Run.resume, bind_ok henter, Run.takeTurns, bind_ok hturn]
      · rw [passed, henter, turnsTaken, hturn]
  · have henter : Run.enter m .start p = .ok none p := by
      rw [Run.enter, get_bind, hpoint, h.halted]
      rfl
    refine ⟨by rw [Run.resume, bind_ok henter], fun steps => ?_⟩
    rw [passed, henter]
    exact hself steps _

lemma unlessAborted_congr {op op' : Op Status} (hr : r.aborted = false) (hp : p.aborted = false)
    (h : op r = op' p) : unlessAborted op r = unlessAborted op' p := by
  unfold unlessAborted
  rw [hr, hp, h]
  rfl

/-- Turns that come to an answer pass through the run that is left. -/
lemma turnsTaken_ne_nil {status : Status} (h : takeTurns m turns p = .ok status s) :
    turnsTaken m turns p ≠ [] := by
  cases turns with
  | zero => cases h
  | succ turns =>
    obtain ⟨a, t, hturn, -⟩ := bind_eq_ok.1 h
    rw [turnsTaken, hturn]
    cases a <;> exact List.cons_ne_nil _ _

lemma Footing.events (h : Footing m base p) (events : List Event) :
    Footing m base { p with events } :=
  ⟨h.orderly, h.sound.moves (moves_settings h.sound.toTidy p.target p.stopping p.rejecting events),
    h.inOrder, h.ended⟩

lemma Concluded.events (h : Concluded m k p) (events : List Event) :
    Concluded m k { p with events } :=
  ⟨h.steps, h.ended, h.point, h.halted, h.retry, h.rejecting⟩

/-- An episode that begins on the way of a parse. -/
lemma Chronicled.completed {entry : Entry} (hstart : Footing m base start)
    (hzero : start.steps = 0) (hrest : Resting m start r)
    (hplain : (Response.asked (.parse entry) answer).IsPlain)
    (hreplied : Replied (perform m turns (.parse entry) r) answer s)
    (hfound : lastEnd k r (passed m turns entry r) = some (p, later)) (hk : k ≤ s.steps) :
    Chronicled m base k (episode.after (.asked (.parse entry) answer) s (some (p, later))) s := by
  have hcompletes := completes_resume hstart hzero hrest hfound
  have hfooting := hcompletes.footing hstart
  have hguarded : Guarded (resume m turns entry) r answer s := replied_unlessAborted hreplied
  obtain ⟨t, events, hlasts, hs⟩ := hguarded.lasts_of_plain hrest.alive hplain.2
  rcases hcompletes.goesOn with ⟨rfl, status, hrun⟩ | ⟨more, hrun, rfl⟩
  · cases hguarded with
    | refused haborted => cases haborted.symm.trans hrest.alive
    | halted _ hrun' _ => cases hrun.symm.trans hrun'
    | ended _ hrun' _ => cases hrun.symm.trans hrun'
    | answered _ hrun' =>
      cases hrun.symm.trans hrun'
      exact .begun (hfooting.events _) (hcompletes.settled.events _) hcompletes.going.alive
  · have hgoes : ((turnsTaken m more p).isEmpty && answer.isOk) = false := by
      cases hguarded with
      | answered _ hrun' =>
        have hne := turnsTaken_ne_nil (hrun.symm.trans hrun')
        rw [List.isEmpty_eq_false_iff.2 hne]
        rfl
      | _ => exact Bool.and_false _
    rw [Lasts, hrun] at hlasts
    obtain ⟨hresume, hpassed⟩ := hcompletes.settled.resume hlasts
    have hsame : perform m more (.parse .start) p = perform m turns (.parse entry) r :=
      bind_of_eq (unlessAborted_congr hcompletes.going.alive hrest.alive (hresume.trans hrun.symm))
    have hanswered : (Response.asked (.parse .start) answer).IsPlain := ⟨trivial, hplain.2⟩
    have hleads : (Response.asked (.parse .start) answer).Leads m more p s :=
      .asked (hsame ▸ hreplied)
    have hrest := (Chronicled.begun hfooting hcompletes.settled hcompletes.going.alive).goesOn
      hcompletes.going.alive hanswered hleads ((hpassed k).trans hcompletes.last) hk
    rw [Episode.after, Response.answer, hgoes]
    exact hrest

/-- What a driver keeps is right, for every step that it could take the run back to. -/
lemma Driven.accounts {episodes : Nat → Episode} (hstart : Footing m base start)
    (hsettled : Concluded m 0 start) (hbegun : Resting m start start)
    (h : Driven m start episodes r) :
    Resting m start r ∧ ∀ k ≤ r.steps, Chronicled m base k (episodes k) r := by
  have hzero := hsettled.steps
  induction h with
  | start =>
    refine ⟨hbegun, fun k hk => ?_⟩
    obtain rfl : k = 0 := by omega
    exact .begun hstart hsettled hbegun.alive
  | @next episodes r s response turns _ hplain hleads ih =>
    obtain ⟨hrest, haccounts⟩ := ih
    refine ⟨hrest.next hstart hzero hplain hleads, fun k hk => ?_⟩
    cases hfound : lastEnd k r (response.passed m turns r) with
    | none =>
      have hle := above_next hstart hrest.since hrest.alive hplain hleads hfound hk
      simp only [hfound]
      exact (haccounts k hle).goesOn hrest.alive hplain hleads hfound hk
    | some found =>
      cases hleads with
      | stopped => cases hfound
      | pausedAt target => cases hfound
      | @asked request answer _ hreplied =>
        cases request with
        | parse entry =>
          simp only [hfound]
          exact .completed hstart hzero hrest hplain hreplied hfound hk
        | _ => cases hfound

/-! ## Going back all the way -/

/-- Taking back to a step comes there, or waits for the caller on the way. -/
theorem Since.unwind_step {status : Status} (hp : Footing m base p) (hlow : base.steps ≤ p.steps)
    (h : Since m p r) (hpoint : r.point = .reverse (.step p.steps))
    (hrun : Run.takeTurns m turns r = .ok status s) :
    Since m p s ∧ Withdraws r s ∧ Halfway m p.steps r (some status) s := by
  have hhigh : p.steps ≤ r.steps := h.path.steps_le
  obtain ⟨status', s', hback, -, -, hretreats⟩ := Run.unwind_step (h.sound hp) hp.orderly hlow hhigh
  have hturn : Run.turn m r = .ok (some status') s' := by
    rw [Run.turn, get_bind, hpoint]
    exact hback
  cases turns with
  | zero => cases hrun
  | succ turns =>
    rw [Run.takeTurns, bind_ok hturn] at hrun
    cases hrun
    have hsteps : p.steps ≤ s.steps := by
      cases hretreats with
      | landed hland _ => exact Nat.le_of_eq hland.steps.symm
      | waiting hle _ _ => exact hle
    obtain ⟨hsince, hwithdraws, hhalf⟩ := h.unwind hp hback hsteps
    exact ⟨hsince, hwithdraws, hhalf _ rfl⟩

/-- Whatever the caller answers on the way, the step is where going back leads. -/
lemma Since.goFurther {status : Status} (hp : Footing m base p) (hlow : base.steps ≤ p.steps)
    (h : Since m p t) (hback : Withdraws r t)
    (hhalf : (∃ data, status = .reverse data ∧ t.point = .reverse (.step p.steps)) ∨
      status = .reverted p.steps ∧ Concluded m p.steps t)
    (hrun : Run.goFurther m turns answers status t = .ok (.reverted p.steps) s) :
    Since m p s ∧ Withdraws r s ∧ Concluded m p.steps s := by
  induction answers generalizing status t with
  | zero =>
    rcases hhalf with ⟨data, rfl, -⟩ | ⟨rfl, hsettled⟩ <;> cases hrun
    exact ⟨h, hback, hsettled⟩
  | succ answers ih =>
    rcases hhalf with ⟨data, rfl, hpoint⟩ | ⟨rfl, hsettled⟩
    · obtain ⟨status, u, hparse, hrest⟩ := bind_eq_ok.1 hrun
      obtain ⟨-, v, hresume, rfl⟩ := ok_of_unlessAborted hparse
      have henter : Run.enter m .reverse t = .ok none t := by
        rw [Run.enter, get_bind, hpoint]
        rfl
      rw [Run.resume, bind_ok henter] at hresume
      obtain ⟨hv, hback', hhalf⟩ := h.unwind_step hp hlow hpoint hresume
      refine ih (hv.events _) ((hback.trans hback').events _) ?_ hrest
      rcases hhalf with ⟨data, ha, hsame⟩ | ⟨ha, hsettled⟩
      · exact .inl ⟨data, Option.some.inj ha, hsame.trans hpoint⟩
      · exact .inr ⟨Option.some.inj ha, hsettled.events _⟩
    · cases hrun
      exact ⟨h, hback, hsettled⟩

/-- Going back to a step gives back the run that there was, but for what no record tells of. -/
lemma Since.goAllBack (hp : Footing m base p) (hlow : base.steps ≤ p.steps) (h : Since m p r)
    (hrun : Run.goAllBack m turns answers p.steps r = .ok (.reverted p.steps) s) :
    Since m p s ∧ Withdraws r s ∧ Concluded m p.steps s := by
  obtain ⟨status, t, hundo, hrest⟩ := bind_eq_ok.1 hrun
  obtain ⟨-, u, hback, rfl⟩ := ok_of_unlessAborted hundo
  obtain ⟨hsteps, hwaits, -⟩ := lasts_goBack (lasts_ok hback)
  rw [goBack_apply hsteps hwaits] at hback
  have haimed : Since m p { r with point := .reverse (.step p.steps) } :=
    h.quiet ⟨h.tidy.attached, h.tidy.pool, nofun⟩ rfl rfl rfl rfl
  obtain ⟨hu, hback', hhalf⟩ := haimed.unwind_step hp hlow rfl hback
  have hwithdraws : Withdraws r { r with point := .reverse (.step p.steps) } :=
    .quiet rfl rfl rfl rfl rfl
  refine (hu.events _).goFurther hp hlow ((hwithdraws.trans hback').events _) ?_ hrest
  rcases hhalf with ⟨data, ha, hsame⟩ | ⟨ha, hsettled⟩
  · exact .inl ⟨data, Option.some.inj ha, hsame⟩
  · exact .inr ⟨Option.some.inj ha, hsettled.events _⟩

/-! ## Back where the step ended -/

/-- Where as many steps are completed, and nothing was done since, the log is what it was. -/
lemma Since.ground (h : Since m p s) (hsteps : s.steps = p.steps)
    (hended : s.log.records = [] ∨ ∃ older, s.log.records = .stepEnded :: older) :
    s.log.records = p.log.records ∧ s.view = p.view := by
  have hpath := h.path
  have hsame : s.view.steps = p.view.steps := hsteps
  generalize s.view = v at hpath hsame ⊢
  generalize s.log.records = records at hpath hended
  cases hpath with
  | start => exact ⟨rfl, rfl⟩
  | change hpath hc _ =>
    rcases hended with hnone | ⟨older, hended⟩
    · cases hnone
    · obtain ⟨rfl, rfl⟩ := List.cons.inj hended
      have hless := hc.steps
      rw [if_pos rfl] at hless
      have hle := hpath.steps_le
      omega

/-- The run with the settings of another one, as far as a driver can ask for them: it sets where the
run is to pause, and asks for a stop if the other one was asked for a stop. -/
def setAs (s p : Run) : Run :=
  if p.stopping then (s.pauseAt p.target).stop else s.pauseAt p.target

lemma setAs_eq (hstop : s.stopping = false) :
    s.setAs p = { s with target := p.target, stopping := p.stopping } := by
  unfold setAs
  split
  · rename_i hp
    rw [hp]
    rfl
  · rename_i hp
    rw [eq_false_of_ne_true hp, ← hstop]
    rfl

/-- What is known in advance of a run that is repeated from where it was taken back to. -/
def reprise (p r s : Run) : Reprise where
  nodes := Pool.get? s.forest
  opened := s.forest.slots.size
  unread := r.unread
  ended := r.sourceEnded
  told := p.events
  retold := s.events

section Regained

variable (hp : Footing m base p) (hs : Since m p s) (hback : Withdraws r s)
  (hland : Concluded m k s) (hsettled : Concluded m k p)

include hs hland hsettled

lemma fits_reprise : (reprise p r s).Fits p := by
  obtain ⟨-, hview⟩ := hs.ground (hland.steps.trans hsettled.steps.symm) hland.ended
  intro id n hn
  have hlive : (Pool.get? p.forest id).isSome := by
    rw [← isSome_shown, ← show s.view.nodes = p.shown from congrArg View.nodes hview]
    change (s.shown id).isSome
    rw [isSome_shown, show Pool.get? s.forest id = _ from hn]
    rfl
  obtain ⟨n', hn'⟩ := Option.isSome_iff_exists.1 hlive
  refine ⟨n', hn', fun hid => ?_⟩
  obtain ⟨n₁, hn₁, hstate⟩ := hs.states hid hn'
  cases hn₁.symm.trans hn
  exact hstate

include hp hback

/-- A run that was taken back, and is set as it was then, matches the moment that it was taken back
to. -/
lemma matches_reprise (halive : p.aborted = false) (hr : r.aborted = false)
    (hstop : s.stopping = false) : (reprise p r s).Matches p (s.setAs p) := by
  obtain ⟨hlog, hview⟩ := hs.ground (hland.steps.trans hsettled.steps.symm) hland.ended
  rw [setAs_eq hstop]
  have hview' : { s with target := p.target, stopping := p.stopping }.view = p.view := hview
  refine ⟨⟨_, _, _, eq_of_view hview' ?_⟩, ⟨[], rfl, rfl⟩, ?_, ?_, fun id => ?_⟩
  · refine ⟨congrArg Journal.mk hlog, rfl, hland.retry.trans hsettled.retry.symm, ?_, rfl,
      hland.halted.trans hsettled.halted.symm, (hback.aborted.trans hr).trans halive.symm,
      hland.rejecting.trans hsettled.rejecting.symm, rfl⟩
    exact hland.point.trans ((congrArg (settled m) hview).trans hsettled.point.symm)
  · obtain ⟨stream, hstream⟩ := hp.sound.toTidy.stream
    obtain ⟨stream', hstream'⟩ := hs.tidy.stream
    obtain ⟨hcontent, hposition, -⟩ := content_eq hstream
    obtain ⟨hcontent', hposition', hunread⟩ := content_eq hstream'
    refine ⟨stream, stream', hstream, hstream', ?_, ?_, hunread.symm.trans hback.unread, ?_⟩
    · rw [← hcontent, ← hcontent']
      exact congrArg View.items hview
    · rw [← hposition, ← hposition']
      exact congrArg View.position hview
    · have hended := hback.ended
      rwa [sourceEnded, hstream'] at hended
  · have hslots := hs.inOrder
    rw [InOrder, hlog] at hslots
    exact Pool.Stacked.ahead hp.inOrder hslots hslots.size
  · have hwaiting : s.waiting = p.waiting := congrArg View.waiting hview
    have hshown : s.shown id = p.shown id := congrFun (congrArg View.nodes hview) id
    by_cases hid : id ∈ p.waiting
    · rw [shown_of_waiting hid, shown_of_waiting (hwaiting ▸ hid)] at hshown
      cases hn : Pool.get? p.forest id with
      | none =>
        rw [hn] at hshown
        exact .inl (Option.map_eq_none_iff.1 hshown)
      | some n =>
        rw [hn] at hshown
        obtain ⟨n', hn', hloose⟩ := Option.map_eq_some_iff.1 hshown
        refine .inr ⟨hid, n', hn', hn'.trans ?_⟩
        rw [Option.map_some, Node.placedAs_of_loose hloose]
    · rw [shown_of_not_waiting hid, shown_of_not_waiting (hwaiting ▸ hid)] at hshown
      exact .inl hshown

omit hp hs hland hsettled in
/-- A run that was repeated to the end is the run that was taken back. -/
lemma matches_regained (hmatches : (reprise p r s).Matches r t) :
    t = { r with scanner := t.scanner, events := t.events } := by
  have hnodes : Pool.get? t.forest = Pool.get? r.forest := by
    funext id
    rcases hmatches.nodes id with hsame | ⟨hid, n, hn, hplaced⟩
    · exact hsame
    · have hn' : Pool.get? s.forest id = some n := hn
      have hr := (hback.nodes hid (by rw [hn']; rfl)).2
      rw [hn'] at hr
      rw [hplaced, ← hr]
      rfl
  have hforest := hmatches.forest.eq (Nat.le_of_eq hback.size) hnodes
  obtain ⟨scanner, forest, events, rfl⟩ := hmatches.parts
  cases hforest
  rfl

end Regained

/-! ## The same again -/

lemma snapshot_congr {scanner : Scanner} {events : List Event}
    (hstream : scanner.stream = r.scanner.stream) :
    ({ r with scanner, events } : Run).snapshot = r.snapshot := by
  unfold snapshot Scanner.position?
  rw [hstream]

/-- Runs that differ in nothing but how much of the stream is at hand hold the same, with all of the
stream read in advance. -/
lemma snapshot_flat {scanner : Scanner} {events : List Event}
    (hr : r.scanner.stream = some stream) {stream' : Stream} (hs : scanner.stream = some stream')
    (hflat : stream'.flat = stream.flat) :
    (flattening.veiled { r with scanner, events }).snapshot = (flattening.veiled r).snapshot := by
  refine snapshot_congr (r := flattening.veiled r) ?_
  change scanner.stream.map Stream.flat = r.scanner.stream.map Stream.flat
  rw [hr, hs, Option.map_some, Option.map_some, hflat]

section Start

variable (hfresh : Fresh m stream start)

include hfresh

lemma Fresh.footing : Footing m start.view start := by
  obtain ⟨hlog, hslots⟩ : start.log.records = [] ∧ InOrder start.forest start := by
    obtain ⟨blockLength, blockLimit, target, rfl⟩ := hfresh.eq
    exact ⟨rfl, ⟨rfl, rfl, rfl, Nat.le_refl _⟩⟩
  refine ⟨hfresh.orderly, ⟨hfresh.tidy, ?_⟩, hslots, .inl hlog⟩
  rw [hlog]
  exact .start

lemma Fresh.settled : Concluded m 0 start := by
  obtain ⟨blockLength, blockLimit, target, rfl⟩ := hfresh.eq
  exact ⟨rfl, .inl rfl, rfl, rfl, rfl, rfl⟩

lemma Fresh.resting : Resting m start start := by
  have hsince := hfresh.footing.since
  obtain ⟨blockLength, blockLimit, target, rfl⟩ := hfresh.eq
  exact ⟨hsince, composed_of_not nofun rfl, poised_of_start fun _ => rfl, rfl⟩

end Start

/-- **What was undone is done again.**  Whatever a driver has done with a run: once the run is taken
back to a step, and set as it was when that step was completed last, the responses since then lead
on from there with the same answers, whether statuses or errors.  The run tells the same again, of
its decisions and of what failed.  In the end it is the run that was taken back, except that more of
its stream may be at hand and that its scanner has made other scans. -/
theorem undone_again {episodes : Nat → Episode} (hfresh : Fresh m stream start)
    (h : Driven m start episodes r) (hk : k ≤ r.steps)
    (hback : goAllBack m turns answers k r = .ok (.reverted k) s) (hstop : s.stopping = false) :
    (episodes k).run.steps = k ∧
      ∃ t told, Replays m (s.setAs (episodes k).run) (episodes k).responses t ∧
        r.events = told ++ (episodes k).run.events ∧ t.events = told ++ s.events ∧
        t = { r with scanner := t.scanner, events := t.events } ∧
        t.content = r.content ∧ t.position = r.position ∧
        (flattening.veiled t).snapshot = (flattening.veiled r).snapshot := by
  obtain ⟨hrest, haccounts⟩ := h.accounts hfresh.footing hfresh.settled hfresh.resting
  have haccount := haccounts k hk
  generalize episodes k = episode at haccount ⊢
  obtain ⟨hp, hsettled, halive, hsince, hretold⟩ := haccount
  have hzero : start.view.steps = 0 := hfresh.settled.steps
  obtain rfl := hsettled.steps
  obtain ⟨hs, hwithdraws, hland⟩ := hsince.goAllBack hp (by omega) hback
  have hmatches := matches_reprise hp hs hwithdraws hland hsettled halive hrest.alive hstop
  obtain ⟨stream, hstream⟩ := hsince.tidy.stream
  have hsupplied : (reprise episode.run r s).Supplied r := by
    refine ⟨stream, hstream, Nat.le_of_eq (content_eq hstream).2.2, fun hended => ?_⟩
    rw [reprise, sourceEnded, hstream]
    exact hended
  obtain ⟨-, hreplays⟩ := hretold (fits_reprise (r := r) hs hland hsettled) hsupplied
  obtain ⟨t, ht, hagain⟩ := hreplays _ hmatches
  obtain ⟨told, hr, ht'⟩ := hagain.events
  obtain ⟨stream₁, stream', hstream₁, hstream', hreads⟩ := hagain.stream
  obtain rfl : stream = stream₁ := Option.some.inj (hstream.symm.trans hstream₁)
  have hsame := matches_regained hwithdraws hagain
  refine ⟨rfl, t, told, ht, hr, ht', hsame, ?_, hagain.position, ?_⟩
  · rw [(content_eq hstream').1, (content_eq hstream).1, hreads.content]
  · rw [hsame]
    exact snapshot_flat hstream hstream' (Stream.flat_congr hreads.content hreads.position)

/-- The letter is shifted, which leads nowhere, and turned into a word; then the driver leaves data.
Back at the end of the first step, which was completed twice, what came behind it is the same
again. -/
theorem undone_again_letter : ∃ episodes r s t told,
    Driven letterMachine letterStart episodes r ∧ 1 ≤ r.steps ∧
    goAllBack letterMachine 1 2 1 r = .ok (.reverted 1) s ∧ s.stopping = false ∧
    (episodes 1).responses.length = 2 ∧ (episodes 1).run.steps = 1 ∧
    Replays letterMachine (s.setAs (episodes 1).run) (episodes 1).responses t ∧
    r.events = told ++ (episodes 1).run.events ∧ t.events = told ++ s.events ∧
    (flattening.veiled t).snapshot = (flattening.veiled r).snapshot := by
  have hfresh : Fresh letterMachine (Stream.ofBytes [97]) letterStart := ⟨rfl, 8, 8, none, rfl⟩
  have hparsed := Result.eq_ok_left (show Result.answer?
    (parse letterMachine 20 .start letterStart) = some .done by decide +kernel)
  generalize hq : Result.left (parse letterMachine 20 .start letterStart) = q at hparsed
  have hdriven := @Driven.next letterMachine letterStart _ _ q
    (.asked (.parse .start) (.ok (.status .done))) 20 .start ⟨trivial, nofun⟩
    (.asked (by rw [perform_parse, bind_ok hparsed]; exact .ok _ q))
  have hleft := @Driven.next letterMachine letterStart _ _
    { q with log := q.log.append (.action [7]) } (.asked (.leaveData [7]) (.ok .accepted)) 20
    hdriven ⟨trivial, nofun⟩ (.asked (.ok _ _))
  have hsteps : 1 ≤ q.steps := by
    subst hq
    decide +kernel
  have hback := Result.eq_ok_left (show Result.answer? (goAllBack letterMachine 1 2 1
    { q with log := q.log.append (.action [7]) }) = some (.reverted 1) by subst hq; decide +kernel)
  have hstop : (Result.left (goAllBack letterMachine 1 2 1
      { q with log := q.log.append (.action [7]) })).stopping = false := by
    subst hq
    decide +kernel
  obtain ⟨hrun, t, told, hreplays, hr, ht, -, -, -, hsnapshot⟩ :=
    undone_again hfresh hleft hsteps hback hstop
  refine ⟨_, _, _, t, told, hleft, hsteps, hback, hstop, ?_, hrun, hreplays, hr, ht, hsnapshot⟩
  subst hq
  decide +kernel

end Run

end Rewind
