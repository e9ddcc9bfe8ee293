import Rewind.Proofs.Holdings

/-!
# How far a run can be taken back

A run that has given up its log can be taken back to where it gave up the log, and no further.  If
that was at the end of a step, then taking back is exact there as well.  If it was in the middle of
a step, then the run says that it is back at the end of the step before, but it is where it gave up
the log: an empty log counts as the end of a step, whatever was done before it was emptied.
-/

namespace Rewind.Run

open Attempt Op

/-! ## Runs that hold the same -/

/-- Two runs that hold the same nodes in the same places and have the same left to read.  The
first may hold nodes besides, those of dropped tokens. -/
structure Alike (r s : Run) : Prop where
  state : s.state = r.state
  steps : s.steps = r.steps
  stack : s.stack = r.stack
  queue : s.queue = r.queue
  aside : s.aside = r.aside
  nodes : ∀ id n, Pool.get? s.forest id = some n → Pool.get? r.forest id = some n
  bindings : s.bindings = r.bindings
  endActionRan : s.endActionRan = r.endActionRan
  position : s.scanner.position? = r.scanner.position?
  content : s.content = r.content

lemma Agrees.alike {r s : Run} (h : Agrees r s) : Alike r s where
  state := h.state
  steps := h.steps
  stack := h.stack
  queue := h.queue
  aside := h.aside
  nodes id n hn := by rwa [← h.nodes id]
  bindings := h.bindings
  endActionRan := h.endActionRan
  position := h.position
  content := h.content

lemma Alike.trans {r s t : Run} (h : Alike r s) (h' : Alike s t) : Alike r t where
  state := h'.state.trans h.state
  steps := h'.steps.trans h.steps
  stack := h'.stack.trans h.stack
  queue := h'.queue.trans h.queue
  aside := h'.aside.trans h.aside
  nodes id n hn := h.nodes id n (h'.nodes id n hn)
  bindings := h'.bindings.trans h.bindings
  endActionRan := h'.endActionRan.trans h.endActionRan
  position := h'.position.trans h.position
  content := h'.content.trans h.content

/-- Runs of one view are alike, wherever they wait. -/
lemma alike_of_view {r s : Run} (hr : Tidy True r) (hs : Tidy True s) (hview : s.view = r.view) :
    Alike r s := by
  let t : Run := { s with log := r.log, point := r.point }
  have ht : Tidy True t := ⟨hs.attached, hs.pool, hs.loose⟩
  have halike : Alike r t := (agrees_of_view hr ht hview rfl rfl).alike
  exact ⟨halike.state, halike.steps, halike.stack, halike.queue, halike.aside, halike.nodes,
    halike.bindings, halike.endActionRan, halike.position, halike.content⟩

/-- Giving up the log changes nothing else, but that dropped tokens are gone. -/
lemma Unburdened.alike {r s : Run} (h : Unburdened r s) : Alike r s where
  state := by rw [h.same]
  steps := by rw [h.same]
  stack := by rw [h.same]
  queue := by rw [h.same]
  aside := by rw [h.same]
  nodes := h.kept
  bindings := by rw [h.same]
  endActionRan := by rw [h.same]
  position := by rw [h.same]
  content := by rw [h.same]; rfl

/-! ## Histories with logs given up -/

/-- Whether the log tells of nothing since the last step, given whether it began so. -/
def betweenSteps (begun : Bool) (r : Run) : Bool :=
  match r.log.last? with
  | none => begun
  | some record => record = .stepEnded

/-- What was done with a run since the start, without a fatal error: the moments of its steps, the
run with which its log begins, and whether that was between two steps.  The log is not given up
while something is taken back. -/
inductive Annals (m : Machine) (start : Run) :
    Chronicle → (clean : Bool) → (base : Run) → Run → Prop
  | start : Annals m start (fun _ => start) true start start
  | call {c : Chronicle} {clean : Bool} {base r s : Run} {call : Call} :
    Annals m start c clean base r → (∀ stream, call ≠ .attach stream) → call ≠ .giveUpLog →
    call.IsLoose → call.PushesSingle → call.Leads m r s → s.aborted = false →
    Annals m start (c.notes r (call.passed m r)) clean base s
  | giveUp {c : Chronicle} {clean : Bool} {base r s : Run} :
    Annals m start c clean base r → (∀ goal, r.point ≠ .reverse goal) → giveUpLog r = .ok () s →
    Annals m start c (betweenSteps clean r) s s

/-- What a run is that is back at a step: as it was when the step was completed most recently, if
that was after the log was begun; else as it was when the log was begun, which is the same if that
was between two steps. -/
structure Restored (c : Chronicle) (clean : Bool) (base : Run) (steps : Nat) (s : Run) : Prop where
  within : base.steps ≤ steps
  later : base.steps < steps → Agrees (c steps) s
  begun : steps = base.steps → Alike base s
  clean : clean = true → Alike (c steps) s

/-- The log leads back to its beginning, and chronicle and log agree on the way. -/
structure Charted (m : Machine) (c : Chronicle) (clean : Bool) (base r : Run) : Prop where
  kept : Kept m base.view (c base.steps) c r
  tidy : Tidy True base
  owned : Owned [] base.view
  ownedThroughout : OwnedThroughout m base.view r
  alive : r.aborted = false
  clean : clean = true → Alike (c base.steps) base

variable {m : Machine} {c : Chronicle} {clean : Bool} {base start r s : Run} {k : Nat}
  {stream : Stream}

namespace Charted

lemma fresh (hfresh : Fresh m stream start) : Charted m (fun _ => start) true start start := by
  obtain ⟨hlog, halive⟩ : start.log = Journal.empty ∧ start.aborted = false := by
    obtain ⟨blockLength, blockLimit, pause, rfl⟩ := hfresh.eq
    exact ⟨rfl, rfl⟩
  obtain ⟨howned, hthroughout⟩ := ownedThroughout_fresh hfresh
  exact ⟨history_kept hfresh.orderly hfresh.tidy hlog .start, hfresh.tidy, howned, hthroughout,
    halive, fun _ => alike_of_view hfresh.tidy hfresh.tidy rfl⟩

lemma call {call : Call} (h : Charted m c clean base r) (hattach : ∀ stream, call ≠ .attach stream)
    (hgive : call ≠ .giveUpLog) (hloose : call.IsLoose) (hsingle : call.PushesSingle)
    (hcall : call.Leads m r s) (halive : s.aborted = false) :
    Charted m (c.notes r (call.passed m r)) clean base s := by
  have hkept := call_kept h.kept h.owned.orderly hattach hgive hloose hcall halive
  have hfirst : c.notes r (call.passed m r) base.steps = c base.steps := hkept.first
  exact ⟨by rwa [hfirst], h.tidy, h.owned,
    h.ownedThroughout.leads h.owned hattach hgive hsingle hcall halive, halive,
    by rw [hfirst]; exact h.clean⟩

/-- Where the log tells of nothing since the last step, the run is as it was at its end. -/
lemma stands (h : Charted m c clean base r) (hbetween : betweenSteps clean r = true) :
    Alike (c r.steps) r := by
  have hpath := h.kept.sound.path
  unfold betweenSteps Journal.last? at hbetween
  cases hlog : r.log.records with
  | nil =>
    rw [hlog] at hbetween hpath
    have hview := hpath.of_same
    have hsteps : r.steps = base.steps := congrArg View.steps hview
    rw [hsteps]
    exact (h.clean hbetween).trans (alike_of_view h.tidy h.kept.sound.toTidy hview)
  | cons record older =>
    rw [hlog] at hbetween hpath
    obtain rfl : record = .stepEnded := by simpa using hbetween
    generalize hv : r.view = v at hpath
    cases hpath with
    | change _ _ hrecalls =>
      obtain ⟨-, hview, -⟩ := hrecalls rfl
      rw [← hv] at hview
      exact alike_of_view (h.kept.tidy _) h.kept.sound.toTidy hview.symm

lemma giveUp (h : Charted m c clean base r) (hgive : giveUpLog r = .ok () s) :
    Charted m c (betweenSteps clean r) s s := by
  obtain ⟨t, hgive', hleft, hlog, howned, hthroughout⟩ :=
    (h.ownedThroughout.nodesOwned h.owned).giveUpLog (m := m)
  obtain rfl : s = t := by
    rw [hgive] at hgive'
    cases hgive'
    rfl
  have halike := hleft.alike
  have htidy : Tidy True s := by
    refine ⟨hthroughout.attached, hthroughout.pool, fun _ id hid n hn => ?_⟩
    rw [waiting, halike.queue, halike.content] at hid
    exact h.kept.sound.loose trivial id hid n (hleft.kept id n hn)
  refine ⟨⟨⟨htidy, ?_⟩, h.kept.tidy, rfl⟩, htidy, howned, hthroughout, ?_, fun hbetween => ?_⟩
  · rw [hlog]
    exact .start
  · rw [hleft.same]
    exact h.alive
  · rw [halike.steps]
    exact (h.stands hbetween).trans halike

lemma of_annals (hfresh : Fresh m stream start) (h : Annals m start c clean base r) :
    Charted m c clean base r := by
  induction h with
  | start => exact fresh hfresh
  | call _ hattach hgive hloose hsingle hcall halive ih =>
    exact ih.call hattach hgive hloose hsingle hcall halive
  | giveUp _ _ hgive ih => exact ih.giveUp hgive

end Charted

/-! ## Back at a step -/

/-- What the chronicle recalls of steps that were completed since the log was begun. -/
def RecallsLater (m : Machine) (c : Chronicle) (base : View) (records : List Record) (v : View) :
    Prop :=
  Recalls m c records v ∧ base.steps < v.steps

lemma Kept.later {base : View} {first : Run} (h : Kept m base first c r) :
    Sound m True (RecallsLater m c base) base r :=
  ⟨h.sound.toTidy, h.sound.path.weaken fun _ _ hlt _ hrecalls => ⟨hrecalls, hlt⟩⟩

/-- A run that has landed at a step is as it was there. -/
lemma restored_of_landed {first : Run} (h : Kept m base.view first c s) (htidy : Tidy True base)
    (hclean : clean = true → Alike first base)
    (hland : Landed m (RecallsLater m c base.view) base.view k s) : Restored c clean base k s := by
  obtain ⟨rfl, hpoint, ⟨-, hview⟩ | ⟨hrecalls, hlt⟩⟩ := hland
  · -- Everything was taken back.
    have hsteps : s.steps = base.steps := congrArg View.steps hview
    have halike := alike_of_view htidy h.sound.toTidy hview
    refine ⟨Nat.le_of_eq hsteps.symm, fun hlt => by omega, fun _ => halike, fun htrue => ?_⟩
    rw [hsteps, show c base.steps = first from h.first]
    exact (hclean htrue).trans halike
  · -- The chronicle knows of the step that ended here.
    obtain ⟨-, hagrees⟩ := agrees_of_recalls (h.tidy _) h.sound.toTidy hrecalls hpoint
    have hlt : base.steps < s.steps := hlt
    exact ⟨Nat.le_of_lt hlt, fun _ => hagrees, fun heq => by omega, fun _ => hagrees.alike⟩

namespace Charted

/-- A run that answers that it is back at a step, when something was taken back, is as it was
there. -/
lemma restored_undoTo {target : Nat} (h : Charted m c clean base r)
    (hrun : undoTo m target r = .ok (.reverted k) s) : Restored c clean base k s := by
  obtain ⟨-, t, hback, rfl⟩ := ok_of_unlessAborted hrun
  have hkept := (goBack_kept h.kept h.owned.orderly (lasts_ok hback)).events
    (.suspended (.reverted k) :: t.events)
  exact restored_of_landed hkept h.tidy h.clean
    ((undoTo_reverted hrun).landed hkept.later h.owned.orderly)

/-- So is one that answers so when the caller has acted. -/
lemma restored_parse {turns : Nat} {entry : Entry} (h : Charted m c clean base r)
    (hrun : parse m turns entry r = .ok (.reverted k) s) :
    Restored (c.notes r (passed m turns entry r)) clean base k s := by
  obtain ⟨-, t, hresume, rfl⟩ := ok_of_unlessAborted hrun
  have hkept := (resume_kept h.kept h.owned.orderly (lasts_ok hresume)).events
    (.suspended (.reverted k) :: t.events)
  exact restored_of_landed hkept h.tidy h.clean
    ((parse_reverted hrun).landed hkept.later h.owned.orderly)

/-- Any step since the log was begun can be gone back to. -/
lemma goAllBack_restores (turns : Nat) (h : Charted m c clean base r)
    (hwaits : ∀ goal, r.point ≠ .reverse goal) (hlow : base.steps ≤ k) (hhigh : k ≤ r.steps) :
    ∃ s, goAllBack m (turns + 1) r.log.length k r = .ok (.reverted k) s ∧
      Restored c clean base k s := by
  obtain ⟨s, hback, hs, hland⟩ :=
    goAllBack_lands turns h.kept.later h.owned.orderly h.alive hwaits hlow hhigh
  have hkept : Kept m base.view (c base.steps) c s :=
    ⟨⟨hs.toTidy, hs.path.weaken fun _ _ _ _ hrecalls => hrecalls.1⟩, h.kept.tidy, rfl⟩
  exact ⟨s, hback, restored_of_landed hkept h.tidy h.clean hland⟩

end Charted

/-! ## Too far back -/

section Past

variable {strict : Prop} {Noted : List Record → View → Prop} {base : View} {target : Nat}

/-- Going back further than the log reaches fails, unless the caller has to act before. -/
lemma unwind_past (h : Sound m strict Noted base r) (hbase : Orderly base)
    (hlow : target < base.steps) :
    (∃ data s, unwind m (.step target) r.log.records r = .ok (some (.reverse data)) s ∧
      Sound m strict Noted base s ∧ s.aborted = r.aborted ∧ s.point = r.point ∧
      s.log.length < r.log.length) ∨
    ∃ s, unwind m (.step target) r.log.records r =
      .error (.error (.misuse (.undoPastStart target base.steps))) s := by
  generalize hrecords : r.log.records = records
  induction records generalizing r with
  | nil =>
    have hpath := h.path
    rw [hrecords] at hpath
    have hsteps : r.steps = base.steps := congrArg View.steps hpath.of_same
    refine .inr ⟨r, ?_⟩
    have hgoal : atGoal r (.step target) = false := by
      rw [Bool.eq_false_iff, Ne, atGoal_step_iff]
      omega
    rw [unwind, get_bind, hgoal]
    simp only [Bool.false_eq_true, if_false, get_bind, goalSteps, hsteps]
    rfl
  | cons record older ih =>
    have hle : base.steps ≤ r.steps := h.path.steps_le
    have hgoal : atGoal r (.step target) = false := by
      rw [Bool.eq_false_iff, Ne, atGoal_step_iff]
      omega
    obtain ⟨s, hback, -, -, hlog, -, hcourse, hunwind⟩ :=
      unwind_latest h.backed hbase _ hrecords hgoal
    have hs := hback.sound
    rw [← hrecords, hunwind]
    have hshorter : s.log.length < r.log.length := by
      rw [Journal.length, Journal.length, hlog, hrecords, List.length_cons]
      omega
    have hrest := ih hs hlog
    have hgoes : (∃ data t, unwind m (.step target) older s = .ok (some (.reverse data)) t ∧
        Sound m strict Noted base t ∧ t.aborted = r.aborted ∧ t.point = r.point ∧
        t.log.length < r.log.length) ∨
      ∃ t, unwind m (.step target) older s =
        .error (.error (.misuse (.undoPastStart target base.steps))) t := by
      rcases hrest with ⟨data, t, hrun, ht, haborted, hpoint, hlt⟩ | hfails
      · exact .inl ⟨data, t, hrun, ht, haborted.trans hcourse.aborted,
          hpoint.trans hcourse.point, Nat.lt_trans hlt hshorter⟩
      · exact .inr hfails
    cases htaken : record.takenBack with
    | action data => exact .inl ⟨data, s, rfl, hs, hcourse.aborted, hcourse.point, hshorter⟩
    | plain => exact hgoes
    | decision alternative => exact hgoes

/-- The same of the one turn that going back takes. -/
lemma takeTurns_past (turns : Nat) (h : Sound m strict Noted base r) (hbase : Orderly base)
    (hpoint : r.point = .reverse (.step target)) (hlow : target < base.steps) :
    (∃ data s, takeTurns m (turns + 1) r = .ok (.reverse data) s ∧
      Sound m strict Noted base s ∧ s.aborted = r.aborted ∧ s.point = r.point ∧
      s.log.length < r.log.length) ∨
    ∃ s, takeTurns m (turns + 1) r =
      .error (.error (.misuse (.undoPastStart target base.steps))) s := by
  have hturn : turn m r = unwind m (.step target) r.log.records r := by
    rw [turn, get_bind]
    simp only [hpoint]
  rcases unwind_past h hbase hlow with ⟨data, s, hrun, hs⟩ | ⟨s, hrun⟩
  · rw [hrun] at hturn
    refine .inl ⟨data, s, ?_, hs⟩
    rw [takeTurns, bind_ok hturn]
    rfl
  · rw [hrun] at hturn
    exact .inr ⟨s, by rw [takeTurns, bind_error hturn]⟩

lemma unlessAborted_fatal {op : Op Status} {e : Error} (halive : r.aborted = false)
    (he : e.isFatal = true) (h : op r = .error (.error e) s) :
    ∃ t, unlessAborted op r = .error (.error e) t := by
  unfold unlessAborted
  simp only [halive, Bool.false_eq_true, if_false, h, he, if_true]
  exact ⟨_, rfl⟩

lemma goFurther_past {turns answers : Nat} {data : Bytes} (h : Sound m strict Noted base s)
    (hbase : Orderly base) (halive : s.aborted = false)
    (hpoint : s.point = .reverse (.step target)) (hlow : target < base.steps)
    (hlog : s.log.length < answers) :
    ∃ t, goFurther m (turns + 1) answers (.reverse data) s =
      .error (.error (.misuse (.undoPastStart target base.steps))) t := by
  induction answers generalizing s data with
  | zero => omega
  | succ answers ih =>
    have henter : enter m .reverse s = .ok none s := by
      rw [enter, get_bind]
      simp only [hpoint, pure_apply]
    have hresume : resume m (turns + 1) .reverse s = takeTurns m (turns + 1) s := by
      rw [resume, bind_ok henter]
    rcases takeTurns_past turns h hbase hpoint hlow with
      ⟨data', t, hturns, ht, haborted, hp, hlt⟩ | ⟨t, hturns⟩
    · rw [goFurther, parse, bind_ok (unlessAborted_ok halive (hresume.trans hturns))]
      exact ih (ht.events _) (haborted.trans halive) (hp.trans hpoint)
        (show t.log.length < answers by omega)
    · obtain ⟨u, hfails⟩ := unlessAborted_fatal halive rfl (hresume.trans hturns)
      exact ⟨u, by rw [goFurther, parse, bind_error hfails]⟩

/-- Steps before the log was begun are out of reach, and asking for them is an error. -/
lemma goAllBack_past (turns : Nat) (h : Sound m strict Noted base r) (hbase : Orderly base)
    (halive : r.aborted = false) (hwaits : ∀ goal, r.point ≠ .reverse goal)
    (hlow : target < base.steps) :
    ∃ s, goAllBack m (turns + 1) r.log.length target r =
      .error (.error (.misuse (.undoPastStart target base.steps))) s := by
  have hle : base.steps ≤ r.steps := h.path.steps_le
  have hmoves : Moves m strict Noted r { r with point := .reverse (.step target) } :=
    moves_awaited h.toTidy (.reverse (.step target)) r.rejecting
  have hback := goBack_apply (m := m) (show target ≤ r.steps by omega) hwaits
  rcases takeTurns_past 0 (h.moves hmoves) hbase rfl hlow with
    ⟨data, s, hturns, hs, haborted, hp, hlt⟩ | ⟨s, hturns⟩
  · rw [goAllBack, undoTo, bind_ok (unlessAborted_ok halive (hback.trans hturns))]
    exact goFurther_past (hs.events _) hbase (haborted.trans halive) hp hlow hlt
  · obtain ⟨u, hfails⟩ := unlessAborted_fatal halive rfl (hback.trans hturns)
    exact ⟨u, by rw [goAllBack, undoTo, bind_error hfails]⟩

end Past

/-- A run that says that it is back at a step, is there: it is as it was when the step was completed
most recently, unless that is where the log was given up in the middle of the step behind it.  Any
step since then can be gone back to, and asking for an earlier one is an error. -/
theorem annals_restored (hfresh : Fresh m stream start) (h : Annals m start c clean base r) :
    (∀ target k s, undoTo m target r = .ok (.reverted k) s → Restored c clean base k s) ∧
      (∀ turns entry k s, parse m turns entry r = .ok (.reverted k) s →
        Restored (c.notes r (passed m turns entry r)) clean base k s) ∧
      ((∀ goal, r.point ≠ .reverse goal) → ∀ turns k,
        (k < base.steps → ∃ s, goAllBack m (turns + 1) r.log.length k r =
          .error (.error (.misuse (.undoPastStart k base.steps))) s) ∧
        (base.steps ≤ k → k ≤ r.steps →
          ∃ s, goAllBack m (turns + 1) r.log.length k r = .ok (.reverted k) s ∧
            Restored c clean base k s)) := by
  have hcharted := Charted.of_annals hfresh h
  refine ⟨fun _ _ _ hrun => hcharted.restored_undoTo hrun,
    fun _ _ _ _ hrun => hcharted.restored_parse hrun,
    fun hwaits turns k => ⟨fun hlow => ?_, fun hlow hhigh => ?_⟩⟩
  · exact goAllBack_past turns hcharted.kept.sound hcharted.owned.orderly hcharted.alive hwaits hlow
  · exact hcharted.goAllBack_restores turns hwaits hlow hhigh

/-- The word is parsed, the log is given up and an action is left.  The run can be taken back to
the end of the parse, but not further. -/
theorem annals_restored_letter : ∃ c base r s, Annals letterMachine letterStart c true base r ∧
    base.steps = 3 ∧ goAllBack letterMachine 1 r.log.length 3 r = .ok (.reverted 3) s ∧
    Alike (c 3) s ∧ ∃ t, goAllBack letterMachine 1 r.log.length 2 r =
      .error (.error (.misuse (.undoPastStart 2 base.steps))) t := by
  have h : (match parse letterMachine 20 .start letterStart with
      | .ok .done r => some (betweenSteps true r, r.steps, r.point, r.aborted)
      | _ => none) = some (true, 3, .done, false) := by decide +kernel
  split at h
  · rename_i r hparse
    simp only [Option.some.injEq, Prod.mk.injEq] at h
    obtain ⟨hbetween, hsteps, hpoint, halive⟩ := h
    have hfresh : Fresh letterMachine (Stream.ofBytes [97]) letterStart := ⟨rfl, 8, 8, none, rfl⟩
    have hwaits : ∀ goal, r.point ≠ .reverse goal := by
      rw [hpoint]
      exact nofun
    obtain ⟨c, hparsed⟩ : ∃ c, Annals letterMachine letterStart c true letterStart r :=
      ⟨_, @Annals.call _ _ _ _ _ _ _ (.parse 20 .start) .start nofun nofun trivial trivial
        (.inl ⟨_, hparse⟩) halive⟩
    have hcharted := Charted.of_annals hfresh hparsed
    obtain ⟨s, hgive, hleft, -⟩ :=
      (hcharted.ownedThroughout.nodesOwned hcharted.owned).giveUpLog (m := letterMachine)
    have hgiven : Annals letterMachine letterStart c true s s := by
      have hgiven := Annals.giveUp hparsed hwaits hgive
      rwa [hbetween] at hgiven
    have hacted : Annals letterMachine letterStart c true s
        { s with log := s.log.append (.action [7]) } :=
      @Annals.call _ _ _ _ _ _ _ (.leaveData [7]) hgiven nofun nofun trivial trivial
        (.inl ⟨(), rfl⟩) (by rw [hleft.same]; exact halive)
    have hthree : s.steps = 3 := hleft.alike.steps.trans hsteps
    have hrests : ∀ goal, s.point ≠ .reverse goal := by
      rw [hleft.same]
      exact hwaits
    obtain ⟨-, -, hback⟩ := annals_restored hfresh hacted
    obtain ⟨u, hrun, hrestored⟩ := (hback hrests 0 3).2 (Nat.le_of_eq hthree)
      (Nat.le_of_eq hthree.symm)
    obtain ⟨t, hfails⟩ := (hback hrests 0 2).1 (by omega)
    exact ⟨_, s, _, u, hacted, hthree, hrun, hrestored.clean rfl, t, hfails⟩
  · cases h

/-- The machine for a letter, whose caller acts on the word. -/
def actingMachine : Machine :=
  { letterMachine with grammar := { letterMachine.grammar with productions := #[⟨2, 1, true⟩] } }

/-- The log is given up while the caller acts on the word, in the middle of the first step.  Then
the run says that it is back at its start, but the word is still in the queue. -/
theorem undoTo_astray : ∃ c clean base r s, Annals actingMachine letterStart c clean base r ∧
    c 0 = letterStart ∧ undoTo actingMachine 0 r = .ok (.reverted 0) s ∧
    s.queue ≠ (c 0).queue := by
  have h : (match parse actingMachine 20 .start letterStart with
      | .ok (.reduction _ _ _) r => match giveUpLog r with
        | .ok () s => match undoTo actingMachine 0 s with
          | .ok (.reverted 0) t => some (r.point, r.aborted, t.queue)
          | _ => none
        | _ => none
      | _ => none) = some (.reduction 0 false, false, [1]) := by decide +kernel
  split at h
  · rename_i production tree children r hparse
    split at h
    · rename_i s hgive
      split at h
      · rename_i t hundo
        simp only [Option.some.injEq, Prod.mk.injEq] at h
        obtain ⟨hpoint, halive, hqueue⟩ := h
        have hfresh : Fresh actingMachine (Stream.ofBytes [97]) letterStart :=
          ⟨rfl, 8, 8, none, rfl⟩
        have hwaits : ∀ goal, r.point ≠ .reverse goal := by
          rw [hpoint]
          exact nofun
        have hcall : (Call.parse 20 .start).Leads actingMachine letterStart r := .inl ⟨_, hparse⟩
        have hattach : ∀ stream, Call.parse 20 .start ≠ .attach stream := nofun
        have hkeep : Call.parse 20 .start ≠ .giveUpLog := nofun
        have hparsed := Annals.call .start hattach hkeep trivial trivial hcall halive
        have hfirst := (call_kept (Charted.fresh hfresh).kept hfresh.orderly hattach hkeep trivial
          hcall halive).first
        refine ⟨_, _, s, s, t, .giveUp hparsed hwaits hgive, hfirst, hundo, ?_⟩
        rw [hqueue, show Chronicle.notes _ _ _ 0 = letterStart from hfirst]
        nofun
      · cases h
    · cases h
  · cases h

end Rewind.Run
