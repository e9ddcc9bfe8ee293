import Rewind.Proofs.Calls

/-!
# Histories

A `History` is what callers did with a run since a stream was attached to it.  It goes with a
`Chronicle`, which remembers for each number of steps the moment when the last of them was completed
most recently.  A parse completes any number of steps in one call, so its moments are the runs that
its turns pass through.
-/

namespace Rewind.Run

open Attempt Op

/-! ## Moments -/

/-- For each number of steps, the run at the moment when the last of them was completed. -/
abbrev Chronicle := Nat → Run

namespace Chronicle

/-- The chronicle after a move: if a step was completed, then this is its moment now. -/
def note (c : Chronicle) (before after : Run) : Chronicle :=
  if before.steps < after.steps then Function.update c after.steps after else c

/-- The chronicle after moves that pass through runs. -/
def notes (c : Chronicle) : Run → List Run → Chronicle
  | _, [] => c
  | before, after :: later => notes (c.note before after) after later

end Chronicle

/-- The runs that turns pass through.  A turn that fails leads nowhere. -/
def turnsTaken (m : Machine) : (turns : Nat) → Run → List Run
  | 0, _ => []
  | turns + 1, r =>
    match turn m r with
    | .ok none s => s :: turnsTaken m turns s
    | .ok (some _) s => [s]
    | .error _ _ => []

/-- The runs that a parse passes through. -/
def passed (m : Machine) (turns : Nat) (entry : Entry) (r : Run) : List Run :=
  match enter m entry r with
  | .ok none s => s :: turnsTaken m turns s
  | .ok (some _) s => [s]
  | .error _ _ => []

/-- The runs that a call passes through, if it goes forward. -/
def Call.passed (m : Machine) (r : Run) : Call → List Run
  | parse turns entry => Run.passed m turns entry r
  | _ => []

/-- What was done with a run since the start, without a fatal error, and the moments of its
steps. -/
inductive History (m : Machine) (start : Run) : Chronicle → Run → Prop
  | start : History m start (fun _ => start) start
  | call {c : Chronicle} {r s : Run} {call : Call} :
    History m start c r → (∀ stream, call ≠ .attach stream) → call ≠ .giveUpLog → call.IsLoose →
    call.Leads m r s → s.aborted = false → History m start (c.notes r (call.passed m r)) s

/-! ## What a chronicle keeps -/

/-- The chronicle remembers a log and a view of the moment at which a step was completed. -/
def Recalls (m : Machine) (c : Chronicle) (records : List Record) (v : View) : Prop :=
  (c v.steps).log.records = records ∧ (c v.steps).view = v ∧ (c v.steps).point = settled m v

/-- The chronicle agrees with the log of the run, and remembers the moment before all that the log
tells of. -/
structure Kept (m : Machine) (base : View) (first : Run) (c : Chronicle) (r : Run) : Prop where
  sound : Sound m True (Recalls m c) base r
  tidy : ∀ k, Tidy True (c k)
  first : c base.steps = first

variable {m : Machine} {base : View} {first start r s : Run} {c : Chronicle} {a : Option Status}

/-- A new moment takes no other's place: those on the path of a run have fewer steps. -/
lemma sound_note (h : Sound m True (Recalls m c) base r) (s : Run) :
    Sound m True (Recalls m (c.note r s)) base r := by
  refine ⟨h.toTidy, h.path.weaken fun records w _ hle hrecalls => ?_⟩
  have hsame : c.note r s w.steps = c w.steps := by
    unfold Chronicle.note
    split
    · rename_i hlt
      exact Function.update_of_ne (Nat.ne_of_lt (Nat.lt_of_le_of_lt hle hlt)) _ _
    · rfl
  rw [Recalls, hsame]
  exact hrecalls

/-- A move that is noted where it completes a step. -/
lemma Kept.note (h : Kept m base first c r)
    (hs : Sound m True (Recalls m (c.note r s)) base s) :
    Kept m base first (c.note r s) s := by
  have hle : base.steps ≤ r.steps := h.sound.path.steps_le
  refine ⟨hs, fun k => ?_, ?_⟩
  · unfold Chronicle.note
    split
    · by_cases hk : k = s.steps
      · subst hk
        rw [Function.update_self]
        exact hs.toTidy
      · rw [Function.update_of_ne hk]
        exact h.tidy k
    · exact h.tidy k
  · unfold Chronicle.note
    split
    · rename_i hlt
      rw [Function.update_of_ne (by omega)]
      exact h.first
    · exact h.first

/-- The moment of the step that a move completed is the run that it left. -/
lemma recalls_note (hsteps : s.steps = r.steps + 1) (hpoint : s.point = settled m s.view) :
    Recalls m (c.note r s) s.log.records s.view := by
  have hnote : c.note r s s.view.steps = s := by
    rw [Chronicle.note, if_pos (by omega)]
    exact Function.update_self ..
  rw [Recalls, hnote]
  exact ⟨rfl, rfl, hpoint⟩

/-- Moves that complete no step are not noted. -/
lemma Kept.moves (h : Kept m base first c r) (hmoves : Moves m True (Recalls m c) r s) :
    Kept m base first c s :=
  ⟨h.sound.moves hmoves, h.tidy, h.first⟩

/-! ## Parsing -/

lemma turn_kept (h : Kept m base first c r) (hbase : Orderly base)
    (hturn : turn m r = .ok a s) : Kept m base first (c.note r s) s := by
  obtain ⟨hs, -, -⟩ := turn_sound (sound_note h.sound s) hbase hturn recalls_note
  exact h.note hs

lemma turn_kept_error {e : Error} (h : Kept m base first c r) (hbase : Orderly base)
    (he : e.isFatal = false) (hturn : turn m r = .error (.error e) s) : Kept m base first c s :=
  ⟨turn_sound_error h.sound hbase he hturn, h.tidy, h.first⟩

lemma takeTurns_kept {turns : Nat} (h : Kept m base first c r) (hbase : Orderly base)
    (hlasts : Lasts (takeTurns m turns) r s) :
    Kept m base first (c.notes r (turnsTaken m turns r)) s := by
  induction turns generalizing r c with
  | zero => rcases hlasts with ⟨status, h⟩ | ⟨e, -, h⟩ <;> cases h
  | succ turns ih =>
    -- The first turn is noted, and the others follow from where it led.
    rw [takeTurns] at hlasts
    rcases lasts_bind hlasts with ⟨e, he, hturn⟩ | ⟨a, t, hturn, hrest⟩
    · rw [turnsTaken, hturn]
      exact turn_kept_error h hbase he hturn
    · have hkept := turn_kept h hbase hturn
      rw [turnsTaken, hturn]
      cases a with
      | some status =>
        rcases hrest with ⟨status', hrun⟩ | ⟨e, -, hrun⟩ <;> cases hrun
        exact hkept
      | none => exact ih hkept hrest

lemma enter_kept {entry : Entry} (h : Kept m base first c r) (hbase : Orderly base)
    (henter : enter m entry r = .ok a s) : Kept m base first (c.note r s) s := by
  have hsound := sound_note h.sound s
  obtain ⟨hmoves, -⟩ := moves_enters hsound.toTidy (hsound.orderly hbase) (enter_ok henter)
    recalls_note
  exact h.note (hsound.moves hmoves)

lemma resume_kept {turns : Nat} {entry : Entry} (h : Kept m base first c r)
    (hbase : Orderly base) (hlasts : Lasts (resume m turns entry) r s) :
    Kept m base first (c.notes r (passed m turns entry r)) s := by
  rw [resume] at hlasts
  rcases lasts_bind hlasts with ⟨e, he, henter⟩ | ⟨a, t, henter, hrest⟩
  · rw [passed, henter]
    exact h.moves (moves_enter_error h.sound.toTidy he henter)
  · have hkept := enter_kept h hbase henter
    rw [passed, henter]
    cases a with
    | some status =>
      rcases hrest with ⟨status', hrun⟩ | ⟨e, -, hrun⟩ <;> cases hrun
      exact hkept
    | none => exact takeTurns_kept hkept hbase hrest

/-- Events are nothing that is kept. -/
lemma Kept.events (h : Kept m base first c r) (events : List Event) :
    Kept m base first c { r with events } :=
  h.moves (moves_settings h.sound.toTidy r.target r.stopping r.rejecting events)

/-! ## Calls -/

lemma goBack_apply {target : Nat} (hsteps : target ≤ r.steps)
    (hpoint : ∀ goal, r.point ≠ .reverse goal) :
    goBack m target r = takeTurns m 1 { r with point := .reverse (.step target) } := by
  rw [goBack, get_bind, if_neg (Nat.not_lt.2 hsteps)]
  cases hwaits : r.point with
  | reverse goal => exact absurd hwaits (hpoint goal)
  | _ => rfl

/-- Going back is refused to steps that lie ahead, and to a run that is going back already. -/
lemma lasts_goBack {target : Nat} (h : Lasts (goBack m target) r s) :
    target ≤ r.steps ∧ (∀ goal, r.point ≠ .reverse goal) ∧
      Lasts (takeTurns m 1) { r with point := .reverse (.step target) } s := by
  have hfatal {e : Misuse} : ¬Lasts (fail (.misuse e) : Op Status) r s := by
    rintro (⟨a, h⟩ | ⟨e', he', h⟩)
    · cases h
    · cases h
      cases he'
  by_cases hsteps : r.steps < target
  · rw [Lasts, goBack, get_bind, if_pos hsteps] at h
    exact absurd h hfatal
  have hle := Nat.le_of_not_lt hsteps
  cases hwaits : r.point with
  | reverse goal =>
    rw [Lasts, goBack, get_bind, if_neg hsteps] at h
    simp only [hwaits] at h
    exact absurd h hfatal
  | _ =>
    have hpoint : ∀ goal, r.point ≠ .reverse goal := fun goal hgoal => by
      rw [hwaits] at hgoal
      cases hgoal
    rw [Lasts, goBack_apply hle hpoint] at h
    exact ⟨hle, nofun, h⟩

/-- Taking back completes no step. -/
lemma unwind_kept {goal : Goal} (h : Kept m base first c r) (hbase : Orderly base)
    (hlasts : Lasts (unwind m goal r.log.records) r s) : Kept m base first c s := by
  rcases unwind_sound h.sound hbase with ⟨b, t, hunwind, ht, hback⟩ | ⟨misuse, t, hunwind, -⟩
  · rcases hlasts with ⟨a, hrun⟩ | ⟨e, he, hrun⟩
    · obtain ⟨-, rfl⟩ := EStateM.Result.ok.inj (hrun.symm.trans hunwind)
      exact ⟨ht, h.tidy, h.first⟩
    · rw [hunwind] at hrun
      cases hrun
  · rcases hlasts with ⟨a, hrun⟩ | ⟨e, he, hrun⟩
    · rw [hunwind] at hrun
      cases hrun
    · rw [hunwind] at hrun
      cases hrun
      cases he

lemma goBack_kept {target : Nat} (h : Kept m base first c r) (hbase : Orderly base)
    (hlasts : Lasts (goBack m target) r s) : Kept m base first c s := by
  obtain ⟨-, -, hturns⟩ := lasts_goBack hlasts
  have haimed : Kept m base first c { r with point := .reverse (.step target) } :=
    h.moves (moves_awaited h.sound.toTidy (.reverse (.step target)) r.rejecting)
  rw [takeTurns] at hturns
  rcases lasts_bind hturns with ⟨e, he, hturn⟩ | ⟨a, t, hturn, hrest⟩
  · exact unwind_kept haimed hbase (.inr ⟨e, he, hturn⟩)
  · have ht := unwind_kept haimed hbase (lasts_ok hturn)
    cases a with
    | some status =>
      rcases hrest with ⟨status', hrun⟩ | ⟨e, -, hrun⟩ <;> cases hrun
      exact ht
    | none => rcases hrest with ⟨status, hrun⟩ | ⟨e, -, hrun⟩ <;> cases hrun

/-- What callers do keeps chronicle and log in agreement, as long as the run is not over. -/
lemma call_kept {call : Call} (h : Kept m base first c r) (hbase : Orderly base)
    (hattach : ∀ stream, call ≠ .attach stream) (hgive : call ≠ .giveUpLog)
    (hloose : call.IsLoose) (hcall : call.Leads m r s) (halive : s.aborted = false) :
    Kept m base first (c.notes r (call.passed m r)) s := by
  by_cases haside : call.IsAside
  · obtain ⟨hmoves, -⟩ := moves_call h.sound.toTidy (h.sound.orderly hbase) haside
      (fun _ => hloose) hcall
    have hpassed : call.passed m r = [] := by
      cases call with
      | parse turns entry => exact haside.elim
      | _ => rfl
    rw [hpassed]
    exact h.moves hmoves
  cases call with
  | attach stream => exact absurd rfl (hattach stream)
  | giveUpLog => exact absurd rfl hgive
  | parse turns entry =>
    obtain ⟨-, t, events, hlasts, rfl⟩ := lasts_of_unlessAborted hcall halive
    exact (resume_kept h hbase hlasts).events events
  | undoTo target =>
    obtain ⟨-, t, events, hlasts, rfl⟩ := lasts_of_unlessAborted hcall halive
    exact (goBack_kept h hbase hlasts).events events
  | _ => exact absurd trivial haside

/-- Along any history, chronicle and log agree. -/
theorem history_kept (hstart : Orderly start.view) (htidy : Tidy True start)
    (hlog : start.log = Journal.empty) (h : History m start c r) :
    Kept m start.view start c r := by
  induction h with
  | start =>
    refine ⟨⟨htidy, ?_⟩, fun _ => htidy, rfl⟩
    rw [hlog]
    exact .start
  | call _ hattach hgive hloose hcall halive ih =>
    exact call_kept ih hstart hattach hgive hloose hcall halive

/-! ## A small machine -/

/-- A machine for the text of a single letter.  It shifts the letter first, which leads nowhere, and
turns back to make a word of it. -/
def letterMachine : Machine where
  grammar := {
    transitions := #[0, 1, 2]
    owners := #[0, 0, 2]
    bounds := #[1, 2, 1, 0, 0, 0, 1, 0]
    offsets := #[0, 0, 2, 0]
    targets := #[1, 2, 3]
    codeStarts := #[0, 3, 5]
    codes := #[1, 3, 0, 1, 0, 1, 0]
    commits := #[0, 0, 0]
    regionStarts := #[0, 0, 0, 0]
    regions := #[1, 0]
    elements := #[⟨"end", false, false⟩, ⟨"letter", false, false⟩, ⟨"word", false, false⟩]
    productions := #[⟨2, 1, false⟩]
    endActions := #[false, false]
    states := 4
    start := 0
    firstNonterminal := 2
    eof := 0 }
  scanner := {
    lists := #[0, 1, 0]
    keyOffsets := #[0, 0, 1]
    keys := #[97]
    singles := #[0, 1, 0]
    ranges := #[0, 0, 0]
    transitions := #[0, 0, 1]
    targets := #[2, 0, 0]
    onTransition := #[0, 0, 0]
    onArrival := #[0, 0, 1]
    onDeparture := #[0, 0, 0]
    onEnd := #[0, 0, 0]
    entries := #[1, 1]
    actions := #[.candidate 1]
    states := 3
    start := 1
    firstFinal := 2
    dead := 0 }

/-- The run of the machine for a letter, in front of its letter. -/
def letterStart : Run :=
  { initial letterMachine (Pool.empty 8 8) none with
    scanner := { Scanner.detached with stream := some (Stream.ofBytes [97]) } }

lemma parse_letter :
    ∃ s, parse letterMachine 20 .start letterStart = .ok .done s ∧ s.steps = 3 ∧
      s.point = .done ∧ s.aborted = false ∧
      ∃ top n, s.stack = some top ∧ Pool.get? s.forest top = some n ∧
        n.element = letterMachine.grammar.eof ∧ n.text = [] := by
  have h : (match parse letterMachine 20 .start letterStart with
      | .ok .done s => some ((s.steps, s.point, s.aborted),
        (s.stack.bind (Pool.get? s.forest)).map fun n => (n.element, n.text))
      | _ => none) = some ((3, .done, false), some (0, [])) := by decide +kernel
  split at h
  · rename_i s hparse
    simp only [Option.some.injEq, Prod.mk.injEq] at h
    obtain ⟨⟨hsteps, hpoint, halive⟩, htop⟩ := h
    obtain ⟨n, hn, hfields⟩ := Option.map_eq_some_iff.1 htop
    obtain ⟨top, hstack, hget⟩ := Option.bind_eq_some_iff.1 hn
    obtain ⟨heof, hempty⟩ := Prod.mk.inj hfields
    exact ⟨s, hparse, hsteps, hpoint, halive, top, n, hstack, hget, heof, hempty⟩
  · cases h

end Rewind.Run
