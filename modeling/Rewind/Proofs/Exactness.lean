import Rewind.Proofs.History

/-!
# Undoing is exact

Whatever was done with a run, going back to a step that it completed restores the moment when that
step was completed most recently: the stack, the lookahead, what was set aside, every node in its
slot, the bindings, the log, the counters and the rest of the stream.  The caller takes part by
taking back its own actions as they are given back to it.
-/

namespace Rewind.Run

open Attempt Op

/-! ## Going back all the way -/

/-- Answers every action that is given back by going back further. -/
def goFurther (m : Machine) (turns : Nat) : (answers : Nat) → Status → Op Status
  | answers + 1, .reverse _ => do goFurther m turns answers (← parse m turns .reverse)
  | _, status => return status

/-- Goes back to a step, however often the caller has to act on the way. -/
def goAllBack (m : Machine) (turns answers target : Nat) : Op Status := do
  goFurther m turns answers (← undoTo m target)

/-- Two moments of a run that cannot be told apart by what the run holds. -/
structure Agrees (r s : Run) : Prop where
  state : s.state = r.state
  steps : s.steps = r.steps
  stack : s.stack = r.stack
  queue : s.queue = r.queue
  aside : s.aside = r.aside
  nodes : ∀ id, Pool.get? s.forest id = Pool.get? r.forest id
  bindings : s.bindings = r.bindings
  log : s.log = r.log
  barrier : s.barrier = r.barrier
  retries : s.retries = r.retries
  endActionRan : s.endActionRan = r.endActionRan
  live : Pool.live s.forest = Pool.live r.forest
  position : s.scanner.position? = r.scanner.position?
  content : s.content = r.content
  point : s.point = r.point

/-- A run that was given a stream of bytes, and has done nothing yet. -/
structure Fresh (m : Machine) (stream : Stream) (r : Run) : Prop where
  bytes : trees stream.content = []
  attached : ∃ blockLength blockLimit target,
    attach stream (initial m (Pool.empty blockLength blockLimit) target) = .ok () r

variable {m : Machine} {strict : Prop} {Noted : List Record → View → Prop} {base : View}
  {stream : Stream} {start r s : Run} {c : Chronicle} {target : Nat}

/-! ## A fresh run -/

namespace Fresh

lemma eq (h : Fresh m stream r) : ∃ blockLength blockLimit target,
    r = { initial m (Pool.empty blockLength blockLimit) target with
      scanner := { Scanner.detached with stream := some stream } } := by
  obtain ⟨blockLength, blockLimit, target, hattach⟩ := h.attached
  cases hattach
  exact ⟨blockLength, blockLimit, target, rfl⟩

lemma waiting (h : Fresh m stream r) : r.waiting = [] := by
  have hbytes := h.bytes
  obtain ⟨blockLength, blockLimit, target, rfl⟩ := h.eq
  exact hbytes

lemma tidy (h : Fresh m stream r) : Tidy strict r := by
  have hwaiting := h.waiting
  obtain ⟨blockLength, blockLimit, target, rfl⟩ := h.eq
  refine ⟨rfl, Pool.sound_empty .., fun _ id hid => ?_⟩
  rw [hwaiting] at hid
  cases hid

lemma vacant (h : Fresh m stream r) (id : NodeId) : r.view.nodes id = none := by
  have hnone : Pool.get? r.forest id = none := by
    obtain ⟨blockLength, blockLimit, target, rfl⟩ := h.eq
    simp [initial, Pool.get?, Pool.empty]
  rw [← Option.isNone_iff_eq_none, ← Option.not_isSome, show r.view.nodes id = r.shown id from rfl,
    isSome_shown, hnone]
  rfl

lemma orderly (h : Fresh m stream r) : Orderly r.view := by
  have hwaiting : r.view.waiting = [] := h.waiting
  refine ⟨⟨[], ?_, ?_⟩, ?_⟩
  · obtain ⟨blockLength, blockLimit, target, rfl⟩ := h.eq
    exact .nil _
  · rw [hwaiting]
    exact List.nodup_nil
  · rw [hwaiting]
    exact fun _ hid => nomatch hid

end Fresh

/-! ## Reaching the step -/

lemma Landed.events (h : Landed m Noted base target s) (events : List Event) :
    Landed m Noted base target { s with events } :=
  ⟨h.steps, h.point, h.noted⟩

lemma Sound.events (h : Sound m strict Noted base r) (events : List Event) :
    Sound m strict Noted base { r with events } :=
  ⟨⟨h.attached, h.pool, h.loose⟩, h.path⟩

lemma unlessAborted_ok {op : Op Status} {status : Status} (halive : r.aborted = false)
    (h : op r = .ok status s) :
    unlessAborted op r = .ok status { s with events := .suspended status :: s.events } := by
  unfold unlessAborted
  simp only [halive, Bool.false_eq_true, if_false, h]

lemma goFurther_reverted (m : Machine) (turns answers target : Nat) (s : Run) :
    goFurther m turns answers (.reverted target) s = .ok (.reverted target) s := by
  cases answers <;> rfl

/-- Each answer shortens the log, so the step is reached after as many answers as there are
records. -/
lemma goFurther_lands {turns answers : Nat} {data : Bytes} (h : Sound m strict Noted base s)
    (hbase : Orderly base) (halive : s.aborted = false)
    (hpoint : s.point = .reverse (.step target)) (hlow : base.steps ≤ target)
    (hhigh : target ≤ s.steps) (hlog : s.log.length < answers) :
    ∃ t, goFurther m (turns + 1) answers (.reverse data) s = .ok (.reverted target) t ∧
      Sound m strict Noted base t ∧ Landed m Noted base target t := by
  induction answers generalizing s data with
  | zero => omega
  | succ answers ih =>
    obtain ⟨status, t, hturns, ht, haborted, hretreats⟩ :=
      takeTurns_back turns h hbase hpoint hlow hhigh
    have henter : enter m .reverse s = .ok none s := by
      rw [enter, get_bind]
      simp only [hpoint, pure_apply]
    have hresume : resume m (turns + 1) .reverse s = .ok status t := by
      rw [resume, bind_ok henter]
      exact hturns
    rw [goFurther, parse, bind_ok (unlessAborted_ok halive hresume)]
    cases hretreats with
    | landed hland _ =>
      exact ⟨_, goFurther_reverted .., ht.events _, hland.events _⟩
    | waiting hle hp hlt =>
      exact ih (ht.events _) (haborted.trans halive) (hp.trans hpoint) hle
        (show t.log.length < answers by omega)

lemma goAllBack_lands (turns : Nat) (h : Sound m strict Noted base r) (hbase : Orderly base)
    (halive : r.aborted = false) (hwaits : ∀ goal, r.point ≠ .reverse goal)
    (hlow : base.steps ≤ target) (hhigh : target ≤ r.steps) :
    ∃ s, goAllBack m (turns + 1) r.log.length target r = .ok (.reverted target) s ∧
      Sound m strict Noted base s ∧ Landed m Noted base target s := by
  have hmoves : Moves m strict Noted r { r with point := .reverse (.step target) } :=
    moves_awaited h.toTidy (.reverse (.step target)) r.rejecting
  obtain ⟨status, t, hturns, ht, haborted, hretreats⟩ :=
    takeTurns_back 0 (h.moves hmoves) hbase rfl hlow hhigh
  rw [← goBack_apply hhigh hwaits] at hturns
  rw [goAllBack, undoTo, bind_ok (unlessAborted_ok halive hturns)]
  cases hretreats with
  | landed hland _ =>
    exact ⟨_, goFurther_reverted .., ht.events _, hland.events _⟩
  | waiting hle hp hlt =>
    exact goFurther_lands (ht.events _) hbase (haborted.trans halive) hp hlow hle hlt

/-! ## What is reached -/

/-- Runs of one view hold the same, if what waits is loose in both. -/
lemma agrees_of_view (hr : Tidy True r) (hs : Tidy True s) (hview : s.view = r.view)
    (hlog : s.log = r.log) (hpoint : s.point = r.point) : Agrees r s := by
  obtain ⟨hstate, hsteps, hstack, hqueue, haside, hshown, hbindings, hbarrier, hretries, hended,
    hcontent, hposition⟩ := View.ext_iff.1 hview
  have hnodes : Pool.get? s.forest = Pool.get? r.forest := by
    rw [← hs.shown_eq, ← hr.shown_eq]
    exact hshown
  have hpos : s.scanner.position? = r.scanner.position? := by
    obtain ⟨stream, hstream⟩ := hr.stream
    obtain ⟨stream', hstream'⟩ := hs.stream
    have hp : s.position = r.position := hposition
    rw [position, position] at hp
    simpa [Scanner.position?, hstream, hstream'] using hp
  exact ⟨hstate, hsteps, hstack, hqueue, haside, congrFun hnodes, hbindings, hlog, hbarrier,
    hretries, hended, Pool.live_congr hnodes, hpos, hcontent, hpoint⟩

/-- Where the chronicle recalls the log and the view of a run, the run is as it was. -/
lemma agrees_of_recalls (hc : Tidy True (c s.steps)) (hs : Tidy True s)
    (hrecalls : Recalls m c s.log.records s.view) (hpoint : s.point = settled m s.view) :
    (c s.steps).steps = s.steps ∧ Agrees (c s.steps) s := by
  obtain ⟨hlog, hview, hsettled⟩ := hrecalls
  exact ⟨congrArg View.steps hview, agrees_of_view hc hs hview.symm
    (congrArg Journal.mk hlog.symm) (hpoint.trans hsettled.symm)⟩

/-- Where a run lands, it agrees with the chronicle. -/
lemma agrees_of_landed (hfresh : Fresh m stream start) (hs : Kept m start.view start c s)
    (hland : Landed m (Recalls m c) start.view target s) :
    (c target).steps = target ∧ Agrees (c target) s := by
  rcases hland.noted with ⟨hlog, hview⟩ | hrecalls
  · have htarget : start.view.steps = target := by
      rw [← hview]
      exact hland.steps
    have hfirst : c target = start := by
      rw [← htarget]
      exact hs.first
    obtain ⟨blockLength, blockLimit, pause, rfl⟩ := hfresh.eq
    rw [hfirst]
    refine ⟨htarget, agrees_of_view hfresh.tidy hs.sound.toTidy hview
      (congrArg Journal.mk hlog) ?_⟩
    rw [hland.point, hview]
    rfl
  · have hagrees := agrees_of_recalls (hs.tidy _) hs.sound.toTidy hrecalls hland.point
    rwa [hland.steps] at hagrees

/-- Going back to a step restores the moment when the step was completed most recently. -/
theorem undoTo_restores (turns : Nat) (hfresh : Fresh m stream start) (h : History m start c r)
    (hwaits : ∀ goal, r.point ≠ .reverse goal) (hsteps : target ≤ r.steps) :
    ∃ s, goAllBack m (turns + 1) r.log.length target r = .ok (.reverted target) s ∧
      (c target).steps = target ∧ Agrees (c target) s := by
  obtain ⟨hlog, hzero, halive⟩ :
      start.log = Journal.empty ∧ start.steps = 0 ∧ start.aborted = false := by
    obtain ⟨blockLength, blockLimit, pause, rfl⟩ := hfresh.eq
    exact ⟨rfl, rfl, rfl⟩
  have hkept := history_kept hfresh.orderly hfresh.tidy hlog h
  have hr : r.aborted = false := by
    cases h with
    | start => exact halive
    | call _ _ _ _ _ halive => exact halive
  obtain ⟨s, hback, hs, hland⟩ := goAllBack_lands turns hkept.sound hfresh.orderly hr
    hwaits (by rw [show start.view.steps = 0 from hzero]; exact Nat.zero_le _) hsteps
  exact ⟨s, hback, agrees_of_landed hfresh ⟨hs, hkept.tidy, hkept.first⟩ hland⟩

/-- The word is parsed, an action is left, and the run goes back to the end of its first step. -/
theorem undoTo_restores_letter : ∃ r c s, History letterMachine letterStart c r ∧ r.steps = 3 ∧
    goAllBack letterMachine 1 r.log.length 1 r = .ok (.reverted 1) s ∧ (c 1).steps = 1 ∧
    Agrees (c 1) s := by
  obtain ⟨r, hparse, hsteps, hpoint, halive, -⟩ := parse_letter
  have hfresh : Fresh letterMachine (Stream.ofBytes [97]) letterStart :=
    ⟨rfl, 8, 8, none, rfl⟩
  have hparsed : History letterMachine letterStart _ r :=
    @History.call _ _ _ _ _ (.parse 20 .start) .start nofun nofun trivial (.inl ⟨_, hparse⟩) halive
  have hleft : History letterMachine letterStart _ { r with log := r.log.append (.action [7]) } :=
    @History.call _ _ _ _ _ (.leaveData [7]) hparsed nofun nofun trivial (.inl ⟨(), rfl⟩) halive
  have hwaits : ∀ goal, r.point ≠ .reverse goal := by
    rw [hpoint]
    exact nofun
  have hpast : 1 ≤ r.steps := by omega
  obtain ⟨s, hback, hone, hagrees⟩ := undoTo_restores 0 hfresh hleft hwaits hpast
  exact ⟨_, _, s, hleft, hsteps, hback, hone, hagrees⟩

end Rewind.Run
