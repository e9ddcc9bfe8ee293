import Rewind.Proofs.Chunking
import Rewind.Proofs.Playing

/-!
# Padding

Units that are ignored wherever they are met are padding.  A parse whose driver does nothing but
resume what waits, and rejects reductions by their production and the elements of their children,
cannot be told from the parse of the same input with padding anywhere in it: the same is decided,
the same is told, and both end in the same way (`padding_unseen`).
-/

namespace Rewind.Run

open Attempt Op

/-! ## A driver that sees elements only -/

/-- The elements of nodes. -/
def elementsOf (f : Forest) (ids : List NodeId) : Except Fault (List ElementId) :=
  ids.mapM fun id => do return (← f.read id).element

/-- Rejects the reduction that waits if it is one to be rejected. -/
def weigh (rejects : ProductionId → List ElementId → Bool) (production : ProductionId)
    (children : List NodeId) : Op Unit := do
  let elements ← lookup (elementsOf (← get).forest children)
  if rejects production elements then rejectNow

/-- Answers to a status, and goes on from there if there is something to go on from. -/
def heed (rejects : ProductionId → List ElementId → Bool) (next : Entry → Op Status) :
    Status → Op Status
  | .reduction production _ children => do
    weigh rejects production children
    next .reduction
  | .generation _ _ _ => next .generation
  | .preEof _ => next .preEof
  | status => return status

/-- Parses on, however often there is something to act on, and weighs what was reduced. -/
def pursue (m : Machine) (rejects : ProductionId → List ElementId → Bool) (turns : Nat) :
    (calls : Nat) → Entry → Op Status
  | 0, _ => lookup (.error .unfinished)
  | calls + 1, entry => do heed rejects (pursue m rejects turns calls) (← parse m turns entry)

/-- How a call ended. -/
def Result.ending : Result Status → Ending
  | .ok status _ => .ok status
  | .error e _ => .error e

/-- What is seen of a run that a call led to, and how the call ended. -/
def Result.tale (x : Result Status) : Tale where
  events := seen x.left
  ending := x.ending.kind

variable {m : Machine} {reads : Alphabet} {rejects : ProductionId → List ElementId → Bool}
  {ground : Ground} {γ : Gist} {left : List Fork} {π : Plot} {r s : Run} {x : Result Status}
  {y : Result (Option Status)} {status : Status} {turns calls t : Nat} {before : List Event}

lemma elementsOf_eq {f : Forest} {ids : List NodeId} {elements : List ElementId}
    (h : ids.map (fun id => (Pool.get? f id).map Node.element) = elements.map some) :
    elementsOf f ids = .ok elements := by
  induction ids generalizing elements with
  | nil =>
    obtain rfl := List.map_eq_nil_iff.1 h.symm
    rfl
  | cons id ids ih =>
    rw [List.map_cons] at h
    obtain ⟨element, others, rfl, hfirst, hothers⟩ := List.map_eq_cons_iff.1 h.symm
    obtain ⟨n, hn, rfl⟩ := Option.map_eq_some_iff.1 hfirst.symm
    rw [elementsOf, List.mapM_cons, read_eq_ok.2 hn]
    have hrest := ih hothers.symm
    rw [elementsOf] at hrest
    rw [hrest]
    rfl

/-! ## Entering -/

lemma Attends.rests {status : Status} (h : Attends m reads ground status r π) :
    Rests m reads ground r π.gist π.left := by
  cases h with
  | reduction hrests _ _ _ => exact hrests
  | generation hrests _ => exact hrests
  | preEof hrests _ => exact hrests

lemma Attends.events (h : Attends m reads ground status r π) (events : List Event) :
    Attends m reads ground status { r with events } π := by
  have hrests := h.rests.await r.point r.retry events
  cases h with
  | reduction _ hpoint hretry hids => exact .reduction hrests hpoint hretry hids
  | generation _ hpoint => exact .generation (r := { r with events }) hrests hpoint
  | preEof _ hpoint => exact .preEof (r := { r with events }) hrests hpoint

lemma Plays.rests (h : Plays m reads ground r π) : Rests m reads ground r π.gist π.left := by
  cases h with
  | going hrests _ => exact hrests
  | back hrests _ => exact hrests

/-- A reduction is weighed by the elements that its children have. -/
lemma weigh_apply {production : ProductionId} {ids : List NodeId} {children : List ElementId}
    {commits : Bool} (hpoint : r.point = .reduction production commits)
    (hids : ids.map (elementAt r.view.nodes) = children.map some) (hr : r.rejecting = false) :
    weigh rejects production ids r =
      .ok () { r with rejecting := rejects production children } := by
  have helements : elementsOf r.forest ids = .ok children := by
    refine elementsOf_eq ?_
    rw [← hids]
    exact List.map_congr_left fun id _ => (elementAt_view r id).symm
  rw [weigh, get_bind, helements, lookup_ok_bind]
  cases hrejects : rejects production children with
  | true =>
    rw [if_pos rfl, rejectNow, reject]
    simp only [hpoint]
  | false =>
    rw [if_neg Bool.false_ne_true, ← hr]
    rfl

lemma frontSpan_eq (h : Rests m reads ground r γ left) : ∃ span, frontSpan r = .ok span r := by
  rw [frontSpan, get_bind]
  cases hqueue : r.queue with
  | nil => exact ⟨_, rfl⟩
  | cons tree rest =>
    obtain ⟨element, queue, -, helement, -⟩ := h.outlines.queue_cons hqueue
    rw [elementAt_view] at helement
    obtain ⟨n, hn, -⟩ := Option.map_eq_some_iff.1 helement
    exact ⟨n.span, bind_ok (node_ok hn) _⟩

/-- A reduction that was weighed is rejected, or its step is completed, as the plot has it. -/
lemma matches_weighed {production : ProductionId} {children : List ElementId} {commits : Bool}
    (h : Rests m reads ground r γ left) (hpoint : r.point = .reduction production commits)
    (hretry : r.retry = 0)
    (hrun : enter m .reduction { r with rejecting := rejects production children } = y) :
    let π : Plot := ⟨γ, left, .acting production children commits⟩
    Matches m reads ground y (π.tick m reads rejects).2 ∧
      seen (Result.left y) = seen r ++ (π.tick m reads rejects).1 := by
  have hresumed : Rests m reads ground { r with point := .start, rejecting := false } γ left :=
    h.keep ⟨h.tidy.attached, h.tidy.pool, h.tidy.loose⟩ rfl rfl h.target h.stopping h.halted
      h.aborted rfl
  have henter := enter_awaited (m := m)
    (r := { r with rejecting := rejects production children }) hpoint fun _ => h.halted
  replace hrun := henter.symm.trans hrun
  dsimp only at hrun
  rw [resumeReduction, modify_bind, get_bind] at hrun
  simp only [Plot.tick]
  cases hrejects : rejects production children with
  | true =>
    obtain ⟨span, hspan⟩ := frontSpan_eq hresumed
    rw [if_pos hrejects, modify_bind, bind_ok hspan] at hrun
    exact matches_turnBack hresumed hrun
  | false =>
    rw [if_neg (Bool.eq_false_iff.1 hrejects), hrejects] at hrun
    obtain ⟨hmatches, hseen⟩ := matches_completeStep hresumed rfl hretry hrun
    exact ⟨hmatches, hseen.trans (List.append_nil _).symm⟩

/-! ## What a call comes to -/

/-- What follows a turn, or an entry. -/
def onward (m : Machine) (turns : Nat) : Option Status → Op Status
  | some status => return status
  | none => takeTurns m turns

lemma resume_eq (entry : Entry) : resume m turns entry = enter m entry >>= onward m turns := rfl

/-- A call, and all that its driver does from then on. -/
def calling (m : Machine) (rejects : ProductionId → List ElementId → Bool) (turns calls : Nat)
    (op : Op Status) : Op Status := do
  heed rejects (pursue m rejects turns calls) (← unlessAborted op)

lemma pursue_succ (entry : Entry) :
    pursue m rejects turns (calls + 1) entry =
      calling m rejects turns calls (resume m turns entry) := rfl

section Calling

variable {op : Op Status} (hr : r.aborted = false)
include hr

lemma calling_congr {op' : Op Status} (hs : s.aborted = false) (hop : op r = op' s) :
    calling m rejects turns calls op r = calling m rejects turns calls op' s := by
  have hcall : unlessAborted op r = unlessAborted op' s := by
    rw [unlessAborted, unlessAborted, if_neg (Bool.eq_false_iff.1 hr),
      if_neg (Bool.eq_false_iff.1 hs), hop]
  change EStateM.bind _ _ r = EStateM.bind _ _ s
  rw [EStateM.bind, EStateM.bind, hcall]

lemma calling_ok (hop : op r = .ok status s) :
    calling m rejects turns calls op r = heed rejects (pursue m rejects turns calls) status
      { s with events := .suspended status :: s.events } := by
  exact bind_ok (unlessAborted_ok hr hop) _

/-- A call that fails tells of a fatal error. -/
lemma tale_calling_error {x : Failure Error} (hop : op r = .error x s) :
    (∃ t, calling m rejects turns calls op r = .error x t) ∧
      Result.tale (calling m rejects turns calls op r) =
        ⟨seen s ++ (Ending.kind (.error x)).closing, Ending.kind (.error x)⟩ := by
  have hcall {t : Run} (ht : unlessAborted op r = .error x t) :
      calling m rejects turns calls op r = .error x t := bind_error ht _
  rw [unlessAborted, if_neg (Bool.eq_false_iff.1 hr), hop] at hcall
  cases x with
  | fault f =>
    rw [hcall rfl]
    exact ⟨⟨s, rfl⟩, congrArg (Tale.mk · _) (List.append_nil _).symm⟩
  | error e =>
    have hfatal : e.kind.isFatal = e.isFatal := by cases e <;> rfl
    simp only at hcall
    cases he : e.isFatal with
    | true =>
      simp only [he, if_true] at hcall
      rw [hcall rfl]
      refine ⟨⟨_, rfl⟩, congrArg (Tale.mk · _) ?_⟩
      rw [Ending.kind, Ending.closing, if_pos (hfatal.trans he)]
      exact seen_told rfl rfl
    | false =>
      simp only [he, Bool.false_eq_true, if_false] at hcall
      rw [hcall rfl]
      refine ⟨⟨_, rfl⟩, congrArg (Tale.mk · _) ?_⟩
      rw [Ending.kind, Ending.closing, if_neg (Bool.eq_false_iff.1 (hfatal.trans he)),
        List.append_nil]
      rfl

end Calling

/-! ## What a run retells of its plot -/

/-- The tale is that of so many moves of the plot.  Then the plot has ended, or there are moves
enough.  A run that the pool refuses a slot tells nothing. -/
def Retells (m : Machine) (reads : Alphabet) (rejects : ProductionId → List ElementId → Bool)
    (enough : Nat → Prop) (before : List Event) (π : Plot) (x : Result Status) : Prop :=
  (∃ y s, x = .error y s ∧ Refusal y) ∨
    ∃ moves, Result.tale x = (π.play m reads rejects moves).after before ∧
      ((∀ more, moves ≤ more → π.play m reads rejects more = π.play m reads rejects moves) ∨
        enough moves)

section Retelling

variable {enough enough' : Nat → Prop} {π' : Plot} {told after : List Event} {outcome : Outcome}

lemma Retells.mono (h : Retells m reads rejects enough before π x)
    (himp : ∀ moves, enough moves → enough' moves) :
    Retells m reads rejects enough' before π x := by
  refine h.imp_right fun ⟨moves, htale, hends⟩ => ⟨moves, htale, hends.imp_right (himp moves)⟩

lemma Plot.play_succ (htick : π.tick m reads rejects = (told, outcome)) (moves : Nat) :
    π.play m reads rejects (moves + 1) =
      (outcome.tale (Plot.play m reads rejects moves)).after told := by
  rw [Plot.play, htick]

/-- A move leads from one plot to another, and something may be told on the way. -/
lemma Retells.tick (extra : List Event) (htick : π.tick m reads rejects = (told, outcome))
    (hleads : ∀ play, outcome.tale play = (play π').after extra)
    (himp : ∀ moves, enough moves → enough' (moves + 1)) (hafter : after = before ++ told ++ extra)
    (h : Retells m reads rejects enough after π' x) :
    Retells m reads rejects enough' before π x := by
  have hplay (moves : Nat) : π.play m reads rejects (moves + 1) =
      (π'.play m reads rejects moves).after (told ++ extra) := by
    rw [Plot.play_succ htick, hleads, Tale.after_after]
  refine h.imp_right fun ⟨moves, htale, hends⟩ => ⟨moves + 1, ?_, ?_⟩
  · rw [htale, hplay, Tale.after_after, hafter, List.append_assoc]
  · refine hends.imp (fun hend more hmore => ?_) (himp moves)
    obtain ⟨more, rfl⟩ := Nat.exists_eq_succ_of_ne_zero (Nat.ne_zero_of_lt hmore)
    rw [hplay, hplay, hend more (Nat.le_of_succ_le_succ hmore)]

/-- The plot ends with a move. -/
lemma Retells.stop {ending : Ending} (htick : π.tick m reads rejects = (told, .stops ending))
    (htale : Result.tale x = ⟨before ++ told ++ ending.closing, ending⟩) :
    Retells m reads rejects enough before π x := by
  refine .inr ⟨1, ?_, .inl fun more hmore => ?_⟩
  · rw [htale, Plot.play_succ htick, Tale.after_after]
    rfl
  · obtain ⟨more, rfl⟩ := Nat.exists_eq_succ_of_ne_zero (Nat.ne_zero_of_lt hmore)
    rw [Plot.play_succ htick, Plot.play_succ htick]
    rfl

end Retelling

/-- So many moves are enough to use up the turns of a call, or all the calls.  What the input holds
more than its gist takes turns too, and may be taken once for each move. -/
def Suffices (ground : Ground) (turns calls moves : Nat) : Prop :=
  turns ≤ moves * (ground.view.items.length + 1) + ground.view.items.length ∨ calls ≤ moves

/-- What a turn or an entry comes to is retold, if all that follows is. -/
lemma retells_move {first : Op (Option Status)}
    (hcalls : ∀ {status s π}, Attends m reads ground status s π → Reads s →
      Retells m reads rejects (Suffices ground turns calls) (seen s) π
        (heed rejects (pursue m rejects turns calls) status s))
    (hturns : ∀ {s π}, Plays m reads ground s π → Reads s →
      Retells m reads rejects
        (fun moves => t ≤ moves * (ground.view.items.length + 1) + s.content.length ∨
          Suffices ground turns (calls + 1) moves) (seen s) π
        (calling m rejects turns calls (takeTurns m t) s))
    (hr : r.aborted = false) (hfirst : first r = y) (hy : Reads (Result.left y))
    (hmatches : Matches m reads ground y (π.tick m reads rejects).2)
    (hseen : seen (Result.left y) = seen r ++ (π.tick m reads rejects).1) :
    Retells m reads rejects
      (fun moves => t + 1 ≤ moves * (ground.view.items.length + 1) ∨
        Suffices ground turns (calls + 1) moves) (seen r) π
      (calling m rejects turns calls (first >>= onward m t) r) := by
  rcases htick : π.tick m reads rejects with ⟨told, outcome⟩
  rw [htick] at hmatches hseen
  cases hmatches with
  | @on s _ hplays =>
    have hgoes : (first >>= onward m t) r = takeTurns m t s := bind_ok hfirst _
    rw [calling_congr hr hplays.rests.aborted hgoes]
    have hlong := hplays.rests.items_le
    refine .tick [] htick (fun _ => rfl) (fun moves hspent => ?_)
      (hseen.trans (List.append_nil _).symm) (hturns (s := s) hplays hy)
    rw [Nat.succ_mul]
    rcases hspent with hspent | hspent
    · exact .inl (by omega)
    · exact .inr (hspent.imp (by rw [Nat.succ_mul]; omega) (by omega))
  | @waits status s _ hattends =>
    have hgiven : (first >>= onward m t) r = .ok status s := bind_ok hfirst _
    rw [calling_ok hr hgiven]
    refine .tick [.suspended status.kind] htick (fun _ => rfl) (fun moves hspent => ?_) ?_
      (hcalls (hattends.events _) hy)
    · exact .inr (hspent.imp (by rw [Nat.succ_mul]; omega) (by omega))
    · rw [← hseen]
      exact seen_told rfl rfl
  | @done s =>
    have hgiven : (first >>= onward m t) r = .ok .done s := bind_ok hfirst _
    rw [calling_ok hr hgiven]
    refine .stop htick ?_
    rw [← hseen]
    exact congrArg (Tale.mk · _) (seen_told rfl rfl)
  | failed =>
    refine .stop htick ?_
    rw [(tale_calling_error hr (bind_error hfirst _)).2, ← hseen]
    rfl
  | faulted =>
    refine .stop htick ?_
    rw [(tale_calling_error hr (bind_error hfirst _)).2, ← hseen]
    rfl

section Tables

variable (hm : Bytewise m reads) (hvalid : m.grammar.validate = .ok ())
  (hstart : m.start < m.grammar.states)
include hm hvalid hstart

/-- The rest of a call is retold, if what follows the call is. -/
lemma retells_turns (t : Nat)
    (hcalls : ∀ {status s π}, Attends m reads ground status s π → Reads s →
      Retells m reads rejects (Suffices ground turns calls) (seen s) π
        (heed rejects (pursue m rejects turns calls) status s))
    (h : Plays m reads ground r π) (hr : Reads r) :
    Retells m reads rejects
      (fun moves => t ≤ moves * (ground.view.items.length + 1) + r.content.length ∨
        Suffices ground turns (calls + 1) moves) (seen r) π
      (calling m rejects turns calls (takeTurns m t) r) := by
  induction t generalizing r π with
  | zero =>
    have hnone : takeTurns m 0 r = .error (.fault .unfinished) r := rfl
    exact .inr ⟨0, (tale_calling_error h.rests.aborted hnone).2, .inr (.inl (Nat.zero_le _))⟩
  | succ t ih =>
    have hkept := (detached_reads.turn (m := m)).left hr
    rcases matches_turn rejects hm hvalid hstart h hr rfl with
      ⟨y, s, hturn, hrefusal⟩ | ⟨s, hturn, hskips⟩ | ⟨hmatches, hseen⟩
    · have hfails : takeTurns m (t + 1) r = .error y s := bind_error hturn _
      obtain ⟨u, hcalling⟩ := (tale_calling_error h.rests.aborted hfails).1
      exact .inl ⟨y, u, hcalling, hrefusal⟩
    · rw [hturn] at hkept
      have hgoes : takeTurns m (t + 1) r = takeTurns m t s := bind_ok hturn _
      rw [calling_congr h.rests.aborted hskips.plays.rests.aborted hgoes, ← hskips.seen]
      have hless := hskips.content
      exact (ih hskips.plays hkept).mono fun moves hspent => hspent.imp_left (by omega)
    · refine (retells_move hcalls (fun hplays hreads => ih hplays hreads)
        h.rests.aborted rfl hkept hmatches hseen).mono fun moves hspent => hspent.imp_left ?_
      omega

/-- A run that goes on where it waited is retold. -/
lemma retells_resumed {entry : Entry}
    (hcalls : ∀ {status s π}, Attends m reads ground status s π → Reads s →
      Retells m reads rejects (Suffices ground turns calls) (seen s) π
        (heed rejects (pursue m rejects turns calls) status s))
    (hr : r.aborted = false) (henter : enter m entry r = .ok none s) (hseen : seen s = seen r)
    (h : Plays m reads ground s π) (hs : Reads s) :
    Retells m reads rejects (Suffices ground turns (calls + 1)) (seen r) π
      (pursue m rejects turns (calls + 1) entry r) := by
  have hgoes : resume m turns entry r = takeTurns m turns s := bind_ok henter _
  rw [pursue_succ, calling_congr hr h.rests.aborted hgoes, ← hseen]
  have hlong := h.rests.items_le
  refine (retells_turns hm hvalid hstart turns hcalls h hs).mono fun moves hspent => ?_
  exact hspent.elim (fun hspent => .inl (by omega)) id

/-- What follows a status is retold. -/
lemma retells_calls (calls : Nat) (h : Attends m reads ground status r π) (hr : Reads r) :
    Retells m reads rejects (Suffices ground turns calls) (seen r) π
      (heed rejects (pursue m rejects turns calls) status r) := by
  induction calls generalizing r π status with
  | zero =>
    have hnone {x : Result Status} (hx : Result.tale x = ⟨seen r, .unfinished⟩) :
        Retells m reads rejects (Suffices ground turns 0) (seen r) π x :=
      .inr ⟨0, hx.trans (congrArg (Tale.mk · _) (List.append_nil _).symm),
        .inr (.inr (Nat.zero_le _))⟩
    cases h with
    | reduction h hpoint hretry hids =>
      rw [heed, bind_ok (weigh_apply hpoint hids h.rejecting)]
      exact hnone rfl
    | generation _ _ => exact hnone rfl
    | preEof _ _ => exact hnone rfl
  | succ calls ih =>
    cases h with
    | @reduction _ γ left production tree ids children commits h hpoint hretry hids =>
      rw [heed, bind_ok (weigh_apply hpoint hids h.rejecting), pursue_succ, resume_eq]
      have hkept := (detached_reads.enter (m := m) .reduction).left
        (show Reads { r with rejecting := rejects production children } from hr)
      obtain ⟨hmatches, hseen⟩ := matches_weighed h hpoint hretry rfl
      refine (retells_move (r := { r with rejecting := rejects production children }) (t := turns)
        (fun hattends hreads => ih hattends hreads)
        (fun hplays hreads => retells_turns hm hvalid hstart turns
          (fun hattends hreads => ih hattends hreads) hplays hreads)
        h.aborted rfl hkept hmatches hseen).mono fun moves hspent => ?_
      exact hspent.elim (fun hspent => .inl (by omega)) id
    | generation h hpoint =>
      exact retells_resumed hm hvalid hstart (fun hattends hreads => ih hattends hreads) h.aborted
        (enter_awaited hpoint fun _ => h.halted) rfl
        (.going (h.await .start r.retry r.events) rfl) hr
    | preEof h hpoint =>
      exact retells_resumed hm hvalid hstart (fun hattends hreads => ih hattends hreads) h.aborted
        (enter_awaited hpoint fun _ => h.halted) rfl
        (.going (h.await .start r.retry r.events) rfl) hr

end Tables

/-! ## Loading -/

/-- What is put in front of a stream: a byte, or a leaf, which may be ignored. -/
inductive Portion where
  | byte (b : UInt8)
  | leaf (element : ElementId) (ignore : Bool)
  deriving DecidableEq, Repr

/-- What is left of a portion if what is ignored is left out. -/
def Portion.morsel? : Portion → Option Morsel
  | .byte b => some (.byte b)
  | .leaf element ignore => if ignore then none else some (.leaf element)

/-- A run before its first step, whose stream holds what was pushed and nothing else. -/
inductive Loaded (m : Machine) : List Portion → Run → Prop
  | empty {r : Run} : Fresh m Stream.empty r → r.target = none → Loaded m [] r
  | text {portions : List Portion} {r s : Run} (text : Bytes) :
    Loaded m portions r → pushText text r = .ok () s →
    Loaded m (text.map .byte ++ portions) s
  | tree {portions : List Portion} {r s : Run} {id : NodeId} (tree : Node) (ignore : Bool) :
    Loaded m portions r → pushTree tree ignore r = .ok id s →
    Loaded m (.leaf tree.element ignore :: portions) s

/-- The second input is the first with padding. -/
inductive Pads (m : Machine) (reads : Alphabet) : List Portion → List Portion → Prop
  | nil : Pads m reads [] []
  | keep {portions padded : List Portion} (portion : Portion) :
    Pads m reads portions padded → Pads m reads (portion :: portions) (portion :: padded)
  | byte {portions padded : List Portion} {b : UInt8} :
    Ignorable m reads b → Pads m reads portions padded → Pads m reads portions (.byte b :: padded)
  | leaf {portions padded : List Portion} (element : ElementId) :
    Pads m reads portions padded → Pads m reads portions (.leaf element true :: padded)

/-- An item of the stream is a portion. -/
inductive Portion.Shows (elements : NodeId → Option ElementId) : Portion → Item → Prop
  | byte (b : UInt8) : Shows elements (.byte b) (.byte b)
  | leaf {id : NodeId} {element : ElementId} (ignore : Bool) :
    elements id = some element → Shows elements (.leaf element ignore) (.tree id ignore)

variable {portions padded : List Portion} {elements : NodeId → Option ElementId}
  {items : List Item}

lemma Pads.refl (portions : List Portion) : Pads m reads portions portions := by
  induction portions with
  | nil => exact .nil
  | cons portion portions ih => exact .keep portion ih

/-- Without padding, both inputs are the same. -/
lemma Pads.sifted (h : Pads m reads portions padded)
    (hshows : List.Forall₂ (Portion.Shows elements) padded items) :
    Sifted m reads elements items (portions.filterMap Portion.morsel?) := by
  induction h generalizing items with
  | nil =>
    cases hshows
    exact .nil
  | keep portion _ ih =>
    obtain _ | ⟨hshown, hrest⟩ := hshows
    cases hshown with
    | byte b => exact .byte b (ih hrest)
    | leaf ignore helement =>
      cases ignore with
      | true => exact .ignoredTree (ih hrest)
      | false => exact .leaf helement (ih hrest)
  | byte hignorable _ ih =>
    obtain _ | ⟨hshown, hrest⟩ := hshows
    cases hshown
    exact .ignoredByte hignorable (ih hrest)
  | leaf element _ ih =>
    obtain _ | ⟨hshown, hrest⟩ := hshows
    cases hshown
    exact .ignoredTree (ih hrest)

lemma Portion.Shows.mono {elements' : NodeId → Option ElementId}
    (hsame : ∀ id element, elements id = some element → elements' id = some element)
    {portion : Portion} {item : Item} (h : portion.Shows elements item) :
    portion.Shows elements' item := by
  cases h with
  | byte b => exact .byte b
  | leaf ignore helement => exact .leaf ignore (hsame _ _ helement)

lemma shows_text (text : Bytes) (h : List.Forall₂ (Portion.Shows elements) portions items) :
    List.Forall₂ (Portion.Shows elements) (text.map .byte ++ portions)
      (text.map .byte ++ items) := by
  induction text with
  | nil => exact h
  | cons b text ih => exact .cons (.byte b) ih

/-- A run that was loaded and did nothing else. -/
structure Ready (m : Machine) (portions : List Portion) (r : Run) : Prop where
  eq : ∃ scanner forest log, r = { initial m forest none with scanner, log }
  tidy : Tidy False r
  orderly : Orderly r.view
  reads : Reads r
  shows : List.Forall₂ (Portion.Shows (elementAt r.view.nodes)) portions r.content

lemma Loaded.ready (h : Loaded m portions r) : Ready m portions r := by
  induction h with
  | empty hfresh htarget =>
    have htidy : Tidy False _ := hfresh.tidy
    have horderly := hfresh.orderly
    obtain ⟨blockLength, blockLimit, target, rfl⟩ := hfresh.eq
    obtain rfl : target = none := htarget
    exact ⟨⟨_, _, _, rfl⟩, htidy, horderly, ⟨_, rfl, fun message => List.not_mem_nil⟩, .nil⟩
  | @text portions r s text _ hpush ih =>
    obtain ⟨stream, hs, hreliable⟩ := ih.reads
    have hmoves : Moves m False (fun _ _ => True) r s :=
      (moves_pushText ih.tidy (.inl ⟨(), hpush⟩)).1
    have htidy := hmoves.tidy
    have horderly := hmoves.orderly ih.orderly
    rw [pushText_apply hs] at hpush
    by_cases htext : text = []
    · rw [if_pos htext] at hpush
      cases hpush
      rw [htext]
      exact ih
    · rw [if_neg htext] at hpush
      cases hpush
      have hcontent := (content_eq hs).1
      have hshows := shows_text text ih.shows
      rw [hcontent, ← Stream.content_pushText] at hshows
      obtain ⟨scanner, forest, log, rfl⟩ := ih.eq
      refine ⟨⟨_, _, _, rfl⟩, htidy, horderly, ⟨_, rfl, hreliable⟩, hshows.imp fun portion item h =>
        h.mono fun id element helement => ?_⟩
      rw [elementAt_view] at helement ⊢
      exact helement
  | @tree portions r s id tree ignore _ hpush ih =>
    obtain ⟨stream, hs, hreliable⟩ := ih.reads
    have hmoves : Moves m False (fun _ _ => True) r s :=
      (moves_pushTree ih.tidy ih.orderly nofun (.inl ⟨id, hpush⟩)).1
    have htidy := hmoves.tidy
    have horderly := hmoves.orderly ih.orderly
    obtain ⟨made, halloc, rfl⟩ := pushTree_ok hs hpush
    obtain ⟨hvacant, hnodes⟩ := Pool.get?_of_alloc ih.tidy.pool halloc
    have hcontent := (content_eq hs).1
    have hshows := ih.shows
    rw [hcontent] at hshows
    obtain ⟨scanner, forest, log, rfl⟩ := ih.eq
    refine ⟨⟨_, _, _, rfl⟩, htidy, horderly, ⟨_, rfl, hreliable⟩, .cons (.leaf ignore ?_)
      (hshows.imp fun portion item h => h.mono fun j element helement => ?_)⟩
    · rw [elementAt_view, hnodes, Function.update_self]
      rfl
    · rw [elementAt_view] at helement ⊢
      rw [hnodes, Function.update_of_ne]
      · exact helement
      · rintro rfl
        rw [hvacant] at helement
        cases helement

/-! ## From the first move on -/

/-- The plot with which a parse begins. -/
def Plot.first (m : Machine) (input : List Morsel) : Plot :=
  ⟨⟨m.start, [], [], input, false⟩, [], .going 0⟩

/-- Whatever is asked of a driven parse, its pool has room for. -/
def Roomy (m : Machine) (rejects : ProductionId → List ElementId → Bool) (r : Run) : Prop :=
  ∀ turns calls e s, pursue m rejects turns calls .start r ≠ .error (.error (.alloc e)) s

section Tables

variable (hm : Bytewise m reads) (hvalid : m.grammar.validate = .ok ())
  (hstart : m.start < m.grammar.states)
include hm hvalid hstart

/-- A parse of a loaded input is retold by the plot of what is left without padding. -/
lemma retells_loaded (rejects : ProductionId → List ElementId → Bool) (h : Loaded m padded r)
    (hpads : Pads m reads portions padded) :
    ∃ ground, ∀ turns calls, Retells m reads rejects (Suffices ground turns calls) []
      (.first m (portions.filterMap Portion.morsel?)) (pursue m rejects turns calls .start r) := by
  have hready := h.ready
  have hsifted := hpads.sifted hready.shows
  obtain ⟨scanner, forest, log, rfl⟩ := hready.eq
  let r : Run := { initial m forest none with scanner, log }
  let ground : Ground := ⟨r.log.records, r.view, hready.orderly, rfl⟩
  have houtlines : Outlines m reads r.view ⟨m.start, [], [],
      portions.filterMap Portion.morsel?, false⟩ :=
    ⟨rfl, rfl, hsifted, rfl, ⟨[], .nil _, rfl⟩, nofun, hstart, nofun⟩
  have hrests : Rests m reads ground r _ [] :=
    ⟨hready.tidy, .start houtlines, rfl, rfl, rfl, rfl, rfl⟩
  refine ⟨ground, fun turns calls => ?_⟩
  cases calls with
  | zero => exact .inr ⟨0, rfl, .inr (.inr (Nat.zero_le _))⟩
  | succ calls =>
    have henter : enter m .start r = .ok none r := rfl
    exact retells_resumed hm hvalid hstart
      (fun hattends hreads => retells_calls hm hvalid hstart calls hattends hreads) rfl henter rfl
      (.going hrests rfl) hready.reads

omit hm hvalid hstart in
/-- What a run tells, the plot tells. -/
lemma Retells.opens {enough : Nat → Prop} (h : Retells m reads rejects enough [] π x)
    (hroom : ∀ e s, x ≠ .error (.error (.alloc e)) s) :
    ∃ moves, Result.tale x = π.play m reads rejects moves ∧
      ((∀ more, moves ≤ more → π.play m reads rejects more = π.play m reads rejects moves) ∨
        enough moves) := by
  rcases h with ⟨y, s, rfl, e, rfl⟩ | htells
  · exact absurd rfl (hroom e s)
  · exact htells

omit hm hvalid hstart in
/-- What the plot tells, a run tells that is allowed to go on for long enough. -/
lemma opens_pursued (h : ∀ turns calls, Retells m reads rejects (Suffices ground turns calls) [] π
      (pursue m rejects turns calls .start r)) (hroom : Roomy m rejects r) (moves : Nat) :
    ∃ turns calls, (π.play m reads rejects moves).Opens
      (Result.tale (pursue m rejects turns calls .start r)) := by
  let turns := moves * (ground.view.items.length + 1) + ground.view.items.length + 1
  refine ⟨turns, moves, ?_⟩
  obtain ⟨used, htale, hends⟩ := (h turns moves).opens (hroom turns moves)
  rw [htale]
  by_cases hle : moves ≤ used
  · exact Plot.play_opens π hle
  · rcases hends with hends | hspent | hspent
    · rw [← hends moves (Nat.le_of_not_le hle)]
      exact .refl _
    · have hless : moves * (ground.view.items.length + 1) <
          used * (ground.view.items.length + 1) := by omega
      exact absurd (Nat.le_of_lt (Nat.lt_of_mul_lt_mul_right hless)) hle
    · exact absurd hspent hle

/-- Whatever is told of a driven parse is told of it with padding in its input, and the other way
round: the decisions, the errors and the statuses, and how the parse ends. -/
theorem padding_unseen {r' : Run} (h : Loaded m portions r) (h' : Loaded m padded r')
    (hpads : Pads m reads portions padded) (hroom : Roomy m rejects r)
    (hroom' : Roomy m rejects r') :
    (∀ turns calls, ∃ turns' calls', (Result.tale (pursue m rejects turns calls .start r)).Opens
        (Result.tale (pursue m rejects turns' calls' .start r'))) ∧
      ∀ turns' calls', ∃ turns calls, (Result.tale (pursue m rejects turns' calls' .start r')).Opens
        (Result.tale (pursue m rejects turns calls .start r)) := by
  obtain ⟨ground, hplain⟩ := retells_loaded hm hvalid hstart rejects h (.refl portions)
  obtain ⟨ground', hpadded⟩ := retells_loaded hm hvalid hstart rejects h' hpads
  refine ⟨fun turns calls => ?_, fun turns calls => ?_⟩
  · obtain ⟨moves, htale, -⟩ := (hplain turns calls).opens (hroom turns calls)
    rw [htale]
    exact opens_pursued hpadded hroom' moves
  · obtain ⟨moves, htale, -⟩ := (hpadded turns calls).opens (hroom' turns calls)
    rw [htale]
    exact opens_pursued hplain hroom moves

end Tables

/-! ## A letter behind blanks -/

/-- A parse that comes to its end has room enough. -/
lemma roomy_of_done {m : Machine} {rejects : ProductionId → List ElementId → Bool} {r s : Run}
    {turns : Nat} (h : parse m turns .start r = .ok .done s) : Roomy m rejects r := by
  -- However many turns there are, a parse that stops short of a status is unfinished.
  have hsame {more : Nat} (hfinished : Finished (parse m more .start r)) :
      parse m more .start r = .ok .done s := by
    rcases Nat.le_total turns more with hle | hle
    · rw [parse_mono hle (by rw [h]; exact .of_ok _ _), h]
    · rw [← parse_mono hle hfinished, h]
  intro more calls e t hfails
  cases calls with
  | zero => cases hfails
  | succ calls =>
    rcases bind_eq_error.1 hfails with hparse | ⟨status, u, hparse, hrest⟩
    · have hfinished : Finished (parse m more .start r) := fun u hu => by cases hparse.symm.trans hu
      cases hparse.symm.trans (hsame hfinished)
    · have hfinished : Finished (parse m more .start r) := fun u hu => by cases hparse.symm.trans hu
      cases hparse.symm.trans (hsame hfinished)
      cases hrest

/-- The machine for a letter, which ignores blanks. -/
def blankMachine : Machine :=
  { letterMachine with
    grammar := { letterMachine.grammar with
      elements := letterMachine.grammar.elements.push ⟨"blank", true, false⟩ }
    scanner := {
      lists := #[0, 1, 0, 1, 1]
      keyOffsets := #[0, 0]
      keys := #[32, 97]
      singles := #[0, 2]
      ranges := #[0, 0]
      transitions := #[0, 1]
      targets := #[0, 1, 1, 0]
      onTransition := #[0, 3, 1, 0]
      onArrival := #[0, 0]
      onDeparture := #[0, 0]
      onEnd := #[0, 0]
      entries := #[1, 1]
      actions := #[.accept 1, .accept 3]
      states := 2
      start := 1
      firstFinal := 1
      dead := 0 } }

/-- The letter and the blank are tokens. -/
def blankReads : Alphabet := fun _ b =>
  if b = 97 then some 1 else if b = 32 then some 3 else none

lemma transition_blank (b : UInt8) : blankMachine.scanner.transition 1 b =
    .ok (if b = 97 then 2 else if b = 32 then 1 else 3) := by
  have hall : ∀ n : Fin 256, blankMachine.scanner.transition 1 (UInt8.ofNat n) =
      .ok (if UInt8.ofNat n = 97 then 2 else if UInt8.ofNat n = 32 then 1 else 3) := by
    decide +kernel
  simpa using hall ⟨b.toNat, b.toNat_lt⟩

lemma bytewise_blank : Bytewise blankMachine blankReads := by
  have hregion {region : RegionId} (h : IsScanned blankMachine region) : region = 1 := by
    obtain ⟨state, hstate, regions, hregions, hmem⟩ := h
    have hall : ∀ state < 4, blankMachine.grammar.regionsOf state = .ok [1] := by decide +kernel
    obtain rfl := Except.ok.inj ((hall state hstate).symm.trans hregions)
    exact List.mem_singleton.1 hmem
  refine ⟨fun region h b items => ?_, fun region start h hstart stream => ?_⟩
  · obtain rfl := hregion h
    let front : Scanner.Scan := { stream := { buffered := .byte b :: items }, state := 1 }
    have hstep : ∃ scan, Scanner.Scan.step blankMachine.scanner front =
        .ok (some (blankReads.outcome 1 b)) scan := by
      rw [show Scanner.Scan.step blankMachine.scanner front =
        Scanner.Scan.advance blankMachine.scanner b front from rfl, Scanner.Scan.advance,
        show front.state = 1 from rfl, transition_blank, Alphabet.outcome, blankReads]
      by_cases hletter : b = 97
      · rw [if_pos hletter, if_pos hletter]
        exact ⟨_, rfl⟩
      · rw [if_neg hletter, if_neg hletter]
        by_cases hblank : b = 32
        · rw [if_pos hblank, if_pos hblank]
          exact ⟨_, rfl⟩
        · rw [if_neg hblank, if_neg hblank]
          exact ⟨_, rfl⟩
    obtain ⟨scan, hstep⟩ := hstep
    rw [Scanner.finds]
    simp only [show blankMachine.scanner.entries[1]? = some 1 from rfl]
    rw [show Scanner.Scan.run blankMachine.scanner front = _ from run_of_step hstep]
  · obtain rfl := hregion h
    obtain rfl := Option.some.inj hstart
    exact ⟨_, rfl⟩

lemma ignorable_blank : Ignorable blankMachine blankReads 32 := by
  intro state hstate regions hregions _
  have hall : ∀ state < 4, blankMachine.grammar.regionsOf state = .ok [1] := by decide +kernel
  obtain rfl := Except.ok.inj ((hall state hstate).symm.trans hregions)
  exact ⟨3, rfl, rfl, rfl⟩

/-- What is told of a letter is told of it with a blank and an ignored leaf in front. -/
theorem padding_unseen_blank : ∃ r r' turns calls,
    Loaded blankMachine [.byte 97] r ∧ Loaded blankMachine [.byte 32, .leaf 1 true, .byte 97] r' ∧
    (Result.tale (pursue blankMachine (fun _ _ => false) 20 1 .start r)).ending = .ok .done ∧
    Result.tale (pursue blankMachine (fun _ _ => false) turns calls .start r') =
      Result.tale (pursue blankMachine (fun _ _ => false) 20 1 .start r) := by
  let start : Run := { initial blankMachine (Pool.empty 8 8) none with
    scanner := { Scanner.detached with stream := some Stream.empty } }
  have hfresh : Fresh blankMachine Stream.empty start := ⟨rfl, 8, 8, none, rfl⟩
  let r := Result.left (pushText [97] start)
  let s := Result.left (pushTree (.fabricated 1 [98]) true r)
  let r' := Result.left (pushText [32] s)
  have hletter : pushText [97] start = .ok () r := rfl
  have hleaf : pushTree (.fabricated 1 [98]) true r = .ok 0 s :=
    Result.eq_ok_left (by decide +kernel)
  have hblank : pushText [32] s = .ok () r' := Result.eq_ok_left (by decide +kernel)
  have hplain : Loaded blankMachine [.byte 97] r := .text [97] (.empty hfresh rfl) hletter
  have hpadded : Loaded blankMachine [.byte 32, .leaf 1 true, .byte 97] r' :=
    .text [32] (.tree _ true hplain hleaf) hblank
  have hpads : Pads blankMachine blankReads [.byte 97] [.byte 32, .leaf 1 true, .byte 97] :=
    .byte ignorable_blank (.leaf 1 (.refl _))
  have hparse : parse blankMachine 20 .start r = .ok .done _ :=
    Result.eq_ok_left (by decide +kernel)
  have hparse' : parse blankMachine 20 .start r' = .ok .done _ :=
    Result.eq_ok_left (by decide +kernel)
  have hending : (Result.tale (pursue blankMachine (fun _ _ => false) 20 1 .start r)).ending =
      .ok .done := by
    rw [show pursue blankMachine (fun _ _ => false) 20 1 .start r = .ok .done _ from
      bind_ok hparse _]
    rfl
  have hroom : Roomy blankMachine (fun _ _ => false) r := roomy_of_done hparse
  have hroom' : Roomy blankMachine (fun _ _ => false) r' := roomy_of_done hparse'
  obtain ⟨turns, calls, htale⟩ := (padding_unseen bytewise_blank (by decide +kernel) (by decide)
    hplain hpadded hpads hroom hroom').1 20 1
  refine ⟨r, r', turns, calls, hplain, hpadded, hending, (htale.eq_of_finished ?_).symm⟩
  rw [hending]
  nofun

end Rewind.Run
