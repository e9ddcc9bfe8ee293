import Rewind.Proofs.Bridges
import Rewind.Proofs.Failures
import Rewind.Proofs.Reverted

/-!
# What arms the action at the end of the input

The mark that the action at the end of the input has run is set where the end is met, and cleared
where something is taken from the stream, which holds less from then on.  Both are written down, and
taking a record back puts the mark back to what it was before.
-/

namespace Rewind.Run

open Attempt Op

variable {m : Machine} {r s t : Run}

/-! ## What clears the mark -/

/-- Something was taken from the stream, and the mark is clear. -/
structure Consumes (r s : Run) : Prop where
  shorter : s.content.length < r.content.length
  ran : s.endActionRan = false
  written : Written Record.isUnmarked (marked r).log.records s

lemma ran_marked (r : Run) : (marked r).endActionRan = false := by
  unfold marked
  split
  · rfl
  · rename_i hran
    simpa using hran

lemma length_marked (r : Run) : r.log.length ≤ (marked r).log.length := by
  unfold marked
  split
  · exact Nat.le_succ _
  · exact Nat.le_refl _

/-- Once something was taken and noted, sparing the mark is all that is left to do. -/
lemma Consumes.of_spares {scanner : Scanner}
    (hshorter : { r with scanner }.content.length < r.content.length)
    (h : Spares (marked { r with scanner }) s) : Consumes r s := by
  have hlog : (marked { r with scanner }).log = (marked r).log := by rw [marked_scanner]
  refine ⟨?_, h.ran.trans (ran_marked _), hlog ▸ h.written⟩
  rw [h.content, content_marked]
  exact hshorter

lemma Consumes.length_le (h : Consumes r s) : r.log.length ≤ s.log.length := by
  obtain ⟨newer, hlog, -⟩ := h.written
  have hlength := congrArg List.length hlog
  rw [List.length_append] at hlength
  exact Nat.le_trans (length_marked r) (Nat.le_of_add_left_le (Nat.le_of_eq hlength.symm))

/-- An operation that spares the mark, and writes something down if it succeeds. -/
structure Recording {α : Type} (op : Op α) : Prop where
  sparing : Sparing op
  grows : ∀ ⦃r s : Run⦄ ⦃a : α⦄, op r = .ok a s → r.log.length < s.log.length

namespace Recording

variable {α β : Type}

lemma write {record : Record} {f : Unit → Op β} (hrecord : record.isUnmarked = true)
    (hf : ∀ u, Sparing (f u)) : Recording (Op.write record >>= f) := by
  refine ⟨(Spares.write hrecord).bind hf, fun r s b h => ?_⟩
  have hrest : Spares { r with log := r.log.append record } s := (hf ()).of_ok h
  exact Nat.lt_of_succ_le hrest.length_le

lemma after {x : Op α} {f : α → Op β} (hx : Sparing x) (hf : ∀ a, Recording (f a)) :
    Recording (x >>= f) := by
  refine ⟨hx.bind fun a => (hf a).sparing, fun r s b h => ?_⟩
  obtain ⟨a, t, hrun, hrest⟩ := bind_eq_ok.1 h
  exact Nat.lt_of_le_of_lt (hx.of_ok hrun).length_le ((hf a).grows hrest)

lemma ite {p : Prop} [Decidable p] {x y : Op α} (hx : Recording x) (hy : Recording y) :
    Recording (if p then x else y) := by
  split
  · exact hx
  · exact hy

/-- An operation that records what was taken, on the run that has taken it. -/
lemma consumes {op : Op α} {scanner : Scanner} (h : Recording op)
    (hshorter : { r with scanner }.content.length < r.content.length) :
    Consumes r (Result.left (op (marked { r with scanner }))) ∧
      ∀ a s, op (marked { r with scanner }) = .ok a s → r.log.length < s.log.length := by
  refine ⟨.of_spares hshorter (h.sparing.left _), fun a s hrun => ?_⟩
  have hmarked : r.log.length ≤ (marked { r with scanner }).log.length :=
    length_marked { r with scanner }
  exact Nat.lt_of_le_of_lt hmarked (h.grows hrun)

end Recording

section Taking

variable {stream : Stream} {region : RegionId}

lemma consumes_takeToken {element : ElementId} {length : Nat}
    (hs : r.scanner.stream = some stream)
    (hvalid : (Scanner.Outcome.token element length).Valid m.scanner stream) :
    Consumes r (Result.left (takeToken m region element length r)) ∧
      ∀ a s, takeToken m region element length r = .ok a s → r.log.length < s.log.length := by
  obtain ⟨-, hpos, hle⟩ := hvalid
  rcases hextract : stream.extract length with ⟨text, rest⟩
  obtain ⟨hcontent, -, -, hlength⟩ := Stream.content_extract hextract
  have hstream : onStream (·.extract length) r =
      .ok text { r with scanner := { r.scanner with stream := some rest } } :=
    onStream_eq_ok.2 ⟨stream, hs, by rw [hextract], by rw [hextract]⟩
  rw [takeToken, get_bind, bind_ok hstream, bind_ok (tookInput_apply _)]
  refine Recording.consumes ?_ ?_
  · have hh := Lax.handles Spares
    refine .ite (.write rfl fun _ => ?_) (.after (hh.alloc _) fun id => .after (hh.tells.tell _)
      fun _ => .ite (.after (hh.setAside hh.toEdits _) fun _ => .write rfl fun _ => .pure _)
        (.after (hh.putBack _) fun _ => .write rfl fun _ => .pure _))
    exact (Law.Governs.modify fun r => Spares.enters.point r _ fun h => by cases h).bind
      fun _ => .pure _
  · have hshort := congrArg List.length hcontent
    rw [List.length_append, List.length_map] at hshort
    rw [(content_eq hs).1, (content_eq rfl).1]
    omega

lemma consumes_takeTree {id : NodeId} {ignore : Bool} (hs : r.scanner.stream = some stream)
    (hvalid : (Scanner.Outcome.tree id ignore).Valid m.scanner stream) :
    Consumes r (Result.left (takeTree region id ignore r)) ∧
      ∀ a s, takeTree region id ignore r = .ok a s → r.log.length < s.log.length := by
  obtain ⟨rest, htake, hcontent, -, -⟩ := Stream.takeTree?_eq_some hvalid
  rw [takeTree, bind_ok (changeStream_ok hs), bind_ok (tookInput_apply _)]
  refine Recording.consumes ?_ ?_
  · have hh := Lax.handles Spares
    exact .write rfl fun _ => (hh.node _).bind fun _ => (hh.tells.tell _).bind fun _ =>
      .ite ((hh.setAside hh.toEdits _).bind fun _ => .pure _)
        ((hh.putBack _).bind fun _ => .pure _)
  · rw [(content_eq hs).1, (content_eq rfl).1, htake, hcontent, List.length_cons]
    exact Nat.lt_succ_self _

end Taking

/-! ## Moves forward -/

/-- The end of the input was met in a region, whose action is due, and the mark was set. -/
structure MeetsEnd (m : Machine) (region : RegionId) (r s : Run) : Prop where
  acts : m.grammar.actsAtEnd region = true
  due : r.endActionRan = false
  ran : s.endActionRan = true
  content : s.content = r.content
  log : s.log = r.log.append (.endActionMarked false)

/-- The end of the input was queued as a token.  The region in which it was met has no action, or
the mark was set. -/
structure QueuesEnd (m : Machine) (region : RegionId) (r s : Run) : Prop extends Spares r s where
  undue : ¬(m.grammar.actsAtEnd region = true ∧ r.endActionRan = false)
  told : s.events.head? = some (.token region m.grammar.eof [])

/-- Neither was the end of the input met, nor nothing found. -/
def Acquired.IsTaken (found : Acquired) : Prop :=
  ∀ region, found ≠ .suspended (.preEof region) ∧ found ≠ .noToken region

/-- What acquiring does to the mark. -/
inductive Arms (m : Machine) (r : Run) : Result Acquired → Prop
  | failed {x : Failure Error} {s : Run} : Spares r s ∨ Consumes r s → Arms m r (.error x s)
  | noToken {region : RegionId} {s : Run} : Spares r s → Arms m r (.ok (.noToken region) s)
  | consumed {found : Acquired} {s : Run} : Consumes r s → r.log.length < s.log.length →
    found.IsTaken → Arms m r (.ok found s)
  | met {region : RegionId} {s : Run} : MeetsEnd m region r s →
    Arms m r (.ok (.suspended (.preEof region)) s)
  | ended {region : RegionId} {s : Run} : QueuesEnd m region r s → Arms m r (.ok .queued s)

/-- What was taken from the stream was consumed, whatever came of it. -/
lemma Arms.of_consumes {op : Op Acquired} (h : Consumes r (Result.left (op r)) ∧
    ∀ a s, op r = .ok a s → r.log.length < s.log.length)
    (hfound : Replies Acquired.IsTaken op) :
    Arms m r (op r) := by
  obtain ⟨hconsumes, hgrows⟩ := h
  cases hrun : op r with
  | ok found s =>
    rw [hrun] at hconsumes
    exact .consumed hconsumes (hgrows found s hrun) (hfound hrun)
  | error x s =>
    rw [hrun] at hconsumes
    exact .failed (.inr hconsumes)

lemma arms_meetEnd (m : Machine) (region : RegionId) (r : Run) :
    Arms m r (meetEnd m region r) := by
  rw [meetEnd, get_bind]
  by_cases hdue : m.grammar.actsAtEnd region = true ∧ r.endActionRan = false
  · rw [if_pos hdue]
    exact .met ⟨hdue.1, hdue.2, rfl, rfl, rfl⟩
  · rw [if_neg hdue]
    cases halloc : alloc (.token m.grammar.eof [] ⟨r.position, 0⟩) r with
    | error x t =>
      rw [bind_error halloc]
      exact .failed (.inl (Bridges.of_error ((Lax.handles Spares).alloc _) halloc))
    | ok id t =>
      have ht : Spares r t := Bridges.of_ok ((Lax.handles Spares).alloc _) halloc
      rw [bind_ok halloc]
      exact .ended ⟨ht.trans ⟨rfl, rfl, .of_append (by exact rfl) rfl⟩, hdue, rfl⟩

/-- Where scans have spared the mark, it makes no difference that they were made. -/
lemma Arms.after {x : Result Acquired} (h : Spares r t) (hx : Arms m t x) (hlog : t.log = r.log) :
    Arms m r x := by
  have hconsumes {s : Run} (hs : Consumes t s) : Consumes r s := by
    refine ⟨h.content ▸ hs.shorter, hs.ran, ?_⟩
    have hmarked : (marked t).log = (marked r).log := by
      unfold marked
      rw [h.ran, hlog]
      split <;> simp [hlog]
    rw [← hmarked]
    exact hs.written
  cases hx with
  | failed hs => exact .failed (hs.imp h.trans hconsumes)
  | noToken hs => exact .noToken (h.trans hs)
  | consumed hs hgrows hfound => exact .consumed (hconsumes hs) (hlog ▸ hgrows) hfound
  | met hs =>
    exact .met ⟨hs.acts, h.ran ▸ hs.due, hs.ran, hs.content.trans h.content, hlog ▸ hs.log⟩
  | ended hs => exact .ended ⟨h.trans hs.toSpares, h.ran ▸ hs.undue, hs.told⟩

lemma log_scan {region : RegionId} {outcome : Scanner.Outcome}
    (h : scan m region r = .ok outcome s) : s.log = r.log := by
  obtain ⟨-, ⟨-, -, scanner, -, -, -, rfl⟩, -⟩ := scan_ok h
  rfl

lemma arms_acquireIn (first : RegionId) (regions : List RegionId) (r : Run) :
    Arms m r (acquireIn m first regions r) := by
  induction regions generalizing r with
  | nil => exact .noToken (.refl r)
  | cons region regions ih =>
    rw [acquireIn]
    cases hscan : scan m region r with
    | error x t =>
      rw [bind_error hscan]
      exact .failed (.inl ((Spares.scan m region).of_error hscan))
    | ok outcome t =>
      obtain ⟨stream, -, hstream, hvalid, -⟩ := scan_ok hscan
      rw [bind_ok hscan]
      refine .after ((Spares.scan m region).of_ok hscan) ?_ (log_scan hscan)
      cases outcome with
      | noToken => exact ih t
      | eof => exact arms_meetEnd m region t
      | tree id ignore =>
        refine .of_consumes (consumes_takeTree hstream hvalid) ?_
        exact .bind fun _ => .bind fun _ => .bind fun _ => .bind fun _ => .bind fun _ =>
          .ite (.bind fun _ => .pure (by simp [Acquired.IsTaken]))
            (.bind fun _ => .pure (by simp [Acquired.IsTaken]))
      | token element length =>
        refine .of_consumes (consumes_takeToken hstream hvalid) ?_
        exact .bind fun _ => .bind fun _ => .bind fun _ => .ite
          (.bind fun _ => .bind fun _ => .pure (by simp [Acquired.IsTaken]))
          (.bind fun _ => .bind fun _ => .ite
            (.bind fun _ => .bind fun _ => .pure (by simp [Acquired.IsTaken]))
            (.bind fun _ => .bind fun _ => .pure (by simp [Acquired.IsTaken])))

lemma arms_acquire (m : Machine) (r : Run) : Arms m r (acquire m r) := by
  rw [acquire, get_bind]
  cases hregions : lookup (m.grammar.regionsOf r.state) r with
  | error x t =>
    rw [bind_error hregions]
    exact .failed (.inl (Bridges.of_error (.lookup fun r _ _ => Spares.refl r) hregions))
  | ok regions t =>
    obtain ⟨-, rfl⟩ := lookup_eq_ok.1 hregions
    rw [bind_ok hregions]
    exact arms_acquireIn _ _ t

/-- The answer does not tell that the end of the input was met. -/
def Unended (a : Option Status) : Prop :=
  ∀ region, a ≠ some (.preEof region)

lemma unended_none : Unended none := fun _ h => by cases h

lemma unended_act (id : NodeId) (decision : Grammar.Decision) (target : StateId)
    (commits : Bool) : Replies Unended (act m id decision target commits) := by
  have hreduce (production : ProductionId) (alternative : Nat) (more : Bool) :
      Replies Unended (reduce m production alternative more commits) := by
    refine .bind fun info => .bind fun _ => .bind fun _ => .bind fun _ => .bind fun found => ?_
    cases found with
    | error found => exact .fail _
    | ok found =>
      exact .bind fun _ => .bind fun _ => .bind fun _ => .bind fun _ => .bind fun _ =>
        .bind fun _ => .bind fun _ => .bind fun _ => .bind fun _ =>
          .ite (.bind fun _ => .pure nofun) (.pure nofun)
  unfold act
  cases decision.action with
  | shift => exact .bind fun _ => .pure nofun
  | reduce production => exact hreduce ..
  | shiftReduce production => exact .bind fun _ => hreduce ..

lemma unended_completeStep (commits : Bool) : Replies Unended (completeStep m commits) := by
  have hend : Replies Unended (endStep m) :=
    .bind fun _ => .bind fun _ => .bind fun _ => .bind fun _ =>
      .ite (.bind fun _ => .pure nofun) (.ite (.bind fun _ => .pure nofun)
        (.ite (.pure nofun) (.pure nofun)))
  intro r s a h
  rw [completeStep_eq] at h
  exact hend h

lemma unended_step (id : NodeId) : Replies Unended (step m id) := by
  refine .bind fun n => .bind fun _ => .bind fun found => ?_
  cases found with
  | none => exact .bind fun _ => .pure nofun
  | some decision =>
    refine .bind fun _ => .bind fun _ => .bind fun _ => .bind fun _ =>
      .andThen (unended_act ..) fun a ha => ?_
    cases a with
    | some status => exact .pure ha
    | none => exact unended_completeStep _

lemma unended_enter (entry : Entry) : Replies Unended (enter m entry) := by
  have hresume (production : ProductionId) (commits : Bool) :
      Replies Unended (resumeReduction m production commits) :=
    .bind fun _ => .bind fun _ => .ite
      (.bind fun _ => .bind fun _ => .bind fun _ => .pure nofun) (unended_completeStep _)
  refine .bind fun r => ?_
  cases r.point with
  | reduction production commits =>
    cases entry with
    | reduction => exact .ite (.fail _) (hresume production commits)
    | _ => exact .ite (.fail _) (.fail _)
  | _ =>
    cases entry <;> first
      | exact .pure nofun
      | exact .ite (.fail _) (.pure nofun)
      | exact .ite (.fail _) (.fail _)
      | exact .ite (.fail _) (.bind fun _ => .pure nofun)

/-- What a move forward does to the mark.  Where something was taken before it failed, the run is
over. -/
inductive Touches (m : Machine) (r : Run) : Result (Option Status) → Prop
  | failed {x : Failure Error} {s : Run} :
    Spares r s ∨ Consumes r s ∧ (∀ e, x = .error e → e.isFatal = true) →
    Touches m r (.error x s)
  | spared {a : Option Status} {s : Run} : Spares r s → Unended a → Touches m r (.ok a s)
  | consumed {a : Option Status} {s : Run} : Consumes r s → r.log.length < s.log.length →
    Unended a → Touches m r (.ok a s)
  | met {region : RegionId} {s : Run} : MeetsEnd m region r s →
    Touches m r (.ok (some (.preEof region)) s)

lemma Touches.of_sparing {op : Op (Option Status)} (hs : Spares r s) (h : Sparing op)
    (hanswer : Replies Unended op) : Touches m r (op s) := by
  cases hrun : op s with
  | ok a t => exact .spared (hs.trans (h.of_ok hrun)) (hanswer hrun)
  | error x t => exact .failed (.inl (hs.trans (h.of_error hrun)))

/-- Entering a run spares the mark. -/
lemma touches_enter (m : Machine) (entry : Entry) (r : Run) : Touches m r (enter m entry r) :=
  .of_sparing (.refl r) (Spares.enters.enter entry) (unended_enter entry)

lemma touches_goForward (m : Machine) (r : Run) : Touches m r (goForward m r) := by
  have harms := arms_acquire m r
  rw [goForward, get_bind]
  cases r.queue with
  | cons id rest => exact .of_sparing (.refl r) (Spares.step m id) (unended_step id)
  | nil =>
    dsimp only
    cases hrun : acquire m r with
    | error x s =>
      rw [hrun] at harms
      rw [bind_error hrun]
      cases harms with
      | failed hs =>
        refine .failed (hs.imp_right fun hs => ⟨hs, fun e he => ?_⟩)
        exact grave_acquire m (he ▸ hrun)
    | ok found s =>
      rw [hrun] at harms
      rw [bind_ok hrun]
      cases harms with
      | met hs => exact .met hs
      | ended hs => exact .spared hs.toSpares unended_none
      | noToken hs =>
        -- Nothing was taken by then, and turning back takes nothing.
        exact .of_sparing hs (.look fun _ => (Spares.enters.turnBack rfl).bind fun _ => .pure _)
          (.bind fun _ => .bind fun _ => .pure unended_none)
      | consumed hs hgrows hfound =>
        cases found with
        | queued => exact .consumed hs hgrows unended_none
        | skipped => exact .consumed hs hgrows unended_none
        | suspended status =>
          refine .consumed hs hgrows fun region h => ?_
          cases h
          exact (hfound region).1 rfl
        | noToken region => exact absurd rfl (hfound region).2

/-! ## Moves back -/

/-- The mark as it was before the change that a record tells of. -/
def Record.ranBefore (ran : Bool) : Record → Bool
  | .endActionMarked previous => previous
  | _ => ran

lemma Record.ranBefore_unmarked {record : Record} {ran : Bool}
    (h : record.isUnmarked = true) : record.ranBefore ran = ran := by
  cases record with
  | endActionMarked previous => cases h
  | _ => rfl

/-- The mark and the log are the same. -/
structure Retains (r s : Run) : Prop where
  ran : s.endActionRan = r.endActionRan
  log : s.log = r.log

instance : Lax Retains where
  of_same _ _ _ hlog hran := ⟨hran, hlog⟩
  trans _ _ _ h h' := ⟨h'.ran.trans h.ran, h'.log.trans h.log⟩

lemma retains_streams : (Law.bridging Retains).Streams :=
  ⟨fun _ _ => .onScanner (L := Law.bridging Retains) (fun _ _ => ⟨rfl, rfl⟩)
    (fun _ _ _ => ⟨rfl, rfl⟩) (fun _ _ _ => ⟨rfl, rfl⟩) _⟩

lemma retains_undo {record : Record} (h : record.isUnmarked = true) :
    Bridges Retains (undo record) :=
  Lax.takesBack.undo (fun _ => retains_streams) (fun _ heq => by rw [heq] at h; cases h)
    fun _ _ _ => ⟨rfl, rfl⟩

/-- Taking back the change of a record puts the mark back, even if it fails. -/
lemma ran_undo (record : Record) (r : Run) :
    (Result.left (undo record r)).endActionRan = record.ranBefore r.endActionRan ∧
      (Result.left (undo record r)).log = r.log := by
  cases hunmarked : record.isUnmarked with
  | true =>
    rw [Record.ranBefore_unmarked hunmarked]
    exact ⟨((retains_undo hunmarked).left r).ran, ((retains_undo hunmarked).left r).log⟩
  | false =>
    cases record with
    | endActionMarked previous => exact ⟨rfl, rfl⟩
    | _ => cases hunmarked

/-- The second run is the first with records taken back from its log, and with the mark as it was
before them.  If there are none, then the content of the stream is as it was. -/
def Rolls (r s : Run) : Prop :=
  ∃ newer, r.log.records = newer ++ s.log.records ∧
    s.endActionRan = newer.foldl Record.ranBefore r.endActionRan ∧
    (newer = [] → s.content = r.content)

lemma Rolls.of_same (hlog : s.log = r.log) (hran : s.endActionRan = r.endActionRan)
    (hcontent : s.content = r.content) : Rolls r s :=
  ⟨[], by rw [hlog]; rfl, hran, fun _ => hcontent⟩

/-- A record is taken back, and then more of them. -/
lemma Rolls.cons {record : Record} {older : List Record} (hr : r.log.records = record :: older)
    (ht : t.log.records = older) (hran : t.endActionRan = record.ranBefore r.endActionRan)
    (h : Rolls t s) : Rolls r s := by
  obtain ⟨newer, hlog, hmark, -⟩ := h
  refine ⟨record :: newer, ?_, ?_, nofun⟩
  · rw [hr, ← ht, hlog, List.cons_append]
  · rw [hmark, hran, List.foldl_cons]

lemma rolls_settled (m : Machine) (r : Run) :
    Rolls r (Result.left ((do return some (← settle m) : Op (Option Status)) r)) := by
  have hspares : Sparing (do return some (← settle m) : Op (Option Status)) :=
    Lax.settle.bind fun _ => .pure _
  have hretains : Bridges Retains (do return some (← settle m) : Op (Option Status)) :=
    Lax.settle.bind fun _ => .pure _
  exact .of_same (hretains.left r).log (hretains.left r).ran (hspares.left r).content

/-- Going back puts the mark back to what it was, wherever it ends and even if it fails. -/
theorem rolls_unwind (goal : Goal) {records : List Record} (hlog : r.log.records = records) :
    Rolls r (Result.left (unwind m goal records r)) := by
  induction records generalizing r with
  | nil =>
    rw [unwind, get_bind]
    split
    · exact rolls_settled m r
    · exact .of_same rfl rfl rfl
  | cons record older ih =>
    rw [unwind, get_bind]
    split
    · exact rolls_settled m r
    · rw [modify_bind, tell_bind]
      have hundo := ran_undo record
        { r with log := ⟨older⟩, events := .undone record :: r.events }
      cases hrun : undo record { r with log := ⟨older⟩, events := .undone record :: r.events } with
      | error x t =>
        rw [hrun] at hundo
        rw [bind_error hrun]
        have ht : t.log.records = older := congrArg Journal.records hundo.2
        exact .cons hlog ht hundo.1 (.of_same rfl rfl rfl)
      | ok taken t =>
        rw [hrun] at hundo
        rw [bind_ok hrun]
        have ht : t.log.records = older := congrArg Journal.records hundo.2
        refine .cons hlog ht hundo.1 ?_
        cases taken with
        | action data => exact .of_same rfl rfl rfl
        | plain => exact ih ht
        | decision alternative =>
          cases goal with
          | step target => exact ih ht
          | backtrack => exact .of_same rfl rfl rfl

theorem unended_unwind (goal : Goal) (records : List Record) :
    Replies Unended (unwind m goal records) := by
  have hback : Replies (fun status => ∀ region, status ≠ .preEof region) (settle m) :=
    .bind fun _ => .bind fun _ => .bind fun _ => .bind fun _ => .pure nofun
  have hsettle : Replies Unended (do return some (← settle m) : Op (Option Status)) :=
    hback.andThen fun status hstatus => .pure fun region h => hstatus region (Option.some.inj h)
  induction records with
  | nil => exact .bind fun _ => .ite hsettle (.bind fun _ => .fail _)
  | cons record older ih =>
    refine .bind fun _ => .ite hsettle (.bind fun _ => .bind fun _ => .bind fun taken => ?_)
    cases taken with
    | action data => exact .pure nofun
    | plain => exact ih
    | decision alternative =>
      cases goal with
      | step target => exact ih
      | backtrack => exact .bind fun _ => .pure nofun

end Rewind.Run
