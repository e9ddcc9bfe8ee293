import Rewind.Proofs.Frame
import Rewind.Proofs.Laws
import Rewind.Proofs.Written

/-!
# What spares the mark for the end of the input

A run marks that the action at the end of its input has run.  Scans, steps and entering a run spare
the mark: it is as it was, so is the content of the stream, and no record that is written tells of
the mark.

This holds of every run, whether or not it has a stream and whatever nodes there are, and of
operations that fail as of those that succeed.
-/

namespace Rewind

/-! ## Scanning -/

namespace Scanner

namespace Scan

/-- A stage takes nothing from the stream, even if it fails. -/
def Looks (stage : Stage) : Prop :=
  ∀ s u : Scan, (∀ r, stage s = .ok r u → u.stream.content = s.stream.content) ∧
    ∀ e, stage s = .error e u → u.stream.content = s.stream.content

lemma Blind.looks {stage : Stage} (h : Blind stage) : Looks stage := by
  intro s u
  constructor
  · intro r hrun
    rw [(h.ok hrun).1]
  · intro e hrun
    rw [(h.error hrun).1]

lemma Looks.andThen {first second : Stage} (hfirst : Looks first) (hsecond : Looks second) :
    Looks (first.andThen second) := by
  intro s u
  unfold Stage.andThen
  cases hrun : first s with
  | ok r v =>
    have hv := (hfirst s v).1 r hrun
    cases r with
    | none =>
      rw [← hv]
      exact hsecond v u
    | some outcome =>
      refine ⟨fun r h => ?_, fun e h => ?_⟩ <;> cases h
      exact hv
  | error e v =>
    refine ⟨fun r h => ?_, fun e h => ?_⟩ <;> cases h
    exact (hfirst s u).2 e hrun

lemma looks_look (t : Tables) : Looks (look t) := by
  intro s u
  unfold look
  cases hpeek : s.stream.peek s.offset with
  | ok item stream =>
    rw [← (Stream.peek_ok hpeek).1]
    exact (Blind.meet item).looks { s with stream } u
  | error message stream =>
    refine ⟨fun r h => ?_, fun e h => ?_⟩ <;> cases h
    exact (Stream.peek_error hpeek).1

lemma looks_step (t : Tables) : Looks (step t) := by
  intro s u
  have hlooks := (Blind.executeList (t := t) (entry t.onDeparture s.state) s.offset).looks.andThen
    (looks_look t)
  exact hlooks { s with candidate := none } u

lemma looks_run (t : Tables) (s u : Scan) :
    (∀ outcome, run t s = .ok outcome u → u.stream.content = s.stream.content) ∧
      ∀ e, run t s = .error e u → u.stream.content = s.stream.content := by
  fun_induction run t s with
  | case1 s v hstep ih =>
    rw [← (looks_step t s v).1 _ hstep]
    exact ih
  | case2 s outcome v hstep =>
    refine ⟨fun outcome' h => ?_, fun e h => ?_⟩ <;> cases h
    exact (looks_step t s u).1 _ hstep
  | case3 s e v hstep =>
    refine ⟨fun outcome' h => ?_, fun e h => ?_⟩ <;> cases h
    exact (looks_step t s u).2 _ hstep

end Scan

/-- A scanner takes nothing from its stream, even if it fails. -/
lemma content_run (t : Tables) (region : RegionId) (s u : Scanner) :
    (∀ outcome, run t region s = .ok outcome u →
      u.stream.map Stream.content = s.stream.map Stream.content) ∧
    ∀ e, run t region s = .error e u →
      u.stream.map Stream.content = s.stream.map Stream.content := by
  unfold run
  cases t.entries[region]? with
  | none =>
    refine ⟨fun outcome h => ?_, fun e h => ?_⟩ <;> cases h
    rfl
  | some state =>
    cases hs : s.stream with
    | none =>
      refine ⟨fun outcome h => ?_, fun e h => ?_⟩ <;> cases h
      rw [hs]
    | some stream =>
      dsimp only
      cases hscan : Scan.run t { stream, state } with
      | ok outcome scan =>
        have hcontent := (Scan.looks_run t _ scan).1 outcome hscan
        have hnote : (note outcome (s.leave region scan)).stream = some scan.stream := by
          unfold note
          cases outcome.match? <;> rfl
        refine ⟨fun outcome' h => ?_, fun e h => ?_⟩ <;> cases h
        rw [hnote, Option.map_some, Option.map_some, hcontent]
      | error e scan =>
        have hcontent := (Scan.looks_run t _ scan).2 e hscan
        refine ⟨fun outcome' h => ?_, fun e h => ?_⟩ <;> cases h
        exact congrArg some hcontent

end Scanner

namespace Run

open Attempt Op

variable {m : Machine} {r s t : Run}

/-! ## Operations that bridge runs -/

/-- A relation between runs that has to do with nothing but the scanner, the log and the mark. -/
class Lax (R : Run → Run → Prop) : Prop where
  of_same : ∀ ⦃r s : Run⦄, s.scanner = r.scanner → s.log = r.log →
    s.endActionRan = r.endActionRan → R r s
  trans : ∀ ⦃r s t : Run⦄, R r s → R s t → R r t

/-- The law to leave a run so related to the one that an operation began with, whether it succeeds
or not. -/
abbrev Law.bridging (R : Run → Run → Prop) : Law where
  ok := R
  error r _ s := R r s
  fault r _ s := R r s

/-- What an operation leaves is so related to what it began with, whether it succeeds or not. -/
abbrev Bridges (R : Run → Run → Prop) {α : Type} (op : Op α) : Prop :=
  (Law.bridging R).Governs op

namespace Bridges

variable {α : Type} {R : Run → Run → Prop} {op : Op α}

lemma left (h : Bridges R op) (r : Run) : R r (Result.left (op r)) := by
  cases hrun : op r with
  | ok a s => exact (h r).ok hrun
  | error x s =>
    cases x with
    | error e => exact (h r).error hrun
    | fault f => exact (h r).fault hrun

lemma of_left (h : ∀ r, R r (Result.left (op r))) : Bridges R op := by
  refine fun r => ⟨fun a s hrun => ?_, fun e s hrun => ?_, fun f s hrun => ?_⟩ <;>
    simpa only [hrun, Result.left] using h r

lemma of_ok {a : α} (h : Bridges R op) (hrun : op r = .ok a s) : R r s :=
  (h r).ok hrun

lemma of_error {x : Failure Error} (h : Bridges R op) (hrun : op r = .error x s) : R r s := by
  have hleft := h.left r
  rwa [hrun] at hleft

end Bridges

namespace Lax

variable {R : Run → Run → Prop} [Lax R]

instance composes : (Law.bridging R).Composes where
  refl _ := of_same rfl rfl rfl
  ok _ _ _ h h' := trans (R := R) h h'
  error _ _ _ _ h h' := trans (R := R) h h'
  fault _ _ _ _ h h' := trans (R := R) h h'

variable (R) in
lemma handles : (Law.bridging R).Handles where
  forest _ _ := of_same rfl rfl rfl
  links _ _ _ := of_same rfl rfl rfl
  queue _ _ := of_same rfl rfl rfl
  mismatch _ _ _ := of_same rfl rfl rfl
  state _ _ := of_same rfl rfl rfl
  stack _ _ := of_same rfl rfl rfl
  aside _ _ := of_same rfl rfl rfl
  bindings _ _ := of_same rfl rfl rfl
  full _ _ := of_same rfl rfl rfl
  tells := ⟨fun _ _ => of_same rfl rfl rfl⟩

/-- Of what moves a run forward, only what is written down can be in the way. -/
lemma enters (hdecisions : (Law.bridging R).Writes Record.isDecision)
    (hboundaries : (Law.bridging R).Writes Record.isBoundary) : (Law.bridging R).Enters where
  toHandles := handles R
  point _ _ _ := of_same rfl rfl rfl
  decisions := hdecisions
  underflow _ _ _ _ := of_same rfl rfl rfl
  counts _ _ _ := of_same rfl rfl rfl
  steps _ _ := of_same rfl rfl rfl
  retry _ _ := of_same rfl rfl rfl
  rejecting _ _ := of_same rfl rfl rfl
  stopping _ _ := of_same rfl rfl rfl
  boundaries := hboundaries
  backtracks _ := of_same rfl rfl rfl
  halts _ _ _ := of_same rfl rfl rfl
  badEntry _ _ _ := of_same rfl rfl rfl
  refused _ := of_same rfl rfl rfl

lemma takesBack : (Law.bridging R).TakesBack where
  toRearranges := (handles R).toRearranges
  counts _ _ _ := of_same rfl rfl rfl

lemma settle : Bridges R (Run.settle m) :=
  (handles R).settle fun _ _ => of_same rfl rfl rfl

end Lax

/-! ## What spares the mark -/

/-- Whether a record tells of anything but the mark for the end of the input. -/
def Record.isUnmarked : Record → Bool
  | .endActionMarked _ => false
  | _ => true

/-- The mark and the content of the stream are the same, and nothing was written that tells of the
mark. -/
structure Spares (r s : Run) : Prop where
  ran : s.endActionRan = r.endActionRan
  content : s.content = r.content
  written : Written Record.isUnmarked r.log.records s

namespace Spares

lemma of_same (hscanner : s.scanner = r.scanner) (hlog : s.log = r.log)
    (hran : s.endActionRan = r.endActionRan) : Spares r s := by
  refine ⟨hran, ?_, ⟨[], ?_, nofun⟩⟩
  · rw [Run.content, hscanner, Run.content]
  · rw [hlog, List.nil_append]

lemma refl (r : Run) : Spares r r :=
  .of_same rfl rfl rfl

lemma trans (h : Spares r s) (h' : Spares s t) : Spares r t :=
  ⟨h'.ran.trans h.ran, h'.content.trans h.content, h.written.trans h'.written⟩

instance : Lax Spares where
  of_same _ _ := of_same
  trans _ _ _ := trans

lemma length_le (h : Spares r s) : r.log.length ≤ s.log.length := by
  obtain ⟨newer, hlog, -⟩ := h.written
  have hlength := congrArg List.length hlog
  rw [List.length_append] at hlength
  exact Nat.le_of_add_left_le (Nat.le_of_eq hlength.symm)

end Spares

/-- An operation that spares the mark. -/
abbrev Sparing {α : Type} (op : Op α) : Prop :=
  Bridges Spares op

namespace Spares

lemma write {record : Record} (h : record.isUnmarked = true) : Sparing (Op.write record) :=
  .modify fun _ => ⟨rfl, rfl, .of_append h rfl⟩

lemma scan (m : Machine) (region : RegionId) : Sparing (Op.scan m region) := by
  refine .of_left fun r => ?_
  have hcontent := Scanner.content_run m.scanner region r.scanner
  have hsame {scanner : Scanner}
      (h : scanner.stream.map Stream.content = r.scanner.stream.map Stream.content) :
      Spares r { r with scanner } := by
    refine ⟨rfl, ?_, .refl r⟩
    rw [Run.content, h, Run.content]
  unfold Op.scan onScanner
  cases hrun : Scanner.run m.scanner region r.scanner with
  | ok outcome scanner => exact hsame ((hcontent scanner).1 _ hrun)
  | error e scanner =>
    have hfailed := hsame ((hcontent scanner).2 _ hrun)
    cases e <;> exact hfailed

/-- Steps spare the mark, and so does entering a run. -/
lemma enters : (Law.bridging Spares).Enters := by
  refine Lax.enters ⟨fun record hkind _ => ?_⟩ ⟨fun record hkind _ => ?_⟩ <;>
    exact ⟨rfl, rfl, .of_append (by cases record <;> first | rfl | cases hkind) rfl⟩

lemma step (m : Machine) (id : NodeId) : Sparing (Run.step m id) :=
  fun r => enters.step (.of_faults (fun r _ => refl r) m r.state) id

end Spares

end Run

end Rewind
