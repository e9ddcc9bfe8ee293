import Rewind.Proofs.Invariants
import Rewind.Proofs.Laws

/-!
# What operations keep

An operation keeps a property of runs if the property holds afterwards whenever it held before.
That is a law, and so whoever looks into the small changes that operations are made of knows which
operations keep the property.
-/

namespace Rewind.Run

open Attempt Op

/-- A result of a run. -/
abbrev Result (α : Type) := EStateM.Result (Failure Error) Run α

/-- The run that is left, whether there is an answer or not. -/
def Result.left {α : Type} : Result α → Run
  | .ok _ s => s
  | .error _ s => s

/-- The answer, if there is one. -/
def Result.answer? {α : Type} : Result α → Option α
  | .ok a _ => some a
  | .error _ _ => none

lemma Result.eq_ok_left {α : Type} {x : Result α} {a : α} (h : Result.answer? x = some a) :
    x = .ok a (Result.left x) := by
  cases x <;> cases h
  rfl

/-- What holds of a run holds of it after the operation too, or something else if that fails. -/
abbrev Keeps (I J : Run → Prop) {α : Type} (op : Op α) : Prop :=
  (Law.keeping I J).Governs op

namespace Keeps

variable {α : Type} {I J : Run → Prop} {op : Op α} {r s : Run}

lemma ok {a : α} (h : Keeps I J op) (hr : I r) (hrun : op r = .ok a s) : I s :=
  (h r).ok hrun hr

lemma error {x : Failure Error} (h : Keeps I J op) (hr : I r) (hrun : op r = .error x s) : J s := by
  cases x with
  | error e => exact (h r).error hrun hr
  | fault f => exact (h r).fault hrun hr

lemma left (h : Keeps I I op) (hr : I r) : I (Result.left (op r)) := by
  cases hrun : op r with
  | ok a s => exact h.ok hr hrun
  | error e s => exact h.error hr hrun

lemma lasts (h : Keeps I I op) (hr : I r) (hlasts : Lasts op r s) : I s := by
  rcases hlasts with ⟨a, hrun⟩ | ⟨e, -, hrun⟩
  · exact h.ok hr hrun
  · exact h.error hr hrun

lemma intro (h : ∀ ⦃r : Run⦄, I r →
    (∀ ⦃a s⦄, op r = .ok a s → I s) ∧ ∀ ⦃x s⦄, op r = .error x s → J s) : Keeps I J op :=
  fun _ => ⟨fun _ _ hrun hr => (h hr).1 hrun, fun _ _ hrun hr => (h hr).2 hrun,
    fun _ _ hrun hr => (h hr).2 hrun⟩

lemma of_left (h : ∀ r, I r → I (Result.left (op r))) : Keeps I I op := by
  refine .intro fun r hr => ⟨fun a s hrun => ?_, fun x s hrun => ?_⟩ <;>
    simpa only [hrun, Result.left] using h r hr

lemma weaken (h : Keeps I I op) (hJ : ∀ ⦃r : Run⦄, I r → J r) : Keeps I J op :=
  .intro fun _ hr => ⟨fun _ _ hrun => h.ok hr hrun, fun _ _ hrun => hJ (h.error hr hrun)⟩

/-- A part of a run that is kept, whatever it is, is the same afterwards. -/
lemma part_eq {π : Type} {part : Run → π} {a : α}
    (h : ∀ c, Keeps (fun r => part r = c) (fun r => part r = c) op) (hrun : op r = .ok a s) :
    part s = part r :=
  (h (part r)).ok rfl hrun

/-- Stopping short keeps everything. -/
lemma fail (e : Error) : Keeps I I (Op.fail e : Op α) :=
  Law.Governs.fail fun _ hr => hr

lemma lookup (x : Except Fault α) : Keeps I I (Op.lookup x) :=
  Law.Governs.lookup fun _ _ _ hr => hr

lemma node (id : NodeId) : Keeps I I (Op.node id) :=
  .look fun _ => lookup _

lemma onScanner (h : ∀ r scanner, I r → I { r with scanner })
    (x : Attempt Scanner.Error Scanner α) : Keeps I I (Op.onScanner x) :=
  Law.Governs.onScanner h (fun r _ => h r) (fun r _ => h r) x

end Keeps

/-- A property of runs that has nothing to do with what the log tells of, but perhaps with the
number of steps, and with the source of the stream. -/
structure Inert (I : Run → Prop) : Prop where
  stream : ∀ {α : Type} (f : Stream → α × Stream), (∀ s, (f s).2.source = s.source) →
    Keeps I I (Op.onStream f)
  scan : ∀ m region, Keeps I I (Op.scan m region)
  forest : ∀ r forest, I r → I { r with forest }
  state : ∀ r state, I r → I { r with state }
  stack : ∀ r stack, I r → I { r with stack }
  queue : ∀ r queue, I r → I { r with queue }
  aside : ∀ r aside, I r → I { r with aside }
  log : ∀ r log, I r → I { r with log }
  bindings : ∀ r bindings, I r → I { r with bindings }
  counts : ∀ r barrier retries, I r → I { r with barrier, retries }
  endActionRan : ∀ r endActionRan, I r → I { r with endActionRan }
  events : ∀ r events, I r → I { r with events }

namespace Inert

variable {α : Type} {I J : Run → Prop} {m : Machine}

/-- A property of a part of a run that is neither of these is inert. -/
lemma of_parts {π : Type} {part : Run → π}
    (h : ∀ r scanner forest state stack queue aside log bindings barrier retries endActionRan
      events,
      part { r with
        scanner, forest, state, stack, queue, aside, log, bindings, barrier, retries, endActionRan
        events } = part r) (hI : ∀ r s, part s = part r → I r → I s) : Inert I where
  stream _ _ := .onScanner (fun r _ => hI _ _ (h r _ _ _ _ _ _ _ _ _ _ _ _)) _
  scan _ _ := .onScanner (fun r _ => hI _ _ (h r _ _ _ _ _ _ _ _ _ _ _ _)) _
  forest r _ := hI _ _ (h r _ _ _ _ _ _ _ _ _ _ _ _)
  state r _ := hI _ _ (h r _ _ _ _ _ _ _ _ _ _ _ _)
  stack r _ := hI _ _ (h r _ _ _ _ _ _ _ _ _ _ _ _)
  queue r _ := hI _ _ (h r _ _ _ _ _ _ _ _ _ _ _ _)
  aside r _ := hI _ _ (h r _ _ _ _ _ _ _ _ _ _ _ _)
  log r _ := hI _ _ (h r _ _ _ _ _ _ _ _ _ _ _ _)
  bindings r _ := hI _ _ (h r _ _ _ _ _ _ _ _ _ _ _ _)
  counts r _ _ := hI _ _ (h r _ _ _ _ _ _ _ _ _ _ _ _)
  endActionRan r _ := hI _ _ (h r _ _ _ _ _ _ _ _ _ _ _ _)
  events r _ := hI _ _ (h r _ _ _ _ _ _ _ _ _ _ _ _)

/-- Such a part itself is inert, whatever it is. -/
lemma of_part {π : Type} {part : Run → π}
    (h : ∀ r scanner forest state stack queue aside log bindings barrier retries endActionRan
      events,
      part { r with
        scanner, forest, state, stack, queue, aside, log, bindings, barrier, retries, endActionRan
        events } = part r) (c : π) : Inert fun r => part r = c :=
  of_parts h fun _ _ hs hr => hs.trans hr

variable (h : Inert I)

include h

lemma streams (hJ : ∀ ⦃r⦄, I r → J r) : (Law.keeping I J).Streams :=
  ⟨fun f hf => (h.stream f hf).weaken hJ⟩

lemma rearranges (hJ : ∀ ⦃r⦄, I r → J r) : (Law.keeping I J).Rearranges where
  forest := h.forest
  links _ _ _ hr := hJ hr
  queue := h.queue
  mismatch _ _ _ hr := hJ hr
  state := h.state
  stack := h.stack
  aside := h.aside
  bindings := h.bindings

lemma handles (hJ : ∀ ⦃r⦄, I r → J r) : (Law.keeping I J).Handles where
  toRearranges := h.rearranges hJ
  full _ _ hr := hJ hr
  tells := ⟨h.events⟩

lemma advances (hJ : ∀ ⦃r⦄, I r → J r) (hpoint : ∀ r point, I r → I { r with point }) :
    (Law.keeping I J).Advances m where
  toHandles := h.handles hJ
  streams := h.streams hJ
  endActionRan := h.endActionRan
  scan region := (h.scan m region).weaken hJ
  point r point _ := hpoint r point

lemma decides (hJ : ∀ ⦃r⦄, I r → J r) (hpoint : ∀ r point, I r → I { r with point }) :
    (Law.keeping I J).Decides where
  toHandles := h.handles hJ
  point r point _ := hpoint r point
  decisions := ⟨fun _ _ r hr => h.log r _ hr⟩
  underflow _ _ _ _ hr := hJ hr

lemma takesBack : (Law.keeping I I).TakesBack where
  toRearranges := h.rearranges fun _ hr => hr
  counts := h.counts

lemma writes (kind : Record → Bool) : (Law.keeping I J).Writes kind :=
  ⟨fun _ _ r hr => h.log r _ hr⟩

lemma obliges : (Law.keeping I I).Obliges where
  toHandles := h.handles fun _ hr => hr
  streams := h.streams fun _ hr => hr
  writes := h.writes _

lemma acquire (hpoint : ∀ r point, I r → I { r with point }) : Keeps I I (Run.acquire m) :=
  fun _ => (h.advances (fun _ hr => hr) hpoint).acquire (h.writes _) fun _ _ hr => hr

lemma act (hpoint : ∀ r point, I r → I { r with point }) (id : NodeId)
    (decision : Grammar.Decision) (target : StateId) (commits : Bool) :
    Keeps I I (Run.act m id decision target commits) :=
  (h.decides (fun _ hr => hr) hpoint).act (fun _ _ _ _ _ hr => hr) id target commits

/-- Of all records, only that of a completed step has to do with the number of steps. -/
lemma undo {record : Record}
    (hsteps : record = .stepEnded → ∀ r steps, I r → I { r with steps }) :
    Keeps I I (Run.undo record) :=
  h.takesBack.undo (fun _ => h.streams fun _ hr => hr) (fun _ _ r => h.endActionRan r _) hsteps

/-- A move back keeps such a property if what ends it does. -/
lemma unwind (hsteps : ∀ r steps, I r → I { r with steps }) {goal : Goal}
    (hsettle : ∀ r point, I r → I { r with halted := false, retry := 0, rejecting := false, point })
    (hretry : goal = .backtrack → ∀ r retry, I r → I { r with retry, point := .start })
    (records : List Record) : Keeps I I (Run.unwind m goal records) :=
  Law.Unwinds.unwind
    { toTakesBack := h.takesBack
      toTells := ⟨h.events⟩
      endActionRan := h.endActionRan
      settled := hsettle
      returned := hretry
      exhausted := fun _ _ _ hr => hr }
    (fun _ _ r => h.log r _) (fun _ _ _ => h.streams fun _ hr => hr) fun _ => hsteps

end Inert

/-- A property of runs that has nothing to do with where a run is either. -/
structure Aloof (I : Run → Prop) : Prop extends Inert I where
  point : ∀ r point, I r → I { r with point }
  steps : ∀ r steps, I r → I { r with steps }
  retry : ∀ r retry, I r → I { r with retry }
  rejecting : ∀ r rejecting, I r → I { r with rejecting }
  stopping : ∀ r stopping, I r → I { r with stopping }

section Aloof

variable {I J : Run → Prop} (h : Aloof I) (hJ : ∀ ⦃r⦄, I r → J r)
  (hhalts : ∀ r, I r → J { r with halted := true, retry := 0, point := .start })

include h hJ hhalts

/-- Whatever enters a run keeps such a property if halting does. -/
lemma Aloof.enters : (Law.keeping I J).Enters where
  toDecides := h.decides hJ h.point
  counts := h.counts
  steps := h.steps
  retry := h.retry
  rejecting := h.rejecting
  stopping := h.stopping
  boundaries := h.writes _
  backtracks r := h.point r _
  halts r _ _ hr := hhalts r hr
  badEntry _ _ _ hr := hJ hr
  refused _ hr := hJ hr

/-- Whatever moves a run forward does so, too. -/
lemma Aloof.forwards (m : Machine) : (Law.keeping I J).Forwards m :=
  { h.advances hJ h.point, h.enters hJ hhalts with inputs := h.writes _ }

end Aloof

/-- A property of runs that has nothing to do with what a turn changes. -/
structure Detached (I : Run → Prop) : Prop extends Aloof I where
  halted : ∀ r halted, I r → I { r with halted }

/-- What a turn keeps, any number of them keep. -/
lemma Keeps.takeTurns {m : Machine} {I J : Run → Prop} (h : Keeps I J (turn m))
    (hJ : ∀ ⦃r : Run⦄, I r → J r) (turns : Nat) : Keeps I J (takeTurns m turns) := by
  induction turns with
  | zero => exact (Keeps.lookup _).weaken hJ
  | succ turns ih =>
    refine h.bind fun a => ?_
    cases a with
    | none => exact ih
    | some status => exact Law.Governs.pure _

namespace Detached

variable {I : Run → Prop} {m : Machine} (h : Detached I)

include h

lemma halts (r : Run) (hr : I r) : I { r with halted := true, retry := 0, point := .start } :=
  h.point _ _ (h.retry { r with halted := true } _ (h.halted r _ hr))

lemma turns : (Law.keeping I I).Turns m where
  toForwards := h.forwards (fun _ hr => hr) h.halts m
  badEntry _ _ _ hr := hr
  refused _ hr := hr
  log := h.log
  settled r _ hr := h.point _ _ <| h.rejecting { r with halted := false, retry := 0 } _ <|
    h.retry { r with halted := false } _ (h.halted r _ hr)
  exhausted _ _ _ hr := hr

lemma turn : Keeps I I (Run.turn m) :=
  fun r => h.turns.turn fun _ => Law.serves_keeping (fun _ hr => hr) m r.state

lemma enter (entry : Entry) : Keeps I I (Run.enter m entry) :=
  (h.enters (fun _ hr => hr) h.halts).enter entry

lemma steady : Steady m I where
  enter _ _ entry hr hlasts := (h.enter entry).lasts hr hlasts
  turn _ _ hr hlasts := h.turn.lasts hr hlasts
  events r events hr := h.events r events hr

lemma resume (turns : Nat) (entry : Entry) : Keeps I I (Run.resume m turns entry) := by
  refine (h.enter entry).bind fun a => ?_
  cases a with
  | none => exact h.turn.takeTurns (fun _ hr => hr) turns
  | some status => exact .pure _

lemma goBack (target : Nat) : Keeps I I (Run.goBack m target) :=
  h.turns.goBack (fun _ hr => hr) (fun _ _ _ hr => hr) target

end Detached

/-- What guards an operation changes nothing but whether the run is aborted, and what it told. -/
lemma Keeps.unlessAborted {I : Run → Prop} {op : Op Status} (h : Keeps I I op)
    (hI : ∀ r aborted events, I r → I { r with aborted, events }) :
    Keeps I I (Run.unlessAborted op) :=
  fun r => .unlessAborted (fun _ => h r) (fun hr => hr)
    (fun s events hs hr => hI s s.aborted events (hs hr))
    fun _ s aborted events hs hr => hI s aborted events (hs hr)

/-- Only what guards a parse aborts a run. -/
lemma detached_alive : Detached fun r => r.aborted = false where
  toInert := .of_part (fun _ _ _ _ _ _ _ _ _ _ _ _ _ => rfl) false
  point _ _ h := h
  steps _ _ h := h
  retry _ _ h := h
  rejecting _ _ h := h
  stopping _ _ h := h
  halted _ _ h := h

end Rewind.Run
