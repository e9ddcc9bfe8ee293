import Rewind.Run.Step
import Rewind.Run.Undo

/-!
# Parsing and undoing

`turn` is one move of a run, forward or back, and `takeTurns` repeats it until control is to be
given back.  Nothing bounds the number of turns a grammar may take, so `takeTurns` is told how many
of them it may use; an answer it has given does not change when it is allowed more.

`parse` and `undoTo` are what callers use.  Once either has failed with a fatal error, both refuse
to do anything.
-/

namespace Rewind.Run

open Op

/-- One move.  The answer is a status if control is to be given back. -/
def turn (m : Machine) : Op (Option Status) := do
  let r ← get
  match r.point with
  | .start => goForward m
  | .reverse goal => unwind m goal r.log.records
  | .done => return some .done
  | point => fail (.misuse (.badEntry .start point))

/-- Moves until control is to be given back. -/
def takeTurns (m : Machine) : (turns : Nat) → Op Status
  | 0 => lookup (.error .unfinished)
  | turns + 1 => do
    match ← turn m with
    | some status => return status
    | none => takeTurns m turns

/-- The span of the tree in front of the lookahead. -/
def frontSpan : Op Span := do
  match (← get).queue with
  | tree :: _ => return (← node tree).span
  | [] => return Span.unknown

/-- Goes on from a reduction on which the caller has acted.  The answer is a status if control is to
be given back at once. -/
def resumeReduction (m : Machine) (production : ProductionId) (commits : Bool) :
    Op (Option Status) := do
  modify fun r => { r with point := .start }
  if (← get).rejecting then
    modify fun r => { r with rejecting := false }
    turnBack (.rejected production (← frontSpan))
    return none
  else
    completeStep m commits

/-- Enters a run where it waits, if it waits for this entry.  A halted run waits for nothing but the
caller to take something back.  The answer is a status if control is to be given back at once. -/
def enter (m : Machine) (entry : Entry) : Op (Option Status) := do
  let r ← get
  match entry, r.point with
  | .start, .done => return some .done
  | .reverse, .reverse _ => return none
  | entry, point =>
    if r.halted then fail .halted
    else
      match entry, point with
      | .start, .start => return none
      | .reduction, .reduction production commits => resumeReduction m production commits
      | .generation, .generation | .preEof, .preEof =>
        modify fun r => { r with point := .start }
        return none
      | entry, point => fail (.misuse (.badEntry entry point))

/-- Goes on from where the run waits until control is to be given back. -/
def resume (m : Machine) (turns : Nat) (entry : Entry) : Op Status := do
  match ← enter m entry with
  | some status => return status
  | none => takeTurns m turns

/-- Does nothing once the run is aborted, and aborts it when the operation fails with a fatal
error. -/
def unlessAborted (op : Op Status) : Op Status := fun r =>
  if r.aborted then .error (.error .aborted) r
  else
    match op r with
    | .ok status s => .ok status { s with events := .suspended status :: s.events }
    | .error (.error e) s =>
      if e.isFatal then
        .error (.error e) { s with aborted := true, events := .failed e :: s.events }
      else
        .error (.error e) s
    | .error (.fault f) s => .error (.fault f) s

/-- Parses on, from where the run waits until it gives control back. -/
def parse (m : Machine) (turns : Nat) (entry : Entry) : Op Status :=
  unlessAborted (resume m turns entry)

/-- Goes back to where so many steps were completed.  Undoing to a step never goes forward, so a
single turn is enough. -/
def goBack (m : Machine) (target : Nat) : Op Status := do
  let r ← get
  if r.steps < target then
    fail (.misuse (.undoForward target r.steps))
  else
    match r.point with
    | .reverse goal => fail (.misuse (.badEntry .reverse (.reverse goal)))
    | _ =>
      modify fun r => { r with point := .reverse (.step target) }
      takeTurns m 1

/-- Takes everything back that happened since so many steps were completed. -/
def undoTo (m : Machine) (target : Nat) : Op Status :=
  unlessAborted (goBack m target)

end Rewind.Run
