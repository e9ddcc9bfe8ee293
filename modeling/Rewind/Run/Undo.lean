import Rewind.Run.Op

/-!
# Taking changes back

`undo` takes back the change that one record tells of.  It is exact when every later change has been
taken back before.  `unwind` takes records from the tail of the log, one after the other, until its
goal is reached or the caller has to take something back itself.
-/

namespace Rewind.Run

/-- What was taken back. -/
inductive TakenBack where
  /-- Nothing that anybody waits for. -/
  | plain
  /-- A decision that could have been another. -/
  | decision (alternative : Nat)
  /-- An action of the caller, who has to do the rest. -/
  | action (data : Bytes)
  deriving DecidableEq, Repr

open Op

/-- Takes back a decision. -/
def takeBackDecision (alternative : Nat) (more : Bool) : Op TakenBack := do
  if more then
    modify fun r => { r with retries := r.retries - 1 }
    return .decision alternative
  else
    return .plain

/-- Takes back a token: its text returns to the stream. -/
def unscan (id : NodeId) (start : Position) : Op Unit := do
  let text := match ← release id with
    | some node => node.text
    | none => []
  changeStream (·.putBack text start)

/-- Puts the children of a tree back on the stack. -/
def restack : List NodeId → Op Unit
  | [] => return
  | child :: rest => do
    let below := (← get).stack
    change child fun node => { node with next := below }
    modify fun r => { r with stack := some child }
    restack rest

/-- Takes back one change. -/
def undo : Record → Op TakenBack
  | .scanned id start => do
    takeBack id
    unscan id start
    return .plain
  | .setAside id start => do
    let next := (← node id).next
    modify fun r => { r with aside := next }
    unscan id start
    return .plain
  | .treeTaken id true => do
    let next := (← node id).next
    modify fun r => { r with aside := next }
    change id fun node => { node with next := none }
    changeStream (·.pushTree id true)
    return .plain
  | .treeTaken id false => do
    takeBack id
    changeStream (·.pushTree id false)
    return .plain
  | .consumed text start => do
    changeStream (·.putBack text start)
    return .plain
  | .sent id => do
    takeBack id
    releaseTree id
    return .plain
  | .textPushed count => do
    changeStream fun s => (s.pushback count).2
    return .plain
  | .treePushed id => do
    changeStream fun s => (s.pushback 1).2
    let _ ← release id
    return .plain
  | .shifted id previous ignored alternative more => do
    let below := (← node id).next
    modify fun r => { r with stack := below }
    change id fun node => { node with next := none, state := 0 }
    if ignored.isSome then
      change id fun node => { node with ignored := none }
      modify fun r => { r with aside := ignored }
    putFront id
    modify fun r => { r with state := previous }
    takeBackDecision alternative more
  | .reduced tree previous alternative more => do
    takeFront tree
    let children ← lookup ((← get).forest.children tree)
    restack children
    let _ ← release tree
    modify fun r => { r with state := previous }
    takeBackDecision alternative more
  | .bound name previous => do
    modify fun r => { r with bindings := r.bindings.restore name previous }
    return .plain
  | .dropped chain => do
    modify fun r => { r with aside := chain }
    return .plain
  | .committed previousBarrier previousRetries => do
    modify fun r => { r with barrier := previousBarrier, retries := previousRetries }
    return .plain
  | .endActionMarked previous => do
    modify fun r => { r with endActionRan := previous }
    return .plain
  | .action data => return .action data
  | .stepEnded => do
    modify fun r => { r with steps := r.steps - 1 }
    return .plain

/-- Whether a run is where a goal leads: between two steps, with as many of them completed as were
asked for.  A decision is no such place, so backtracking goes on until it meets one. -/
def atGoal (r : Run) : Goal → Bool
  | .step target =>
    r.steps = target && match r.log.last? with
      | none => true
      | some .stepEnded => true
      | some _ => false
  | .backtrack => false

/-- Goes on from the end of a step that was taken back to.  Whatever halted the run lies ahead. -/
def settle (m : Machine) : Op Status := do
  let reached ← lookup (atEnd m (← get))
  modify fun r => { r with
    halted := false
    retry := 0
    rejecting := false
    point := if reached then .done else .start }
  return .reverted (← get).steps

/-- The step a goal asks for; backtracking asks for none but those there are. -/
def goalSteps (r : Run) : Goal → Nat
  | .step target => target
  | .backtrack => r.steps

/-- Takes back the changes that the records tell of, which are those of the log.  The answer is a
status for the caller, or none if the run goes forward with another alternative. -/
def unwind (m : Machine) (goal : Goal) (records : List Record) : Op (Option Status) := do
  if atGoal (← get) goal then
    return some (← settle m)
  else
    match records with
    | [] =>
      let r ← get
      fail (.misuse (.undoPastStart (goalSteps r goal) r.steps))
    | record :: older =>
      modify fun r => { r with log := ⟨older⟩ }
      tell (.undone record)
      match ← undo record, goal with
      | .action data, _ => return some (.reverse data)
      | .decision alternative, .backtrack =>
        modify fun r => { r with retry := alternative + 1, point := .start }
        return none
      | _, _ => unwind m goal older

end Rewind.Run
