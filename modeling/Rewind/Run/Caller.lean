import Rewind.Run.Undo

/-!
# What callers do with a run

While a run waits, its caller may put more in front of it, bind variables, reject the reduction that
waits, and leave data that takes back what the caller did elsewhere.  All of it is written to the
log, and is taken back with the rest.
-/

namespace Rewind.Run

open Op

/-- Attaches the stream to be parsed. -/
def attach (stream : Stream) : Op Unit :=
  onScanner (Scanner.attach stream)

/-- Takes the stream away.  What was acquired from it stays. -/
def detach : Op Stream :=
  onScanner Scanner.detach

/-- Puts text in front of the stream. -/
def pushText (text : Bytes) : Op Unit := do
  if text ≠ [] then
    changeStream (·.pushText text)
    write (.textPushed text.length)

/-- Puts a tree in front of the stream, to be read as one token or to be set aside. -/
def pushTree (tree : Node) (ignore : Bool) : Op NodeId := do
  changeStream id
  let slot ← alloc tree
  changeStream (·.pushTree slot ignore)
  write (.treePushed slot)
  return slot

/-- Binds a variable to a node. -/
def bind (name : VariableId) (id : NodeId) : Op Unit := do
  write (.bound name ((← get).bindings.get? name))
  modify fun r => { r with bindings := r.bindings.insert name id }

/-- Makes a token and queues it as lookahead. -/
def queueToken (element : ElementId) (text : Bytes) (name : Option VariableId) : Op NodeId := do
  let id ← alloc (Node.fabricated element text)
  putBack id
  write (.sent id)
  if let some name := name then bind name id
  return id

/-- Leaves data, to be given back when this moment is taken back. -/
def leaveData (data : Bytes) : Op Unit :=
  write (.action data)

/-- Drops the tokens set aside. -/
def dropAside : Op Unit := do
  write (.dropped (← get).aside)
  modify fun r => { r with aside := none }

/-- Rejects the reduction that waits. -/
def reject : Attempt Misuse Run Unit := fun r =>
  match r.point with
  | .reduction _ _ => .ok () { r with rejecting := true }
  | _ => .error (.error .rejectOutsideReduction) r

/-- Asks for a stop at the end of the step. -/
def stop (r : Run) : Run :=
  { r with stopping := true }

/-- Asks for a pause after so many steps in all. -/
def pauseAt (target : Option Nat) (r : Run) : Run :=
  { r with target }

/-- The chain that a record keeps from being released. -/
def Record.dropped? : Record → Option NodeId
  | .dropped chain => chain
  | _ => none

/-- Releases the nodes of a chain and everything below them. -/
def releaseChain (f : Forest) (head : NodeId) : Except Fault Forest := do
  (← f.chain (some head)).foldlM Forest.freeTree f

/-- Gives up the log: nothing done so far can be taken back.  Dropped tokens, which only the log
still knew of, are released. -/
def giveUpLog : Op Unit := do
  let r ← get
  let forest ← lookup ((r.log.records.filterMap Record.dropped?).foldlM releaseChain r.forest)
  modify fun r => { r with log := Journal.empty, forest, barrier := 0, retries := 0 }

/-- Takes out the events told since they were last taken out, the oldest first. -/
def takeEvents (r : Run) : List Event × Run :=
  (r.events.reverse, { r with events := [] })

end Rewind.Run
