import Rewind.Run.State

/-!
# Operations of a run

An operation changes a run, and may stop short with an error or a fault; what it changed by then
stays changed.  The small operations here change one part of a run each.  Those that have to be
taken back one day are put together from them, and write to the log what taking them back needs.
-/

namespace Rewind.Run

/-- An operation of a run. -/
abbrev Op (α : Type) := Attempt Error Run α

namespace Op

/-- Stops with an error. -/
def fail {α : Type} (e : Error) : Op α :=
  throw (.error e)

/-- Looks something up. -/
def lookup {α : Type} (x : Except Fault α) : Op α :=
  Attempt.lift x

/-- Tells what happened. -/
def tell (event : Event) : Op Unit :=
  modify fun r => { r with events := event :: r.events }

/-- Writes down a change. -/
def write (record : Record) : Op Unit :=
  modify fun r => { r with log := r.log.append record }

/-- Does something with the scanner. -/
def onScanner {α : Type} (x : Attempt Scanner.Error Scanner α) : Op α := fun r =>
  match x r.scanner with
  | .ok a scanner => .ok a { r with scanner }
  | .error (.error e) scanner => .error (.error (.scan e)) { r with scanner }
  | .error (.fault f) scanner => .error (.fault f) { r with scanner }

/-- Does something to the stream. -/
def onStream {α : Type} (f : Stream → α × Stream) : Op α :=
  onScanner (Scanner.onStream f)

/-- Changes the stream. -/
def changeStream (f : Stream → Stream) : Op Unit :=
  onStream fun s => ((), f s)

/-- Scans the front of the stream for a token of a region. -/
def scan (m : Machine) (region : RegionId) : Op Scanner.Outcome :=
  onScanner (Scanner.run m.scanner region)

/-- The node in a slot. -/
def node (id : NodeId) : Op Node := do
  lookup ((← get).forest.read id)

/-- Changes the node in a slot. -/
def change (id : NodeId) (f : Node → Node) : Op Unit := fun r =>
  match r.forest.get? id with
  | some node => .ok () { r with forest := r.forest.put id (f node) }
  | none => .error (.fault (.deadSlot id)) r

/-- Gives a node a slot. -/
def alloc (node : Node) : Op NodeId := fun r =>
  match r.forest.alloc node with
  | (.ok id, forest) => .ok id { r with forest }
  | (.error e, forest) => .error (.error (.alloc e)) { r with forest }

/-- Releases a slot and hands out its node, if it held one. -/
def release (id : NodeId) : Op (Option Node) := fun r =>
  match r.forest.get? id with
  | some node => .ok (some node) { r with forest := r.forest.vacate id }
  | none => .ok none r

/-- Releases a node and everything below it. -/
def releaseTree (id : NodeId) : Op Unit := fun r =>
  match Forest.freeTree r.forest id with
  | .ok forest => .ok () { r with forest }
  | .error e => .error (.fault e) r

/-! ## The queue and the tokens set aside -/

/-- Puts a node behind the lookahead. -/
def putBack (id : NodeId) : Op Unit :=
  modify fun r => { r with queue := r.queue ++ [id] }

/-- Puts a node in front of the lookahead. -/
def putFront (id : NodeId) : Op Unit :=
  modify fun r => { r with queue := id :: r.queue }

/-- Takes a node from the front of the lookahead, where it has to be. -/
def takeFront (id : NodeId) : Op Unit := do
  let queue := (← get).queue
  if queue.head? = some id then
    modify fun r => { r with queue := queue.tail }
  else
    fail (.misuse (.queueMismatch id queue.head?))

/-- Takes a node from the back of the lookahead, where it has to be. -/
def takeBack (id : NodeId) : Op Unit := do
  let queue := (← get).queue
  if queue.getLast? = some id then
    modify fun r => { r with queue := queue.dropLast }
  else
    fail (.misuse (.queueMismatch id queue.getLast?))

/-- Sets a node aside, for the next terminal to carry. -/
def setAside (id : NodeId) : Op Unit := do
  let previous := (← get).aside
  change id fun node => { node with next := previous }
  modify fun r => { r with aside := some id }

end Op

end Rewind.Run
