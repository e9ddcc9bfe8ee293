import Rewind.Run.State
import Rewind.Shape

/-!
# Snapshots

A `Snapshot` holds all that taking back has to restore, with every tree written out.  Two runs with
equal snapshots cannot be told apart by looking at what they hold, whatever slots their nodes are
in.
-/

namespace Rewind.Run

/-- An item of input, a tree written out. -/
inductive ItemShape where
  | byte (b : UInt8)
  | tree (shape : Shape) (ignore : Bool)
  deriving Repr

/-- What a run holds. -/
structure Snapshot where
  state : StateId
  steps : Nat
  /-- The stack, its top first. -/
  stack : List Shape
  queue : List Shape
  /-- The tokens set aside, in the order of the input. -/
  aside : List Shape
  bindings : List (VariableId × Shape)
  /-- The items at hand, if a stream is attached. -/
  input : Option (List ItemShape)
  position : Option Position
  live : Nat
  logLength : Nat
  retries : Nat
  endActionRan : Bool
  deriving Repr

/-- An item with its tree written out. -/
def itemShape (f : Forest) : Item → Except Fault ItemShape
  | .byte b => .ok (.byte b)
  | .tree id ignore => do return .tree (← f.shape id) ignore

/-- What a run holds now. -/
def snapshot (r : Run) : Except Fault Snapshot := do
  let f := r.forest
  let aside ← f.walk f.shape r.aside
  let stack ← f.walk f.shape r.stack
  let queue ← r.queue.mapM f.shape
  let bindings ← r.bindings.entries.mapM fun (name, id) => do return (name, ← f.shape id)
  let input ← match r.scanner.stream with
    | some stream => do pure (some (← stream.buffered.mapM (itemShape f)))
    | none => pure none
  return {
    state := r.state
    steps := r.steps
    stack
    queue
    aside := aside.reverse
    bindings
    input
    position := r.scanner.position?
    live := Pool.live f
    logLength := r.log.length
    retries := r.retries
    endActionRan := r.endActionRan }

end Rewind.Run
