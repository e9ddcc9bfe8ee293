import Rewind.Bindings
import Rewind.Forest
import Rewind.Journal
import Rewind.Run.Event
import Rewind.Scanner

/-!
# The state of a run

A `Machine` is what a run is made from and never changes; a `Run` is everything that does change.
The stack, the tokens set aside and the trees are chains of nodes in one forest, and the run holds
their first nodes.
-/

namespace Rewind

/-- Compiled tables, and where to begin and end with them. -/
structure Machine where
  grammar : Grammar.Tables
  scanner : Scanner.Tables
  /-- The state of the empty stack. -/
  start : StateId := grammar.start
  /-- An element that ends the parse when it is alone on the stack. -/
  fragment : Option ElementId := none
  deriving DecidableEq, Repr

/-- A parse of one stream. -/
structure Run where
  scanner : Scanner := Scanner.detached
  forest : Forest
  state : StateId
  /-- The top of the stack. -/
  stack : Option NodeId := none
  /-- The lookahead, its next node first. -/
  queue : List NodeId := []
  /-- The newest of the ignored tokens that wait for a terminal. -/
  aside : Option NodeId := none
  log : Journal Run.Record := Journal.empty
  bindings : Bindings := Bindings.empty
  /-- The number of steps completed. -/
  steps : Nat := 0
  /-- The number of steps at which to pause. -/
  target : Option Nat := none
  /-- The number of decisions since the last commit that could have been others. -/
  retries : Nat := 0
  /-- The alternative to take at the next decision. -/
  retry : Nat := 0
  /-- The mark of the last commit. -/
  barrier : Nat := 0
  point : Run.Point := .start
  /-- The caller wants a stop after this step. -/
  stopping : Bool := false
  /-- There was an error in the input. -/
  halted : Bool := false
  /-- There was a fatal error. -/
  aborted : Bool := false
  /-- The caller rejects the reduction that waits for it. -/
  rejecting : Bool := false
  /-- The action at the end of the input has run, and nothing was taken from the stream since. -/
  endActionRan : Bool := false
  /-- What happened, the latest event first. -/
  events : List Run.Event := []
  deriving DecidableEq, Repr

namespace Run

/-- A run before its first step. -/
def initial (m : Machine) (forest : Forest) (target : Option Nat) : Run :=
  { forest, state := m.start, target }

/-- The position of the stream; without a stream, the beginning. -/
def position (r : Run) : Position :=
  r.scanner.position?.getD Position.start

/-- Whether the parse is at its end: the end of the input is on the stack, or the element looked for
is alone there. -/
def atEnd (m : Machine) (r : Run) : Except Fault Bool :=
  match r.stack with
  | none => .ok false
  | some top => do
    let node ← r.forest.read top
    return node.element = m.grammar.eof ∨ (m.fragment = some node.element ∧ node.next = none)

end Run

end Rewind
