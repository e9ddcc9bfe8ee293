import Rewind.Pool
import Rewind.Run.Point
import Rewind.Scanner.Error

/-!
# Errors of a run

Some errors lie in the input: a text that is no token, a token that has no place, a tree that the
caller rejected.  They halt the run, which can still be looked at and taken back.  The others are
fatal: the tables, the caller or the surroundings are at fault, and the run is over.
-/

namespace Rewind.Run

/-- What must not happen while tables are sound and callers keep to the rules. -/
inductive Misuse where
  /-- A production needs more elements than the stack holds. -/
  | stackUnderflow (production : ProductionId) (needed found : Nat)
  /-- Nothing is left to take back, and the step asked for is not reached. -/
  | undoPastStart (target steps : Nat)
  /-- The step asked for lies ahead. -/
  | undoForward (target steps : Nat)
  /-- The run does not wait for this entry. -/
  | badEntry (entry : Entry) (point : Point)
  /-- The queue has another node where one was expected. -/
  | queueMismatch (expected : NodeId) (found : Option NodeId)
  /-- No reduction is waiting to be rejected. -/
  | rejectOutsideReduction
  deriving DecidableEq, Repr

namespace Misuse

/-- The error in words. -/
def message : Misuse → String
  | stackUnderflow production needed found =>
    s!"production {production} reduces {needed} elements but the stack holds only {found}"
  | undoPastStart target steps =>
    s!"cannot undo to step {target} from step {steps}: reverse log exhausted"
  | undoForward target steps =>
    s!"cannot undo to step {target}, which is beyond the current step {steps}"
  | badEntry entry point =>
    s!"parser entered at {quote entry.render} while suspended at {quote point.render}"
  | queueMismatch expected (some found) =>
    s!"expected node {renderNode expected} at the head of the lookahead queue, " ++
      s!"but found {renderNode found}"
  | queueMismatch expected none =>
    s!"expected node {renderNode expected} in the lookahead queue, but the queue is empty"
  | rejectOutsideReduction => "reduction rejected outside of a reduction action"

/-- What is to be said about the error. -/
def label : Misuse → String
  | stackUnderflow .. | queueMismatch .. => "compiled parser tables are inconsistent"
  | undoPastStart .. => "the requested step was committed and can no longer be undone"
  | undoForward .. | badEntry .. => "the parser was driven out of order"
  | rejectOutsideReduction => "only a reduction action may reject its reduction"

def report (e : Misuse) : Report :=
  ⟨e.message, [⟨Span.unknown, .internal, some e.label⟩]⟩

end Misuse

/-- What ends a call of a run without a status. -/
inductive Error where
  /-- No token of the state's regions begins here. -/
  | lexical (region : RegionId) (position : Position)
  /-- The state has no action for the token. -/
  | unexpected (token : ElementId) (state : StateId) (span : Span)
  /-- The caller rejected a reduction, and nothing else was left to try. -/
  | rejected (production : ProductionId) (span : Span)
  /-- There was an error in the input before. -/
  | halted
  /-- There was a fatal error before. -/
  | aborted
  | misuse (e : Misuse)
  | alloc (e : AllocError)
  | scan (e : Scanner.Error)
  deriving DecidableEq, Repr

namespace Error

/-- Whether the run is over. -/
def isFatal : Error → Bool
  | misuse _ | alloc _ | scan _ => true
  | _ => false

/-- The error in words. -/
def message : Error → String
  | lexical region position =>
    s!"no token of region {region} matches input at {position.render}"
  | unexpected token state _ =>
    s!"unexpected token {quote (toString token)} in state {state}"
  | rejected production _ => s!"reduction by production {production} was rejected"
  | halted => "parser halted on a previous parse error"
  | aborted => "parser aborted on a previous fatal error"
  | misuse e => e.message
  | alloc e => e.message
  | scan e => e.message

/-- The words of the error behind this one, if there is one. -/
def cause? : Error → Option String
  | misuse e => some e.message
  | alloc e => some e.message
  | scan e => some e.message
  | _ => none

/-- What is to be said about the error. -/
def annotations : Error → List Annotation
  | lexical _ position => [⟨⟨position, 0⟩, .error, some "unrecognized input begins here"⟩]
  | unexpected _ _ span => [
    ⟨span, .error, some "this token is not expected here"⟩,
    ⟨span, .help, some "no remaining alternative derivation accepts it"⟩]
  | rejected _ span => [⟨span, .error, some "a semantic check rejected this construct"⟩]
  | halted => [
    ⟨Span.unknown, .error, some "parsing cannot continue past a parse error"⟩,
    .advice "roll the parser back to an earlier step first"]
  | aborted => [⟨Span.unknown, .internal, some "parser state is no longer consistent"⟩]
  | misuse e => e.report.annotations
  | alloc e => e.report.annotations
  | scan e => e.annotations

def report (e : Error) : Report :=
  ⟨e.message, e.annotations⟩

end Error

end Rewind.Run
