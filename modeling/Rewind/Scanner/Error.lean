import Rewind.Escaped
import Rewind.Report
import Rewind.Scanner.Action
import Rewind.Stream

/-!
# Errors of a scanner

A scanner fails when it is used without a stream or with two, when its tables are malformed, and
when its stream cannot be read.
-/

namespace Rewind.Scanner

/-- What keeps a scanner from scanning. -/
inductive Error where
  | notAttached
  /-- There is a stream already; the other one is given back. -/
  | alreadyAttached (rejected : Stream)
  /-- The region has no state to begin in. -/
  | badRegion (region : RegionId)
  /-- There are not so many marks. -/
  | markSlot (slot : Nat)
  /-- A token was to end at a mark that this scan has not set. -/
  | unsetMark (slot : Nat)
  /-- The source of the stream failed. -/
  | unreadable (message : String)
  deriving DecidableEq, Repr

namespace Error

/-- The error in words. -/
def message : Error → String
  | notAttached => "no input stream is attached"
  | alreadyAttached _ => "an input stream is already attached"
  | badRegion region => s!"scanner region {region} has no entry state"
  | markSlot slot => s!"mark slot {slot} exceeds the limit of {markSlots} slots"
  | unsetMark slot => s!"token accepted at mark {quote (toString slot)} before it was set"
  | unreadable message => s!"failed to read input: {message}"

/-- The words of the failure behind the error, if there is one. -/
def cause? : Error → Option String
  | unreadable message => some message
  | _ => none

/-- What is to be said about the error. -/
def annotations : Error → List Annotation
  | unreadable _ => [⟨Span.unknown, .error, some "while reading input"⟩]
  | markSlot _ | unsetMark _ | badRegion _ =>
    [⟨Span.unknown, .internal, some "compiled scanner tables are malformed"⟩]
  | notAttached | alreadyAttached _ =>
    [⟨Span.unknown, .internal, some "scanner input was mismanaged"⟩]

def report (e : Error) : Report :=
  ⟨e.message, e.annotations⟩

end Error

end Rewind.Scanner
