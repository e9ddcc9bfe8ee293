import Rewind.Grammar.Tables
import Rewind.Run.Error
import Rewind.Run.Record

/-!
# Events of a run

A run tells what it does as it goes along.  The events are for whoever watches; the run itself
never looks at them.
-/

namespace Rewind.Run

/-- Something a run did. -/
inductive Event where
  /-- A token was found in a region, to be queued or set aside. -/
  | token (region : RegionId) (element : ElementId) (text : Bytes)
  /-- It was decided what to do in a state with a lookahead. -/
  | decided (state : StateId) (lookahead : ElementId) (decision : Grammar.Decision)
  /-- Control is given back. -/
  | suspended (status : Status)
  /-- An error arose, which may yet be mended by backtracking. -/
  | failed (e : Error)
  /-- A change is about to be taken back. -/
  | undone (record : Record)
  deriving DecidableEq, Repr

end Rewind.Run
