import Rewind.Vocabulary

/-!
# Scanner actions

While it reads a token, a scanner does things on the way: on a transition, on entering or leaving a
state, and at the end of the text.
-/

namespace Rewind.Scanner

/-- What a scanner can be told to do. -/
inductive Action where
  /-- The text read so far may be this token. -/
  | candidate (token : ElementId)
  /-- The text read so far is this token, and the scan is over. -/
  | accept (token : ElementId)
  /-- Remembers how far the scan has come. -/
  | mark (slot : Nat)
  /-- The text up to a mark is this token, and the scan is over. -/
  | acceptAtMark (slot : Nat) (token : ElementId)
  deriving DecidableEq, Repr

/-- The number of marks a scan can remember. -/
def markSlots : Nat := 32

end Rewind.Scanner
