import Rewind.Position
import Rewind.Vocabulary

/-!
# Records of a run

Everything a run changes is written down as a `Record`, from which the change can be taken back
once everything that came after it has been taken back.  A record therefore holds what the change
destroyed and nothing else.
-/

namespace Rewind.Run

/-- One change of a run. -/
inductive Record where
  /-- A token was scanned at a position, and queued. -/
  | scanned (node : NodeId) (start : Position)
  /-- A token was scanned at a position, and set aside. -/
  | setAside (node : NodeId) (start : Position)
  /-- A tree was taken from the stream, and queued or set aside. -/
  | treeTaken (node : NodeId) (ignore : Bool)
  /-- The text of a generation token was taken from the stream. -/
  | consumed (text : Bytes) (start : Position)
  /-- The caller made a token, and queued it. -/
  | sent (node : NodeId)
  /-- The caller pushed so many bytes onto the stream. -/
  | textPushed (count : Nat)
  /-- The caller pushed a tree onto the stream. -/
  | treePushed (node : NodeId)
  /-- The lookahead was shifted.  It took the tokens set aside, if `ignored` names any. -/
  | shifted (node : NodeId) (previous : StateId) (ignored : Option NodeId)
      (alternative : Nat) (more : Bool)
  /-- The top of the stack was reduced to a tree. -/
  | reduced (tree : NodeId) (previous : StateId) (alternative : Nat) (more : Bool)
  /-- A variable was bound that was bound before as told. -/
  | bound (name : VariableId) (previous : Option NodeId)
  /-- The tokens set aside were dropped. -/
  | dropped (chain : Option NodeId)
  /-- Backtracking to anything before was ruled out. -/
  | committed (previousBarrier previousRetries : Nat)
  /-- The mark that the action at the end of the input has run was changed. -/
  | endActionMarked (previous : Bool)
  /-- The caller acted, and left what it needs to take that back. -/
  | action (data : Bytes)
  /-- A step was completed. -/
  | stepEnded
  deriving DecidableEq, Repr

end Rewind.Run
