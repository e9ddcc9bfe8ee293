import Rewind.Span
import Rewind.Vocabulary

/-!
# Nodes

Tokens and the trees made of them are nodes.  A node names other nodes by their slots: its first
child, the newest of the ignored tokens in front of it, and the next node of the one chain it is
in.  Which chain that is depends on where the node is:

* on the parse stack, the next node is the one below;
* among the children of a tree, it is the sibling to the right;
* among ignored tokens, it is the token ignored before.
-/

namespace Rewind

/-- A token or a tree. -/
structure Node where
  element : ElementId
  /-- The production that made the tree; a token has none. -/
  production : Option ProductionId := none
  text : Bytes := []
  span : Span := Span.unknown
  child : Option NodeId := none
  next : Option NodeId := none
  /-- The newest of the ignored tokens in front. -/
  ignored : Option NodeId := none
  /-- The state entered when the node was put on the stack. -/
  state : StateId := 0
  /-- Whether the caller made the node. -/
  artificial : Bool := false
  deriving DecidableEq, Repr

namespace Node

/-- A token of the input. -/
def token (element : ElementId) (text : Bytes) (span : Span) : Node :=
  { element, text, span }

/-- A token that comes from no input. -/
def fabricated (element : ElementId) (text : Bytes) : Node :=
  { element, text, artificial := true }

/-- A tree whose children begin at `child`. -/
def reduced (element : ElementId) (production : ProductionId) (child : Option NodeId)
    (span : Span) : Node :=
  { element, production := some production, child, span }

end Node

end Rewind
