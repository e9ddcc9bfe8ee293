import Rewind.Forest

/-!
# Shapes of trees

A `Shape` is a tree written out: the node, its children and its ignored tokens, without the slots
that hold them.  Two trees of one shape are the same tree to everyone who does not ask for slots.
-/

namespace Rewind

/-- A node with everything below it. -/
structure Shape where
  element : ElementId
  production : Option ProductionId
  text : Bytes
  span : Span
  state : StateId
  artificial : Bool
  children : List Shape
  /-- The ignored tokens in front, in the order of the input. -/
  ignored : List Shape
  deriving Repr

namespace Forest

/-- The shape of a tree of at most the given height.  Children are followed one after the other,
each to its leaves before the link to the next. -/
def shapeUpTo (f : Forest) : (height : Nat) → NodeId → Except Fault Shape
  | 0, id => .error (.endless id)
  | height + 1, id => do
    let node ← f.read id
    let children ← f.walk (shapeUpTo f height) node.child
    let ignored ← (← f.chain node.ignored).reverse.mapM (shapeUpTo f height)
    return {
      element := node.element
      production := node.production
      text := node.text
      span := node.span
      state := node.state
      artificial := node.artificial
      children
      ignored }

/-- The shape of a tree. -/
def shape (f : Forest) (id : NodeId) : Except Fault Shape :=
  f.shapeUpTo f.pathBound id

end Forest

end Rewind
