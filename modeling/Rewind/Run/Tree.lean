import Rewind.Run.State

/-!
# The tree of a run

What a run has parsed is a tree: the node beneath the end of the input, or the element looked for.
Trees are written by the names of their elements.
-/

namespace Rewind

namespace Forest

/-- A tree of at most the given height in words: a token by its name, and a tree by its name and its
children in brackets. -/
def renderUpTo (f : Forest) (name : ElementId → String) : (height : Nat) → NodeId →
    Except Fault String
  | 0, id => .error (.endless id)
  | height + 1, id => do
    let node ← f.read id
    match node.production with
    | none => return name node.element
    | some _ =>
      let children ← f.walk (renderUpTo f name height) node.child
      return name node.element ++ "(" ++ " ".intercalate children ++ ")"

/-- A tree in words. -/
def render (f : Forest) (name : ElementId → String) (id : NodeId) : Except Fault String :=
  f.renderUpTo name f.pathBound id

end Forest

namespace Run

/-- The tree parsed, once the run is done. -/
def root (m : Machine) (r : Run) : Except Fault (Option NodeId) :=
  match r.point, r.stack with
  | .done, some top => do
    let node ← r.forest.read top
    return if node.element = m.grammar.eof then node.next else some top
  | _, _ => .ok none

/-- A tree of the run in words. -/
def render (m : Machine) (r : Run) (id : NodeId) : Except Fault String :=
  Forest.render r.forest m.grammar.name id

end Run

end Rewind
