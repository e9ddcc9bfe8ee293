import Rewind.Node
import Rewind.Pool

/-!
# Forests

A `Forest` is a pool of nodes.  Its operations follow the links between nodes: along a chain, down
to children, and to the ignored tokens in front of a node.  A link to a slot that holds no node is a
fault, and so is a chain that comes back to itself; a chain of distinct nodes is no longer than the
number of slots, which bounds the search for its end.
-/

namespace Rewind

/-- A pool of linked nodes. -/
abbrev Forest := Pool Node

namespace Forest

/-- Visits the nodes of a chain in order, with at most `fuel` of them.  The link to the next node is
read before the visit. -/
def walkUpTo {β : Type} (f : Forest) (visit : NodeId → Except Fault β) :
    (fuel : Nat) → Option NodeId → Except Fault (List β)
  | _, none => .ok []
  | 0, some id => .error (.endless id)
  | fuel + 1, some id => do
    let node ← f.read id
    let b ← visit id
    let rest ← walkUpTo f visit fuel node.next
    return b :: rest

/-- One more than the number of slots: a path of distinct nodes ends before. -/
def pathBound (f : Forest) : Nat :=
  f.slots.size + 1

/-- Visits the nodes of a chain in order. -/
def walk {β : Type} (f : Forest) (visit : NodeId → Except Fault β) (head : Option NodeId) :
    Except Fault (List β) :=
  f.walkUpTo visit f.pathBound head

/-- The nodes of a chain. -/
def chain (f : Forest) (head : Option NodeId) : Except Fault (List NodeId) :=
  f.walk .ok head

/-- The children of a node, left to right. -/
def children (f : Forest) (id : NodeId) : Except Fault (List NodeId) := do
  f.chain (← f.read id).child

/-- The ignored tokens in front of a node, in the order of the input. -/
def ignored (f : Forest) (id : NodeId) : Except Fault (List NodeId) := do
  return (← f.chain (← f.read id).ignored).reverse

/-- Releases the nodes of a stack, and in place of each its own children and ignored tokens, until
none is left.  A node that was released before is passed over. -/
def freeAll (f : Forest) : List NodeId → Except Fault Forest
  | [] => .ok f
  | id :: pending =>
    match _h : Pool.get? f id with
    | none => freeAll f pending
    | some node => do
      let g : Forest := Pool.vacate f id
      let children ← Forest.chain g node.child
      let ignored ← Forest.chain g node.ignored
      freeAll g (ignored.reverse ++ (children.reverse ++ pending))
  termination_by pending => (f.live, pending.length)
  decreasing_by
    · exact Prod.Lex.right _ (by simp)
    · exact Prod.Lex.left _ _ (by have := Pool.live_vacate _h; omega)

/-- Releases a node and everything below it.  Its neighbours in its own chain stay. -/
def freeTree (f : Forest) (id : NodeId) : Except Fault Forest :=
  f.freeAll [id]

end Forest

end Rewind
