import Rewind.Run.Acquire

/-!
# Steps

A step is a shift, a reduction, or both at once, as the tables say for the state and the lookahead.
Where they leave a choice, the alternative taken is noted in the log, and how many choices are left
open is counted.  A step that commits closes them all.

When nothing can be done, the run turns back to the last choice left open; if there is none, it
halts with the error.
-/

namespace Rewind.Run

open Op

/-! ## Shifting and reducing -/

/-- Moves the lookahead to the stack.  A terminal without ignored tokens of its own takes those set
aside. -/
def shift (m : Machine) (id : NodeId) (target : StateId) (alternative : Nat) (more : Bool) :
    Op Unit := do
  takeFront id
  let lookahead ← node id
  let below := (← get).stack
  let aside := (← get).aside
  let previous := (← get).state
  let ignored :=
    if lookahead.ignored.isNone ∧ m.grammar.isTerminal lookahead.element then aside else none
  if ignored.isSome then
    modify fun r => { r with aside := none }
    change id fun node => { node with ignored }
  change id fun node => { node with state := target, next := below }
  modify fun r => { r with stack := some id }
  write (.shifted id previous ignored alternative more)
  modify fun r => { r with state := target }

/-- Takes the `needed` topmost nodes of a stack, beginning with the top.  The answer is the nodes
from left to right, in front of those in `taken`, and the stack below; or how many nodes there were,
if they are too few. -/
def unstack (f : Forest) : (needed : Nat) → (top : Option NodeId) → (taken : List NodeId) →
    Except Fault (Except Nat (List NodeId × Option NodeId))
  | 0, top, taken => .ok (.ok (taken, top))
  | _ + 1, none, taken => .ok (.error taken.length)
  | needed + 1, some id, taken => do
    let node ← f.read id
    unstack f needed node.next (id :: taken)

/-- Links nodes into a chain of siblings. -/
def linkSiblings : List NodeId → Op Unit
  | [] => return
  | id :: rest => do
    change id fun node => { node with next := rest.head? }
    linkSiblings rest

/-- The span that covers nodes. -/
def spanOf (f : Forest) (ids : List NodeId) : Except Fault Span :=
  ids.foldlM (fun span id => do return span.merge (← f.read id).span) Span.unknown

/-- The state of a stack. -/
def stateOf (m : Machine) (f : Forest) : Option NodeId → Except Fault StateId
  | some top => do return (← f.read top).state
  | none => .ok m.start

/-- Replaces the top of the stack by a tree, which becomes the lookahead.  The caller may have to
act on it. -/
def reduce (m : Machine) (production : ProductionId) (alternative : Nat) (more commits : Bool) :
    Op (Option Status) := do
  let info ← lookup (entry m.grammar.productions production)
  let previous := (← get).state
  match ← lookup (unstack (← get).forest info.length (← get).stack []) with
  | .error found => fail (.misuse (.stackUnderflow production info.length found))
  | .ok (children, below) =>
    let span ← lookup (spanOf (← get).forest children)
    let tree ← alloc (Node.reduced info.lhs production children.head? span)
    linkSiblings children
    let state ← lookup (stateOf m (← get).forest below)
    modify fun r => { r with stack := below, state }
    putFront tree
    write (.reduced tree previous alternative more)
    if info.hasAction then
      modify fun r => { r with point := .reduction production commits }
      return some (.reduction production tree children)
    else
      return none

/-! ## Ends of steps -/

/-- Rules out backtracking to anything done so far. -/
def commit : Op Unit := do
  let r ← get
  write (.committed r.barrier r.retries)
  modify fun r => { r with barrier := r.log.mark, retries := 0 }

/-- Completes a step, which commits or not.  The answer is a status if control is to be given
back. -/
def completeStep (m : Machine) (commits : Bool) : Op (Option Status) := do
  if commits then commit
  write .stepEnded
  modify fun r => { r with steps := r.steps + 1 }
  let r ← get
  if ← lookup (atEnd m r) then
    modify fun r => { r with point := .done }
    return some .done
  else if r.stopping then
    modify fun r => { r with stopping := false }
    return some .stopped
  else if r.target = some r.steps then
    return some .paused
  else
    return none

/-- Turns back to the last decision that could have been another, or halts. -/
def turnBack (e : Error) : Op Unit := do
  tell (.failed e)
  if 0 < (← get).retries then
    modify fun r => { r with point := .reverse .backtrack }
  else
    modify fun r => { r with halted := true, retry := 0, point := .start }
    Op.fail e

/-! ## Going forward -/

/-- Does what was decided. -/
def act (m : Machine) (id : NodeId) (decision : Grammar.Decision) (target : StateId)
    (commits : Bool) : Op (Option Status) :=
  match decision.action with
  | .shift => do
    shift m id target decision.alternative decision.more
    return none
  | .reduce production => reduce m production decision.alternative decision.more commits
  | .shiftReduce production => do
    shift m id target decision.alternative decision.more
    reduce m production 0 false commits

/-- Decides what to do with the lookahead, and does it. -/
def step (m : Machine) (id : NodeId) : Op (Option Status) := do
  let lookahead ← node id
  let r ← get
  match ← lookup (m.grammar.decide r.state lookahead.element r.retry) with
  | none =>
    turnBack (.unexpected lookahead.element r.state lookahead.span)
    return none
  | some decision =>
    tell (.decided r.state lookahead.element decision)
    modify fun r => { r with
      retry := 0
      retries := if decision.more then r.retries + 1 else r.retries }
    let commits := (← lookup (entry m.grammar.commits decision.transition)) ≠ 0
    let target ← lookup (entry m.grammar.targets decision.transition)
    match ← act m id decision target commits with
    | some status => return some status
    | none => completeStep m commits

/-- Goes forward: by a step if there is a lookahead, or towards a lookahead. -/
def goForward (m : Machine) : Op (Option Status) := do
  match (← get).queue with
  | id :: _ => step m id
  | [] =>
    match ← acquire m with
    | .queued => return none
    | .skipped => return none
    | .suspended status => return some status
    | .noToken region =>
      turnBack (.lexical region (← get).position)
      return none

end Rewind.Run
