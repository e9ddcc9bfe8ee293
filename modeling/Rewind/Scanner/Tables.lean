import Rewind.Fault
import Rewind.Scanner.Action

/-!
# Scanner tables

The transitions of a state are stored with their keys packed into one array.  From the state's
offset on there are first its single keys, in increasing order, and then the two ends of each of
its ranges, also in increasing order.  Its transitions are numbered in the same order from the
state's first one on; behind them comes one more for every byte that none of the keys covers.

A list of actions is stored as its length followed by the indices of its actions.  Offset zero is
the empty list.
-/

namespace Rewind.Scanner

/-- The tables of a compiled scanner. -/
structure Tables where
  /-- Lists of actions, each its length and then its indices into `actions`. -/
  lists : Array Nat
  /-- Where the keys of a state begin. -/
  keyOffsets : Array Nat
  keys : Array UInt8
  /-- How many single keys a state has. -/
  singles : Array Nat
  /-- How many ranges a state has. -/
  ranges : Array Nat
  /-- The first transition of a state. -/
  transitions : Array Nat
  /-- The state a transition enters. -/
  targets : Array StateId
  /-- The list of a transition. -/
  onTransition : Array Nat
  /-- The list of a state, run on arriving in it. -/
  onArrival : Array Nat
  /-- The list of a state, run before the next byte is looked at. -/
  onDeparture : Array Nat
  /-- The list of a state, run when the text ends in it. -/
  onEnd : Array Nat
  /-- The state in which the scan of a region begins. -/
  entries : Array StateId
  actions : Array Action
  states : Nat
  start : StateId
  /-- From this one on, states are final. -/
  firstFinal : StateId
  /-- The state from which no token can be reached. -/
  dead : StateId
  deriving DecidableEq, Repr

namespace Tables

/-- Whether a token may end in a state. -/
def isFinal (t : Tables) (state : StateId) : Bool :=
  t.firstFinal ≤ state

/-! ## Searching keys -/

/-- Among `size` sorted keys from `base` on, the last one that is not above `key`.  Half of the keys
are put aside each time. -/
def lastAtMost (keys : Array UInt8) (key : UInt8) (base size : Nat) : Nat :=
  if size ≤ 1 then base
  else
    lastAtMost keys key
      (if keys.getD (base + size / 2) 0 ≤ key then base + size / 2 else base)
      (size - size / 2)
  termination_by size

/-- The index of a key among sorted keys. -/
def indexOf? (keys : Array UInt8) (key : UInt8) : Option Nat :=
  let i := lastAtMost keys key 0 keys.size
  if keys[i]? = some key then some i else none

/-- Among the sorted ranges from `low` up to `high`, the first one that does not end below `key`;
`high` if there is none.  The ends of range `j` are at `2 * j` and `2 * j + 1`. -/
def firstReaching (ends : Array UInt8) (key : UInt8) (low high : Nat) : Nat :=
  if low < high then
    let middle := (low + high) / 2
    if ends.getD (middle * 2 + 1) 0 < key then firstReaching ends key (middle + 1) high
    else firstReaching ends key low middle
  else low
  termination_by high - low

/-- The index of the range that covers a key, or the number of ranges. -/
def rangeOf (ends : Array UInt8) (ranges : Nat) (key : UInt8) : Nat :=
  let i := firstReaching ends key 0 ranges
  if i < ranges ∧ ends.getD (i * 2) 0 ≤ key then i else ranges

/-- The transition of a state on a byte. -/
def transition (t : Tables) (state : StateId) (key : UInt8) : Except Fault Nat := do
  let offset ← entry t.keyOffsets state
  let singles ← entry t.singles state
  let ranges ← entry t.ranges state
  let base ← entry t.transitions state
  match indexOf? (← stretch t.keys offset singles) key with
  | some i => return base + i
  | none =>
    let ends ← stretch t.keys (offset + singles) (ranges * 2)
    return base + singles + rangeOf ends ranges key

/-! ## Lists of actions -/

/-- The list at an offset: indices of actions. -/
def listAt (t : Tables) (offset : Nat) : Except Fault (List Nat) :=
  if offset = 0 then .ok []
  else do
    let length ← entry t.lists offset
    return (← stretch t.lists (offset + 1) length).toList

/-- The actions of the list at an offset. -/
def actionsAt (t : Tables) (offset : Nat) : Except Fault (List Action) := do
  (← t.listAt offset).mapM (entry t.actions)

end Tables

end Rewind.Scanner
