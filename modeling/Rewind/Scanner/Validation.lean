import Rewind.Scanner.Tables
import Rewind.Table

/-!
# Checking scanner tables

Tables that pass `Tables.validate` can be used for any input: every offset a scan follows lies
within the array it points into.  The checks are made in a fixed order, and the first one that
fails is reported.
-/

namespace Rewind.Scanner

/-- The tables of a scanner, and the numbers that stand beside them. -/
inductive Part where
  | lists
  | keyOffsets
  | keys
  | singles
  | ranges
  | transitions
  | targets
  | onTransition
  | onArrival
  | onDeparture
  | onEnd
  | entries
  | actions
  | start
  | firstFinal
  | dead
  deriving DecidableEq, Repr

namespace Part

/-- The name under which a table is known to whoever compiled it. -/
def name : Part → String
  | lists => "actions"
  | keyOffsets => "key_offsets"
  | keys => "trans_keys"
  | singles => "single_lengths"
  | ranges => "range_lengths"
  | transitions => "index_offsets"
  | targets => "trans_targs"
  | onTransition => "trans_actions"
  | onArrival => "to_state_actions"
  | onDeparture => "from_state_actions"
  | onEnd => "eof_actions"
  | entries => "entry_by_region"
  | actions => "action_switch"
  | start => "start_state"
  | firstFinal => "first_final"
  | dead => "error_state"

end Part

namespace Tables

/-- The list at an offset lies within the table of lists, and its indices name actions.  The offset
was found at an index of the table `part`. -/
def checkList (t : Tables) (part : Part) (index offset : Nat) : Check Part Unit :=
  if offset = 0 then .ok ()
  else do
    Check.range part index offset t.lists.size
    let length := t.lists.getD offset 0
    Check.length .lists t.lists (offset + 1 + length)
    Check.below length fun i =>
      Check.range .lists (offset + 1 + i) (t.lists.getD (offset + 1 + i) 0) t.actions.size

/-- The keys and transitions of a state lie within their tables. -/
def checkState (t : Tables) (state : StateId) : Check Part Unit := do
  let singles := t.singles.getD state 0
  let ranges := t.ranges.getD state 0
  Check.length .keys t.keys (t.keyOffsets.getD state 0 + singles + ranges * 2)
  Check.length .targets t.targets (t.transitions.getD state 0 + singles + ranges + 1)

/-- An action names a mark that exists. -/
def checkAction (index : Nat) : Action → Check Part Unit
  | .mark slot => Check.range .actions index slot markSlots
  | .acceptAtMark slot _ => Check.range .actions index slot markSlots
  | .candidate _ => .ok ()
  | .accept _ => .ok ()

/-- Checks that every offset and number in the tables is in range. -/
def validate (t : Tables) : Check Part Unit := do
  Check.length .keyOffsets t.keyOffsets t.states
  Check.length .singles t.singles t.states
  Check.length .ranges t.ranges t.states
  Check.length .transitions t.transitions t.states
  Check.length .onArrival t.onArrival t.states
  Check.length .onDeparture t.onDeparture t.states
  Check.length .onEnd t.onEnd t.states
  Check.length .onTransition t.onTransition t.targets.size
  Check.range .start 0 t.start t.states
  Check.range .dead 0 t.dead t.states
  Check.range .firstFinal 0 t.firstFinal (t.states + 1)
  Check.each t.entries fun i state => Check.range .entries i state t.states
  Check.below t.states t.checkState
  Check.each t.targets fun i state => Check.range .targets i state t.states
  Check.each t.onTransition (t.checkList .onTransition)
  Check.each t.onArrival (t.checkList .onArrival)
  Check.each t.onDeparture (t.checkList .onDeparture)
  Check.each t.onEnd (t.checkList .onEnd)
  Check.each t.actions checkAction

end Tables

end Rewind.Scanner
