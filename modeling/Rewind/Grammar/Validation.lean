import Rewind.Grammar.Tables
import Rewind.Table

/-!
# Checking parser tables

Tables that pass `Tables.validate` can be used for any input: every offset and every number a parse
follows lies within the array it points into, and every list ends.  The checks are made in a fixed
order, and the first one that fails is reported.
-/

namespace Rewind.Grammar

/-- The tables of a parser, and the numbers that stand beside them. -/
inductive Part where
  | transitions
  | owners
  | bounds
  | offsets
  | targets
  | codeStarts
  | codes
  | commits
  | regionStarts
  | regions
  | productions
  | start
  | eof
  deriving DecidableEq, Repr

namespace Part

/-- The name under which a table is known to whoever compiled it. -/
def name : Part → String
  | transitions => "indicies"
  | owners => "owners"
  | bounds => "keys"
  | offsets => "offsets"
  | targets => "targs"
  | codeStarts => "act_inds"
  | codes => "actions"
  | commits => "commit_len"
  | regionStarts => "token_region_inds"
  | regions => "token_regions"
  | productions => "prod_info"
  | start => "start_state"
  | eof => "eof_id"

end Part

namespace Tables

/-- A list that begins at an index ends with a zero.  Otherwise the table lacks an entry. -/
def checkEnds (part : Part) (entries : Array Nat) (start : Nat) : Check Part Unit :=
  if (entries.toList.drop start).contains 0 then .ok ()
  else .error (.length part (entries.size + 1) entries.size)

/-- The slots of a state lie within their table, and so does the list of its regions. -/
def checkState (t : Tables) (state : StateId) : Check Part Unit := do
  let low := t.bounds.getD (state * 2) 0
  let high := t.bounds.getD (state * 2 + 1) 0
  if low ≤ high then
    Check.range .offsets state (t.offsets.getD state 0 + (high - low)) t.transitions.size
  let start := t.regionStarts.getD state 0
  Check.range .regionStarts state start t.regions.size
  checkEnds .regions t.regions start

/-- A slot holds a transition that exists, or none. -/
def checkSlot (t : Tables) (index : Nat) : Int → Check Part Unit
  | .ofNat transition => Check.range .transitions index transition t.targets.size
  | .negSucc _ => .ok ()

/-- An action code asks for something, and any production it names exists. -/
def checkCode (t : Tables) (index code : Nat) : Check Part Unit :=
  match Action.decode code with
  | none => .error (.range .codes index code 4)
  | some .shift => .ok ()
  | some (.reduce production) => Check.range .codes index production t.productions.size
  | some (.shiftReduce production) => Check.range .codes index production t.productions.size

/-- The list of codes that begins at `start` ends with a zero, and each code is in order.  The start
was found at an index. -/
def checkCodes (t : Tables) (index start : Nat) : Check Part Unit := do
  Check.range .codeStarts index start t.codes.size
  checkEnds .codes t.codes start
  let codes := (t.codes.toList.drop start).takeWhile (· ≠ 0)
  (codes.zipIdx start).forM fun (code, i) => t.checkCode i code

/-- Checks that every offset and number in the tables is in range. -/
def validate (t : Tables) : Check Part Unit := do
  Check.length .bounds t.bounds (t.states * 2)
  Check.length .offsets t.offsets t.states
  Check.length .regionStarts t.regionStarts t.states
  Check.length .owners t.owners t.transitions.size
  Check.length .codeStarts t.codeStarts t.targets.size
  Check.length .commits t.commits t.targets.size
  Check.range .start 0 t.start t.states
  Check.range .eof 0 t.eof t.elements.size
  Check.below t.states t.checkState
  Check.each t.transitions t.checkSlot
  Check.each t.targets fun i state => Check.range .targets i state t.states
  Check.each t.codeStarts t.checkCodes
  Check.each t.regions fun i region => Check.range .regions i region t.endActions.size
  Check.each t.productions fun i production =>
    Check.range .productions i production.lhs t.elements.size

end Tables

end Rewind.Grammar
