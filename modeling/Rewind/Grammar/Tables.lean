import Rewind.Fault
import Rewind.Grammar.Action

/-!
# Parser tables

In a state, only the elements from a lowest to a highest one can have an action.  The slot of an
element is found from the state's offset, and holds a transition only if the state owns it; the
slots of several states are interleaved in one array.

A transition has a target, a flag that says whether it commits, and a list of action codes that
ends with a zero.  A list of several codes is an ambiguity, whose alternatives are tried in order.
The regions in which a state's tokens are scanned are a list that ends with a zero too, so region
zero is never one of them.
-/

namespace Rewind.Grammar

/-- What is known of a language element. -/
structure Element where
  name : String
  /-- Tokens of the element are set aside, for the next terminal to carry. -/
  ignore : Bool
  /-- Tokens of the element are given to the caller and are not parsed. -/
  generation : Bool
  deriving DecidableEq, Repr

/-- What is known of a production. -/
structure Production where
  /-- The nonterminal it produces. -/
  lhs : ElementId
  /-- The number of elements it replaces. -/
  length : Nat
  /-- Whether the caller acts on its reductions. -/
  hasAction : Bool
  deriving DecidableEq, Repr

/-- The tables of a compiled parser. -/
structure Tables where
  /-- The transition in each slot, negative for none. -/
  transitions : Array Int
  /-- The state that owns each slot. -/
  owners : Array StateId
  /-- The lowest and the highest element of each state. -/
  bounds : Array ElementId
  /-- The slot of each state's lowest element. -/
  offsets : Array Nat
  targets : Array StateId
  /-- Where the codes of each transition begin. -/
  codeStarts : Array Nat
  codes : Array Nat
  /-- Whether each transition commits: not if zero. -/
  commits : Array Nat
  /-- Where the regions of each state begin. -/
  regionStarts : Array Nat
  regions : Array RegionId
  elements : Array Element
  productions : Array Production
  /-- Whether the caller acts at the end of the input, for each region. -/
  endActions : Array Bool
  states : Nat
  start : StateId
  /-- From this one on, elements are nonterminals. -/
  firstNonterminal : ElementId
  /-- The token that stands for the end of the input. -/
  eof : ElementId
  deriving DecidableEq, Repr

/-- What was decided for a lookahead. -/
structure Decision where
  transition : Nat
  action : Action
  /-- Which of the transition's alternatives it is. -/
  alternative : Nat
  /-- Whether there is another one behind it. -/
  more : Bool
  deriving DecidableEq, Repr

namespace Tables

/-- The transition of a state for an element. -/
def lookup (t : Tables) (state : StateId) (element : ElementId) : Except Fault (Option Nat) := do
  let low ← entry t.bounds (state * 2)
  let high ← entry t.bounds (state * 2 + 1)
  if element < low ∨ high < element then
    return none
  else
    let slot := (← entry t.offsets state) + (element - low)
    if (← entry t.owners slot) = state then
      match ← entry t.transitions slot with
      | .ofNat transition => return some transition
      | .negSucc _ => return none
    else
      return none

/-- One of the alternatives of a transition, counted from zero. -/
def alternative (t : Tables) (transition alternative : Nat) :
    Except Fault (Option Decision) := do
  let start ← entry t.codeStarts transition
  if start ≤ t.codes.size then
    let code := t.codes.getD (start + alternative) 0
    if code = 0 ∨ 0 ∈ (t.codes.extract start (start + alternative)).toList then
      return none
    else
      return (Action.decode code).map fun action =>
        { transition, action, alternative
          more := t.codes.getD (start + alternative + 1) 0 ≠ 0 }
  else
    .error (.outOfRange start t.codes.size)

/-- What is done in a state with an element, if that alternative exists. -/
def decide (t : Tables) (state : StateId) (element : ElementId) (alternative : Nat) :
    Except Fault (Option Decision) := do
  match ← t.lookup state element with
  | some transition => t.alternative transition alternative
  | none => return none

/-- The regions in which a state's tokens are scanned, in the order of trying. -/
def regionsOf (t : Tables) (state : StateId) : Except Fault (List RegionId) := do
  let start ← entry t.regionStarts state
  if start ≤ t.regions.size then
    return (t.regions.toList.drop start).takeWhile (· ≠ 0)
  else
    .error (.outOfRange start t.regions.size)

/-- Whether an element is a terminal. -/
def isTerminal (t : Tables) (element : ElementId) : Bool :=
  element < t.firstNonterminal

/-- Whether tokens of an element are set aside. -/
def ignores (t : Tables) (element : ElementId) : Bool :=
  t.elements[element]?.any (·.ignore)

/-- Whether tokens of an element are given to the caller. -/
def generates (t : Tables) (element : ElementId) : Bool :=
  t.elements[element]?.any (·.generation)

/-- Whether the caller acts at the end of the input in a region. -/
def actsAtEnd (t : Tables) (region : RegionId) : Bool :=
  t.endActions.getD region false

/-- The name of an element; one that is not known has a question mark. -/
def name (t : Tables) (element : ElementId) : String :=
  match t.elements[element]? with
  | some known => known.name
  | none => "?"

end Tables

end Rewind.Grammar
