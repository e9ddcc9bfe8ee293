import Rewind.Vocabulary

/-!
# Action codes

What a parser does with a lookahead is packed into a word of 32 bits: the lowest bit asks for a
shift, the next one for a reduction, and the rest is the production to reduce by.  A word with
neither bit asks for nothing, so zero can end a list of codes.
-/

namespace Rewind.Grammar

/-- What is done with a lookahead. -/
inductive Action where
  /-- Put it on the stack. -/
  | shift
  /-- Leave it, and replace the top of the stack by what the production makes of it. -/
  | reduce (production : ProductionId)
  /-- Put it on the stack and reduce at once, in a single step. -/
  | shiftReduce (production : ProductionId)
  deriving DecidableEq, Repr

namespace Action

/-- The number of codes there are. -/
def codeBound : Nat := UInt32.size

/-- The action of a code, if it asks for any. -/
def decode (code : Nat) : Option Action :=
  match code.testBit 0, code.testBit 1 with
  | true, false => some shift
  | false, true => some (reduce (code / 4))
  | true, true => some (shiftReduce (code / 4))
  | false, false => none

/-- The code of an action.  The high bits of a production that does not fit are lost. -/
def encode : Action → Nat
  | shift => 1
  | reduce production => (production * 4 + 2) % codeBound
  | shiftReduce production => (production * 4 + 3) % codeBound

/-- The action in words. -/
def render : Action → String
  | shift => "shift"
  | reduce production => s!"reduce by production {production}"
  | shiftReduce production => s!"shift and reduce by production {production}"

end Action

end Rewind.Grammar
