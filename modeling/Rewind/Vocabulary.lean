/-!
# Numbers that name things

A compiled grammar refers to everything by number.  Each kind of number has a name of its own
here, so that a signature says which kind it takes.
-/

namespace Rewind

/-- A state of an automaton. -/
abbrev StateId := Nat

/-- A language element: a terminal or a nonterminal. -/
abbrev ElementId := Nat

/-- A production of a grammar. -/
abbrev ProductionId := Nat

/-- A scanner region: a set of tokens that are scanned together. -/
abbrev RegionId := Nat

/-- A pattern variable. -/
abbrev VariableId := Nat

/-- A slot of a pool. -/
abbrev SlotId := Nat

/-- A node is named by the slot that holds it. -/
abbrev NodeId := SlotId

end Rewind
