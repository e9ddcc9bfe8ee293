import Rewind.Escaped
import Rewind.Report

/-!
# Malformed tables

Compiled tables are trusted when they are used.  Checking them once beforehand finds the first
entry or length that does not fit, and names the table it is in.  The checks are about ranges only:
whether the automaton makes sense is not their business.

`P` stands for the tables of one automaton, and `name` gives the word for each of them.
-/

namespace Rewind

/-- What is wrong with a set of tables. -/
inductive TableError (P : Type) where
  /-- A table is shorter than it has to be. -/
  | length (table : P) (expected found : Nat)
  /-- The value at an index is not below its bound. -/
  | range (table : P) (index value bound : Nat)
  deriving DecidableEq, Repr

namespace TableError

variable {P : Type}

/-- The table that is wrong. -/
def table : TableError P → P
  | length table _ _ => table
  | range table _ _ _ => table

/-- The error in words. -/
def message (name : P → String) : TableError P → String
  | length table expected found =>
    s!"table {quote (name table)} has {found} entries but requires {expected}"
  | range table index value bound =>
    s!"entry {index} of table {quote (name table)} is {value}, " ++
      s!"which is out of range (must be less than {bound})"

def report (name : P → String) (e : TableError P) : Report where
  message := e.message name
  annotations := [
    ⟨Span.unknown, .internal, some "compiled tables are malformed"⟩,
    .advice "tables must be produced by a compatible grammar compiler"]

end TableError

/-- A check of a set of tables, which ends with the first thing found wrong. -/
abbrev Check (P : Type) (α : Type) := Except (TableError P) α

namespace Check

variable {P : Type}

/-- A table has at least so many entries. -/
def length {α : Type} (table : P) (entries : Array α) (expected : Nat) : Check P Unit :=
  if entries.size < expected then .error (.length table expected entries.size) else .ok ()

/-- A value found at an index is below a bound. -/
def range (table : P) (index value bound : Nat) : Check P Unit :=
  if bound ≤ value then .error (.range table index value bound) else .ok ()

/-- A check passes for every number below `n`, tried in order. -/
def below (n : Nat) (check : Nat → Check P Unit) : Check P Unit :=
  (List.range n).forM check

/-- A check passes for every entry of a table, tried in order. -/
def each {α : Type} (entries : Array α) (check : Nat → α → Check P Unit) : Check P Unit :=
  entries.toList.zipIdx.forM fun (a, i) => check i a

end Check

end Rewind
