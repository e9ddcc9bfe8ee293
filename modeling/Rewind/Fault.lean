/-!
# Faults

Tables are compiled and trees are linked by hand, so a lookup can name something that is not
there: an entry past the end of a table, or a slot that holds no node.  No operation has an answer
then.  Such a lookup ends in a `Fault`, which is kept apart from the errors that operations
report: an error is an answer and leaves a state to go on from, a fault is neither.

What a table says about where to go on in another table is followed by `entry` and `stretch` only,
so a proof that a computation ends in no fault is a proof that its tables fit together.
-/

namespace Rewind

/-- The reasons for which a computation has no answer. -/
inductive Fault where
  /-- The slot was never allocated, or has been released. -/
  | deadSlot (slot : Nat)
  /-- Following links from the slot comes back to a slot already passed. -/
  | endless (slot : Nat)
  /-- A table of `size` entries has none at `index`. -/
  | outOfRange (index size : Nat)
  /-- The computation was not allowed to go on for long enough. -/
  | unfinished
  deriving DecidableEq, Repr

namespace Fault

/-- The fault in words. -/
def message : Fault → String
  | deadSlot slot => s!"pool slot #{slot} is not live"
  | endless slot => s!"links from pool slot #{slot} never end"
  | outOfRange index size => s!"index {index} is beyond a table of {size} entries"
  | unfinished => "no answer was reached in the time allowed"

end Fault

/-- The entry of a table at an index. -/
def entry {α : Type} (table : Array α) (index : Nat) : Except Fault α :=
  match table[index]? with
  | some a => .ok a
  | none => .error (.outOfRange index table.size)

@[simp] theorem entry_eq_ok_iff {α : Type} {table : Array α} {index : Nat} {a : α} :
    entry table index = .ok a ↔ table[index]? = some a := by
  unfold entry
  split <;> simp_all

/-- The `count` entries of a table from `start` on. -/
def stretch {α : Type} (table : Array α) (start count : Nat) : Except Fault (Array α) :=
  if start + count ≤ table.size then
    .ok (table.extract start (start + count))
  else
    .error (.outOfRange (start + count) table.size)

/-- Why a computation stopped short: it reported an error, or it met a fault. -/
inductive Failure (ε : Type) where
  | error (e : ε)
  | fault (f : Fault)
  deriving DecidableEq, Repr

/-- Computations that change a state and may stop short.  The state they have reached by then is
kept. -/
abbrev Attempt (ε σ α : Type) := EStateM (Failure ε) σ α

namespace Attempt

variable {ε σ α : Type}

/-- Looks something up, which may meet a fault. -/
def lift (x : Except Fault α) : Attempt ε σ α := fun s =>
  match x with
  | .ok a => .ok a s
  | .error f => .error (.fault f) s

end Attempt

end Rewind
