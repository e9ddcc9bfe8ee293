import Rewind.Pool

/-!
# Pools in memory

A pool lies in memory as blocks of equal length, the last of which may be partly used.  A slot is
found by dividing its number by the length of a block.  No list of released slots is kept beside the
blocks: a slot that is released holds the one that was released before it, and only the slot
released last is known from outside.

A list that is kept in this way could lead astray: to a slot that holds a value, or to one that was
never opened.  Allocation has no answer then.
-/

namespace Rewind

/-- A slot in a block. -/
inductive Cell (α : Type) where
  | live (a : α)
  /-- The slot waits to be used again, and behind it the next one that does. -/
  | free (next : Option SlotId)
  deriving DecidableEq, Repr

/-- The value in a slot, if there is one. -/
def Cell.value? {α : Type} : Cell α → Option α
  | live a => some a
  | free _ => none

/-- A pool as it lies in memory. -/
structure Blocks (α : Type) where
  blockLength : Nat
  blockLimit : Nat
  blocks : Array (Array (Cell α)) := #[]
  /-- The slot released last. -/
  free : Option SlotId := none
  /-- The number of slots that hold a value. -/
  live : Nat := 0
  deriving DecidableEq, Repr

namespace Blocks

variable {α : Type}

/-- No blocks.  A block will hold at least one slot. -/
def empty (blockLength blockLimit : Nat) : Blocks α :=
  { blockLength := max blockLength 1, blockLimit }

/-- What is at a slot, if it was opened. -/
def cell? (b : Blocks α) (id : SlotId) : Option (Cell α) :=
  b.blocks[id / b.blockLength]?.bind fun block => block[id % b.blockLength]?

/-- The blocks with something else at a slot. -/
def setCell (b : Blocks α) (id : SlotId) (cell : Cell α) : Blocks α :=
  { b with
    blocks := b.blocks.modify (id / b.blockLength) fun block =>
      block.setIfInBounds (id % b.blockLength) cell }

/-- The value in a slot. -/
def get? (b : Blocks α) (id : SlotId) : Option α :=
  (b.cell? id).bind Cell.value?

/-- Whether another slot needs another block. -/
def isFull (b : Blocks α) : Bool :=
  match b.blocks.back? with
  | some block => block.size = b.blockLength
  | none => true

/-- The blocks with room for another slot in the last of them. -/
def grow (b : Blocks α) : Except AllocError (Blocks α) :=
  if b.isFull then
    if b.blockLimit ≤ b.blocks.size then .error (.blockLimit b.blockLimit)
    else if Pool.blockLengthBound ≤ b.blockLength then .error (.refused b.blockLength)
    else .ok { b with blocks := b.blocks.push #[] }
  else .ok b

/-- The slot behind all that are in use. -/
def nextSlot (b : Blocks α) : SlotId :=
  let last := b.blocks.size - 1
  last * b.blockLength + (b.blocks.getD last #[]).size

/-- The blocks with another slot in the last of them. -/
def push (b : Blocks α) (cell : Cell α) : Blocks α :=
  { b with blocks := b.blocks.modify (b.blocks.size - 1) (·.push cell) }

/-- Opens another slot for a value. -/
def carve (b : Blocks α) (a : α) : Except AllocError (SlotId × Blocks α) := do
  let b ← b.grow
  return (b.nextSlot, b.push (.live a))

/-- Gives a value a slot: the one released last, or else another one.  There is no answer if the
slot released last was never opened, or holds a value. -/
def alloc (b : Blocks α) (a : α) : Option (Except AllocError SlotId × Blocks α) :=
  match b.free with
  | some id =>
    match b.cell? id with
    | some (.free next) =>
      some (.ok id, { b.setCell id (.live a) with free := next, live := b.live + 1 })
    | _ => none
  | none =>
    match b.carve a with
    | .ok (id, b) => some (.ok id, { b with live := b.live + 1 })
    | .error e => some (.error e, b)

/-- Releases a slot and hands out its value.  A slot that holds none cannot be released. -/
def free? (b : Blocks α) (id : SlotId) : Option (α × Blocks α) :=
  match b.cell? id with
  | some (.live a) =>
    some (a, { b.setCell id (.free b.free) with free := some id, live := b.live - 1 })
  | _ => none

/-- Changes the value in a slot, and tells what it was. -/
def change? (b : Blocks α) (id : SlotId) (f : α → α) : Option (α × Blocks α) :=
  match b.cell? id with
  | some (.live a) => some (a, b.setCell id (.live (f a)))
  | _ => none

end Blocks

end Rewind
