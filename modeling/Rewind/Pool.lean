import Rewind.Fault
import Rewind.Report
import Rewind.Vocabulary

/-!
# Pools

A `Pool` keeps values in numbered slots and hands released slots out again, the one released last
first; only when none is waiting does it open a slot that was never used.  Slots are opened in
blocks of equal length, and the number of blocks may be limited.  How many blocks there are follows
from the number of slots opened, so the pool does not store it.
-/

namespace Rewind

/-- The reasons for which a pool cannot open another slot.  Slots are numbered without a bound.
Where their numbers are to fit in 32 bits there is a third reason, that no number is left, but only
once 4294967295 slots were opened. -/
inductive AllocError where
  /-- All blocks allowed are full. -/
  | blockLimit (limit : Nat)
  /-- There is no room for a block of so many slots. -/
  | refused (slots : Nat)
  deriving DecidableEq, Repr

namespace AllocError

def message : AllocError → String
  | blockLimit limit => s!"node pool exhausted its limit of {limit} blocks"
  | refused slots => s!"unable to allocate node pool block of {slots} slots"

def report (e : AllocError) : Report :=
  ⟨e.message, [⟨Span.unknown, .internal, some "parse node storage could not grow"⟩]⟩

end AllocError

/-- Values in numbered slots. -/
structure Pool (α : Type) where
  /-- The number of slots in a block. -/
  blockLength : Nat
  /-- The greatest number of blocks. -/
  blockLimit : Nat
  blockLength_pos : 0 < blockLength
  /-- Every slot opened so far, with what it holds. -/
  slots : Array (Option α) := #[]
  /-- The released slots, the last one released first. -/
  released : List SlotId := []
  deriving DecidableEq, Repr

namespace Pool

variable {α : Type}

/-- The block length of a pool that nobody configured. -/
def defaultBlockLength : Nat := 8128

/-- The block limit of a pool that nobody configured: more than can ever be reached. -/
def defaultBlockLimit : Nat := UInt64.size - 1

/-- A block this long can never be reserved, whatever its slots hold. -/
def blockLengthBound : Nat := UInt64.size / 2

/-- A pool without slots.  A block holds at least one. -/
def empty (blockLength : Nat := defaultBlockLength) (blockLimit : Nat := defaultBlockLimit) :
    Pool α where
  blockLength := max blockLength 1
  blockLimit := blockLimit
  blockLength_pos := by omega

/-- The number of blocks opened: the last one may be partly used. -/
def blocks (p : Pool α) : Nat :=
  (p.slots.size + (p.blockLength - 1)) / p.blockLength

/-- The number of slots in all blocks, used or not. -/
def capacity (p : Pool α) : Nat :=
  p.blocks * p.blockLength

/-- The number of slots that hold a value. -/
def live (p : Pool α) : Nat :=
  p.slots.countP Option.isSome

/-- The value in a slot. -/
def get? (p : Pool α) (id : SlotId) : Option α :=
  (p.slots[id]?).join

/-- The value in a slot that has to hold one. -/
def read (p : Pool α) (id : SlotId) : Except Fault α :=
  match p.get? id with
  | some a => .ok a
  | none => .error (.deadSlot id)

/-- The pool with another value in a slot. -/
def put (p : Pool α) (id : SlotId) (a : α) : Pool α :=
  { p with slots := p.slots.setIfInBounds id (some a) }

/-- Replaces the value in a slot that has to hold one. -/
def write (p : Pool α) (id : SlotId) (a : α) : Except Fault (Pool α) :=
  match p.get? id with
  | some _ => .ok (p.put id a)
  | none => .error (.deadSlot id)

/-- Changes the value in a slot that has to hold one. -/
def modify (p : Pool α) (id : SlotId) (f : α → α) : Except Fault (Pool α) :=
  match p.get? id with
  | some a => .ok (p.put id (f a))
  | none => .error (.deadSlot id)

/-- Why the pool cannot take another value, if it cannot: no slot was released, the last block is
full, and there can be no other one. -/
def full? (p : Pool α) : Option AllocError :=
  if p.released ≠ [] ∨ p.slots.size % p.blockLength ≠ 0 then none
  else if p.blockLimit ≤ p.blocks then some (.blockLimit p.blockLimit)
  else if blockLengthBound ≤ p.blockLength then some (.refused p.blockLength)
  else none

/-- The pool with a value in the slot released last, or else in one that was never used. -/
def place (p : Pool α) (a : α) : SlotId × Pool α :=
  match p.released with
  | id :: rest => (id, { p with slots := p.slots.setIfInBounds id (some a), released := rest })
  | [] => (p.slots.size, { p with slots := p.slots.push (some a) })

/-- Gives a value a slot.  A pool that is full stays as it is. -/
def alloc (p : Pool α) (a : α) : Except AllocError SlotId × Pool α :=
  match p.full? with
  | some e => (.error e, p)
  | none =>
    let (id, q) := p.place a
    (.ok id, q)

/-- The pool with a slot released. -/
def vacate (p : Pool α) (id : SlotId) : Pool α :=
  { p with slots := p.slots.setIfInBounds id none, released := id :: p.released }

/-- Releases a slot and hands out its value.  A slot that holds none cannot be released. -/
def free? (p : Pool α) (id : SlotId) : Option (α × Pool α) :=
  match p.get? id with
  | some a => some (a, p.vacate id)
  | none => none

/-! ## What a release leaves -/

theorem lt_size_of_get? {p : Pool α} {id : SlotId} {a : α} (h : p.get? id = some a) :
    id < p.slots.size := by
  unfold get? at h
  by_cases hid : id < p.slots.size
  · exact hid
  · simp [Array.getElem?_eq_none (Nat.le_of_not_lt hid)] at h

/-- A release takes one value away. -/
theorem live_vacate {p : Pool α} {id : SlotId} {a : α} (h : p.get? id = some a) :
    (p.vacate id).live + 1 = p.live := by
  have hlt := lt_size_of_get? h
  have hslot : p.slots[id] = some a := by
    simpa [get?, Array.getElem?_eq_getElem hlt] using h
  have hpos : 0 < p.slots.countP Option.isSome :=
    Array.countP_pos_iff.2 ⟨some a, hslot ▸ Array.getElem_mem hlt, rfl⟩
  simp only [live, vacate, Array.setIfInBounds, hlt, dite_true, Array.countP_set, hslot]
  simp
  omega

end Pool

end Rewind
