import Rewind.Position

/-!
# Positions in words

A position is kept in words: 64 bits for the offset, 32 bits each for the line and the column, and
what exceeds them is dropped.  It is moved over a text without looking at the bytes one by one: a
`ByteSearch` tells where the last newline is and where all of them are.
-/

namespace Rewind

/-- How a text is searched for a byte. -/
structure ByteSearch where
  /-- The index of the last such byte. -/
  last? : UInt8 → Bytes → Option Nat
  /-- The indices of all such bytes, in order. -/
  indices : UInt8 → Bytes → List Nat

namespace Position

/-- A position as it is kept. -/
structure Words where
  offset : UInt64
  line : UInt32
  column : UInt32
  deriving DecidableEq, Repr

namespace Words

/-- The words behind `text`, if `text` begins here. -/
def advance (search : ByteSearch) (w : Words) (text : Bytes) : Words :=
  let offset := w.offset + UInt64.ofNat text.length
  match search.last? newline text with
  | none => { w with offset, column := w.column + UInt32.ofNat text.length }
  | some last =>
    { offset
      line := w.line + UInt32.ofNat (search.indices newline text).length
      column := UInt32.ofNat (text.length - last) }

/-- The position that the words tell. -/
def position (w : Words) : Position :=
  ⟨w.offset.toNat, w.line.toNat, w.column.toNat⟩

end Words

/-- The position in words, without what exceeds them. -/
def words (p : Position) : Words :=
  ⟨UInt64.ofNat p.offset, UInt32.ofNat p.line, UInt32.ofNat p.column⟩

end Position

end Rewind
