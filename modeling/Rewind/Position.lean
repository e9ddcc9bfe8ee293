/-!
# Positions in a stream of bytes

A `Position` is a byte offset together with the line and column a reader would give it.  Lines and
columns count from one, offsets from zero, and columns count bytes.

`Position.advance` moves over a whole text at once: the lines passed are its newlines, and the new
column depends only on what follows the last of them.
-/

namespace Rewind

/-- Uninterpreted text: a token may hold any bytes. -/
abbrev Bytes := List UInt8

/-- The byte that ends a line. -/
def newline : UInt8 := 10

/-- A place between two bytes of a stream. -/
structure Position where
  offset : Nat
  line : Nat
  column : Nat
  deriving DecidableEq, Repr

namespace Position

/-- The place before the first byte of a stream. -/
def start : Position := ⟨0, 1, 1⟩

instance : Inhabited Position := ⟨start⟩

/-- The place behind `text`, if `text` begins here. -/
def advance (p : Position) (text : Bytes) : Position :=
  if newline ∈ text then
    { offset := p.offset + text.length
      line := p.line + text.count newline
      column := (text.reverse.takeWhile (· ≠ newline)).length + 1 }
  else
    { p with
      offset := p.offset + text.length
      column := p.column + text.length }

@[simp] theorem advance_nil (p : Position) : p.advance [] = p := rfl

@[simp] theorem offset_advance (p : Position) (text : Bytes) :
    (p.advance text).offset = p.offset + text.length := by
  unfold advance
  split <;> rfl

/-- Positions are ordered by offset; line and column decide between equal offsets. -/
def le (p q : Position) : Prop :=
  p.offset < q.offset ∨ p.offset = q.offset ∧
    (p.line < q.line ∨ p.line = q.line ∧ p.column ≤ q.column)

instance : LE Position := ⟨le⟩

instance (p q : Position) : Decidable (p ≤ q) :=
  inferInstanceAs (Decidable (_ ∨ _ ∧ (_ ∨ _ ∧ _)))

theorem le_def {p q : Position} : p ≤ q ↔
    p.offset < q.offset ∨ p.offset = q.offset ∧
      (p.line < q.line ∨ p.line = q.line ∧ p.column ≤ q.column) :=
  Iff.rfl

/-- Line and column, the way editors write them. -/
def render (p : Position) : String :=
  s!"{p.line}:{p.column}"

end Position

end Rewind
