import Rewind.Position

/-!
# Spans

A `Span` is a stretch of a stream: where it starts and how many bytes it covers.  One particular
value, `Span.unknown`, stands for text that never was in a stream; it is absorbed by every other
span when spans are merged, so a fabricated token among real ones does not hide where they are.
-/

namespace Rewind

/-- A stretch of `length` bytes. -/
structure Span where
  start : Position
  length : Nat
  deriving DecidableEq, Repr

namespace Span

/-- The greatest offset there is. -/
def maxOffset : Nat := UInt64.size - 1

/-- The span of what came from no stream. -/
def unknown : Span := ⟨⟨maxOffset, 0, 0⟩, 0⟩

instance : Inhabited Span := ⟨unknown⟩

/-- Whether the span is the one that stands for no place. -/
def isUnknown (s : Span) : Bool :=
  s = unknown

/-- The offset behind the last byte, which is never past the greatest offset. -/
def endOffset (s : Span) : Nat :=
  min (s.start.offset + s.length) maxOffset

/-- The least span that covers both. -/
def merge (s t : Span) : Span :=
  if s.isUnknown then t
  else if t.isUnknown then s
  else
    let first := if s.start ≤ t.start then s.start else t.start
    ⟨first, max s.endOffset t.endOffset - first.offset⟩

/-- Spans are ordered by start; the length decides between equal starts. -/
def le (s t : Span) : Prop :=
  s.start ≤ t.start ∧ (s.start = t.start → s.length ≤ t.length)

instance : LE Span := ⟨le⟩

instance (s t : Span) : Decidable (s ≤ t) :=
  inferInstanceAs (Decidable (_ ∧ (_ → _)))

instance : Ord Span where
  compare s t := if s = t then .eq else if s ≤ t then .lt else .gt

/-- The place where the span starts, if it has one. -/
def render (s : Span) : String :=
  if s.isUnknown then "<unknown>" else s.start.render

end Span

end Rewind
