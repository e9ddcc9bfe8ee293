import Rewind.Proofs.Queue

/-!
# What a queue does, told by its items

A queue is reached from the empty one, from a text or from a source by any operations in any order,
those that fail included.  Its chunks do not matter: with `buffered`, the items at hand, and
`unread`, the bytes that the source delivers before it says for the first time that it has ended, a
read moves bytes from the front of `unread` to the end of `buffered`, and everything else happens at
the front of `buffered`.

It takes that no chunk of text is empty, which every operation preserves.  Otherwise a queue of
empty chunks would hold nothing and not be at its end, and a tree behind one would not be at the
front.
-/

namespace Rewind

namespace Stream

variable {s t : Stream}

/-! ## Reading -/

/-- The bytes have moved from what the source delivers to the end of what is at hand. -/
structure Reads (bytes : Bytes) (s t : Stream) : Prop where
  buffered : t.buffered = s.buffered ++ bytes.map .byte
  unread : s.unread = bytes ++ t.unread
  position : t.position = s.position

lemma Reads.refl (s : Stream) : Reads [] s s :=
  ⟨by simp, rfl, rfl⟩

end Stream

/-! ## Walking along the chunks -/

namespace Chunk

variable {chunks : List Chunk}

/-- The difference of two numbers, if there is one. -/
def minus? (a b : Nat) : Option Nat :=
  if b ≤ a then some (a - b) else none

/-- `at?`, without an answer where it would go below zero or read beyond a text. -/
def walk? : (offset : Nat) → List Chunk → Option (Option Item)
  | _, [] => some none
  | offset, text data head :: chunks => do
    let units ← minus? data.length head
    if offset < units then return some (.byte (← data[head + offset]?))
    else walk? (← minus? offset units) chunks
  | offset, tree node ignore :: chunks => do
    if offset = 0 then return some (.tree node ignore)
    else walk? (← minus? offset 1) chunks

end Chunk

lemma Tape.Agree.eq_ok {σ α : Type} {stream : σ → Stream} {ok : σ → Prop} {a : α} {s : σ}
    {x : EStateM.Result String Stream α} (h : Agree stream ok (.ok a s) x) :
    x = .ok a (stream s) := by
  cases h
  rfl

lemma Tape.Agree.eq_error {σ α : Type} {stream : σ → Stream} {ok : σ → Prop} {message : String}
    {s : σ} {x : EStateM.Result String Stream α} (h : Agree stream ok (.error message s) x) :
    x = .error message (stream s) := by
  cases h
  rfl

namespace Queue

variable {q r : Queue}

/-- The items at hand. -/
def buffered (q : Queue) : List Item :=
  q.chunks.flatMap Chunk.items

/-- The bytes that the source delivers before it says for the first time that it has ended. -/
def unread (q : Queue) : Bytes :=
  if q.sourceEnded then [] else Stream.promised q.source

/-! ## Operations -/

/-- The queue comes of any operations on a queue as it is made. -/
inductive Reached : Queue → Prop
  | empty : Reached empty
  | ofBytes (text : Bytes) : Reached (ofBytes text)
  | ofSource (source : List Delivery) : Reached (ofSource source)
  | pull {q : Queue} (n : Nat) : Reached q → Reached (Tape.left (q.pull n))
  | peek {q : Queue} (offset : Nat) : Reached q → Reached (Tape.left (q.peek offset))
  | extract {q : Queue} (n : Nat) : Reached q → Reached (q.extract n).2
  | putBack {q : Queue} (text : Bytes) (start : Position) : Reached q →
    Reached (q.putBack text start)
  | takeTree {q r : Queue} {tree : NodeId × Bool} : Reached q → q.takeTree? = some (tree, r) →
    Reached r
  | pushText {q : Queue} (text : Bytes) : Reached q → Reached (q.pushText text)
  | pushTree {q : Queue} (node : NodeId) (ignore : Bool) : Reached q →
    Reached (q.pushTree node ignore)
  | pushback {q : Queue} (n : Nat) : Reached q → Reached (q.pushback n).2

lemma takeTree?_same (hq : q.Tidy) {tree : NodeId × Bool} (h : q.takeTree? = some (tree, r)) :
    q.stream.takeTree? = some (tree, r.stream) ∧ r.Tidy := by
  have hrel : Option.Rel _ q.takeTree? q.stream.takeTree? := models_tape.takeTree hq
  rw [h] at hrel
  generalize q.stream.takeTree? = x at hrel
  cases hrel with
  | some hsame =>
    obtain ⟨rfl, htidy⟩ := hsame
    exact ⟨rfl, htidy⟩

/-- No chunk is ever used up. -/
lemma Reached.tidy (h : Reached q) : q.Tidy := by
  induction h with
  | empty => exact Chunk.tidy_nil
  | ofBytes text => exact tidy_ofBytes text
  | ofSource source => exact Chunk.tidy_nil
  | pull n _ ih => exact (models_tape.pull n ih).left.2
  | peek offset _ ih => exact (models_tape.peek offset ih).left.2
  | extract n _ ih => exact (models_tape.extract n ih).2
  | putBack text start _ ih => exact (models_tape.putBack text start ih).2
  | takeTree _ htree ih => exact (takeTree?_same ih htree).2
  | pushText text _ ih => exact (models_tape.pushText text ih).2
  | pushTree node ignore _ ih => exact (models_tape.pushTree node ignore ih).2
  | pushback n _ ih => exact (models_tape.pushback n ih).2

/-- The bytes have moved from what the source delivers to the end of what is at hand. -/
structure Reads (bytes : Bytes) (q r : Queue) : Prop where
  buffered : r.buffered = q.buffered ++ bytes.map .byte
  unread : q.unread = bytes ++ r.unread
  position : r.position = q.position

/-- The source failed with the message, after it had delivered the bytes. -/
def FailsAfter (bytes : Bytes) (message : String) (q r : Queue) : Prop :=
  ∃ before, q.source = before ++ .failure message :: r.source ∧ Stream.promised before = bytes

/-- Only the items at hand are not the same. -/
structure Keeps (q r : Queue) : Prop where
  source : r.source = q.source
  sourceEnded : r.sourceEnded = q.sourceEnded
  position : r.position = q.position

/-- The queue does what its items tell. -/
structure Refines (q : Queue) : Prop where
  /-- No text is used up. -/
  texts : ∀ data head, .text data head ∈ q.chunks → head < data.length
  isEof : q.isEof = true ↔ q.buffered = [] ∧ q.sourceEnded = true
  length : q.length = q.buffered.length
  pull_ok : ∀ n k r, q.pull n = .ok k r → ∃ bytes, Reads bytes q r ∧ k = bytes.length ∧
    (n ≤ k ∨ r.unread = [] ∧ r.sourceEnded = true)
  pull_error : ∀ n message r, q.pull n = .error message r →
    ∃ bytes, Reads bytes q r ∧ FailsAfter bytes message q r
  peek_ok : ∀ offset item r, q.peek offset = .ok item r →
    item = (q.buffered ++ q.unread.map .byte)[offset]? ∧ ∃ bytes, Reads bytes q r
  peek_error : ∀ offset message r, q.peek offset = .error message r →
    ∃ bytes, Reads bytes q r ∧ FailsAfter bytes message q r
  /-- Walking to an item is possible, wherever it is and whether there is one. -/
  walk : ∀ offset, Chunk.walk? offset q.chunks = some q.buffered[offset]?
  extract : ∀ n, q.buffered = (q.extract n).1.map .byte ++ (q.extract n).2.buffered ∧
    (q.extract n).1.length = min n (Stream.leading q.buffered) ∧
    (q.extract n).2.source = q.source ∧ (q.extract n).2.sourceEnded = q.sourceEnded ∧
    (q.extract n).2.position = q.position.advance (q.extract n).1
  takeTree_some : ∀ node ignore r, q.takeTree? = some ((node, ignore), r) →
    q.buffered = .tree node ignore :: r.buffered ∧ Keeps q r
  takeTree_none : q.takeTree? = none → ∀ node ignore, q.buffered.head? ≠ some (.tree node ignore)
  pushback : ∀ n, (q.pushback n).1 = min n q.buffered.length ∧
    (q.pushback n).2.buffered = q.buffered.drop n ∧ Keeps q (q.pushback n).2
  putBack : ∀ text start, (q.putBack text start).buffered = text.map .byte ++ q.buffered ∧
    (q.putBack text start).unread = q.unread ∧ (q.putBack text start).position = start
  pushText : ∀ text, (q.pushText text).buffered = text.map .byte ++ q.buffered ∧
    Keeps q (q.pushText text)
  pushTree : ∀ node ignore, (q.pushTree node ignore).buffered = .tree node ignore :: q.buffered ∧
    Keeps q (q.pushTree node ignore)

/-! ## Each operation -/

end Queue

end Rewind
