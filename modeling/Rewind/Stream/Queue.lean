import Mathlib.Algebra.GroupWithZero.Nat
import Rewind.Stream

/-!
# Streams in memory

What a stream has at hand lies in memory as a queue of chunks: pieces of text, of which the front
may have been used up, and trees.  A read puts its text behind the others as a chunk of its own, and
what is pushed, and what is put back, comes in front as a chunk of its own, wherever the chunks that
were taken before had their bounds.  No chunk of text is kept that has been used up.
-/

namespace Rewind

/-- What lies in one piece. -/
inductive Chunk where
  /-- Text from an offset on. -/
  | text (data : Bytes) (head : Nat)
  | tree (node : NodeId) (ignore : Bool)
  deriving DecidableEq, Repr

namespace Chunk

/-- The number of items in a chunk. -/
def units : Chunk → Nat
  | text data head => data.length - head
  | tree _ _ => 1

/-- The item `offset` items behind the front of the first chunk. -/
def at? : (offset : Nat) → List Chunk → Option Item
  | offset, text data head :: chunks =>
    if offset < data.length - head then data[head + offset]?.map .byte
    else at? (offset - (data.length - head)) chunks
  | 0, tree node ignore :: _ => some (.tree node ignore)
  | offset + 1, tree _ _ :: chunks => at? offset chunks
  | _, [] => none

/-- Takes at most `n` bytes from the front, not going past a tree. -/
def takeText : (n : Nat) → List Chunk → Bytes × List Chunk
  | n + 1, text data head :: chunks =>
    let used := min (n + 1) (data.length - head)
    if head + used = data.length then
      let (more, rest) := takeText (n + 1 - used) chunks
      ((data.drop head).take used ++ more, rest)
    else ((data.drop head).take used, text data (head + used) :: chunks)
  | _, chunks => ([], chunks)

/-- Removes at most `n` items from the front and tells how many it were. -/
def discard : (n : Nat) → List Chunk → Nat × List Chunk
  | n + 1, text data head :: chunks =>
    let used := min (n + 1) (data.length - head)
    if head + used = data.length then
      let (more, rest) := discard (n + 1 - used) chunks
      (used + more, rest)
    else (used, text data (head + used) :: chunks)
  | n + 1, tree _ _ :: chunks =>
    let (more, rest) := discard n chunks
    (1 + more, rest)
  | _, chunks => (0, chunks)

end Chunk

/-- A stream as it lies in memory. -/
structure Queue where
  chunks : List Chunk := []
  source : List Delivery := []
  sourceEnded : Bool := true
  position : Position := Position.start
  deriving DecidableEq, Repr

namespace Queue

def empty : Queue := {}

/-- The queue with text behind everything. -/
def append (text : Bytes) (q : Queue) : Queue :=
  if text.isEmpty then q else { q with chunks := q.chunks ++ [.text text 0] }

/-- The queue with text in front of everything. -/
def pushText (text : Bytes) (q : Queue) : Queue :=
  if text.isEmpty then q else { q with chunks := .text text 0 :: q.chunks }

def ofBytes (text : Bytes) : Queue :=
  empty.append text

def ofSource (source : List Delivery) : Queue :=
  { source, sourceEnded := false }

/-- The number of items at hand. -/
def length (q : Queue) : Nat :=
  (q.chunks.map Chunk.units).sum

/-- Whether nothing is at hand and nothing is left to read. -/
def isEof (q : Queue) : Bool :=
  q.sourceEnded && q.chunks.isEmpty

/-- Reads from a source until it has delivered `n` bytes, has ended or has failed. -/
def drain : (n : Nat) → List Delivery → EStateM String Queue Nat
  | 0, source, q => .ok 0 { q with source }
  | _ + 1, [], q => .ok 0 { q with source := [], sourceEnded := true }
  | n + 1, .interrupted :: source, q => drain (n + 1) source q
  | _ + 1, .failure message :: source, q => .error message { q with source }
  | _ + 1, .data [] :: source, q => .ok 0 { q with source, sourceEnded := true }
  | n + 1, .data bytes :: source, q =>
    if bytes.length ≤ max Stream.readLength (n + 1) then
      match drain (n + 1 - bytes.length) source (q.append bytes) with
      | .ok k q => .ok (bytes.length + k) q
      | .error message q => .error message q
    else
      let size := max Stream.readLength (n + 1)
      .ok size (append (bytes.take size) { q with source := .data (bytes.drop size) :: source })

/-- Reads at least `n` bytes more, fewer only if the source ends. -/
def pull (n : Nat) : EStateM String Queue Nat := fun q =>
  if q.sourceEnded then .ok 0 q else drain n q.source q

/-- The item `offset` items ahead.  A read that succeeds brings it to hand, unless the source has
ended. -/
def peek (offset : Nat) : EStateM String Queue (Option Item) := fun q =>
  if q.length ≤ offset then
    match pull (offset + 1 - q.length) q with
    | .ok _ q => .ok (Chunk.at? offset q.chunks) q
    | .error message q => .error message q
  else .ok (Chunk.at? offset q.chunks) q

def extract (n : Nat) (q : Queue) : Bytes × Queue :=
  let (text, rest) := Chunk.takeText n q.chunks
  (text, { q with chunks := rest, position := q.position.advance text })

def putBack (text : Bytes) (position : Position) (q : Queue) : Queue :=
  { q.pushText text with position }

def takeTree? (q : Queue) : Option ((NodeId × Bool) × Queue) :=
  match q.chunks with
  | .tree node ignore :: rest => some ((node, ignore), { q with chunks := rest })
  | _ => none

def pushTree (node : NodeId) (ignore : Bool) (q : Queue) : Queue :=
  { q with chunks := .tree node ignore :: q.chunks }

def pushback (n : Nat) (q : Queue) : Nat × Queue :=
  let (removed, rest) := Chunk.discard n q.chunks
  (removed, { q with chunks := rest })

end Queue

end Rewind
