import Rewind.Position
import Rewind.Vocabulary

/-!
# Streams

A `Stream` is the input in front of a scanner: items already at hand, and a source that delivers
more bytes when asked.  An item is a byte or a whole tree that somebody put there to be read as one
token.

Whatever changes a stream can be taken back.  Text that was taken is put back with the position it
was taken from, a tree is put back as it was, and what was pushed in front is removed by the number
of its items.  Only the text that is taken moves the position.
-/

namespace Rewind

/-- One item of input. -/
inductive Item where
  | byte (b : UInt8)
  /-- A tree to be read as one token, or to be set aside if `ignore`. -/
  | tree (node : NodeId) (ignore : Bool)
  deriving DecidableEq, Repr

namespace Item

/-- The byte, if the item is one. -/
def byte? : Item → Option UInt8
  | byte b => some b
  | tree _ _ => none

end Item

/-- What a source does when it is asked for bytes. -/
inductive Delivery where
  /-- It hands out bytes; none of them means that it has ended. -/
  | data (bytes : Bytes)
  /-- It fails, and says why. -/
  | failure (message : String)
  /-- It was disturbed and is to be asked again. -/
  | interrupted
  deriving DecidableEq, Repr

/-- Input, its next item first. -/
structure Stream where
  /-- The items at hand. -/
  buffered : List Item := []
  /-- What the source does from now on.  A source with nothing left to do has ended. -/
  source : List Delivery := []
  /-- Whether the source has said that it ended. -/
  sourceEnded : Bool := true
  position : Position := Position.start
  deriving DecidableEq, Repr

namespace Stream

/-- The least number of bytes a source is asked for. -/
def readLength : Nat := 8192

/-- The stream without input. -/
def empty : Stream := {}

/-- The stream of a text. -/
def ofBytes (text : Bytes) : Stream :=
  { buffered := text.map .byte }

/-- The stream that reads from a source. -/
def ofSource (source : List Delivery) : Stream :=
  { source, sourceEnded := false }

/-- Whether nothing is at hand and nothing is left to read. -/
def isEof (s : Stream) : Bool :=
  s.sourceEnded && s.buffered.isEmpty

/-- The bytes at hand, without the trees among them. -/
def text (s : Stream) : Bytes :=
  s.buffered.filterMap Item.byte?

/-! ## Reading -/

/-- What came of asking a source for bytes. -/
structure Fetched where
  bytes : Bytes := []
  source : List Delivery := []
  ended : Bool := false
  failure : Option String := none
  deriving DecidableEq, Repr

/-- Asks a source until it has delivered `n` bytes, has ended or has failed.  It is never asked for
fewer bytes than `readLength`, and keeps for later what exceeds the request. -/
def fetch : (n : Nat) → List Delivery → Fetched
  | 0, source => { source }
  | _ + 1, [] => { ended := true }
  | n + 1, .interrupted :: source => fetch (n + 1) source
  | _ + 1, .failure message :: source => { source, failure := some message }
  | _ + 1, .data [] :: source => { source, ended := true }
  | n + 1, .data bytes :: source =>
    if bytes.length ≤ max readLength (n + 1) then
      let more := fetch (n + 1 - bytes.length) source
      { more with bytes := bytes ++ more.bytes }
    else
      { bytes := bytes.take (max readLength (n + 1))
        source := .data (bytes.drop (max readLength (n + 1))) :: source }

/-- Reads at least `n` bytes more, fewer only if the source ends, and tells how many it were.  When
the source fails, the bytes it delivered before are kept. -/
def pull (n : Nat) : EStateM String Stream Nat := fun s =>
  if s.sourceEnded then .ok 0 s
  else
    let got := fetch n s.source
    let t := { s with
      buffered := s.buffered ++ got.bytes.map .byte
      source := got.source
      sourceEnded := got.ended }
    match got.failure with
    | some message => .error message t
    | none => .ok got.bytes.length t

/-- The item `offset` items ahead, which is read from the source if it is not at hand; none if the
stream ends before. -/
def peek (offset : Nat) : EStateM String Stream (Option Item) := fun s =>
  match s.buffered[offset]? with
  | some item => .ok (some item) s
  | none =>
    match pull (offset + 1 - s.buffered.length) s with
    | .ok _ t => .ok t.buffered[offset]? t
    | .error message t => .error message t

/-! ## Taking and putting back -/

/-- The bytes at the front, at most `n` of them, and what comes behind them. -/
def splitText : (n : Nat) → List Item → Bytes × List Item
  | n + 1, .byte b :: items =>
    let (text, rest) := splitText n items
    (b :: text, rest)
  | _, items => ([], items)

/-- Takes at most `n` bytes, not going past a tree, and moves the position behind them. -/
def extract (n : Nat) (s : Stream) : Bytes × Stream :=
  let (text, rest) := splitText n s.buffered
  (text, { s with buffered := rest, position := s.position.advance text })

/-- Puts text back that was taken at a position. -/
def putBack (text : Bytes) (position : Position) (s : Stream) : Stream :=
  { s with buffered := text.map .byte ++ s.buffered, position }

/-- Takes the tree at the front, if there is one. -/
def takeTree? (s : Stream) : Option ((NodeId × Bool) × Stream) :=
  match s.buffered with
  | .tree node ignore :: rest => some ((node, ignore), { s with buffered := rest })
  | _ => none

/-- Puts text in front of everything. -/
def pushText (text : Bytes) (s : Stream) : Stream :=
  { s with buffered := text.map .byte ++ s.buffered }

/-- Puts a tree in front of everything; also what puts a tree back. -/
def pushTree (node : NodeId) (ignore : Bool) (s : Stream) : Stream :=
  { s with buffered := .tree node ignore :: s.buffered }

/-- Removes at most `n` items from the front and tells how many it were. -/
def pushback (n : Nat) (s : Stream) : Nat × Stream :=
  (min n s.buffered.length, { s with buffered := s.buffered.drop n })

end Stream

end Rewind
