import Rewind.Scanner.Scan

/-!
# Scanners

A `Scanner` holds the stream it reads from and what is known of its last scan.  It takes nothing
from the stream: it tells how long a token is, and whoever asked takes that many bytes.  Nothing a
scan leaves behind has any influence on the next one.
-/

namespace Rewind

/-- A stream, if one is attached, and the traces of the last scan. -/
structure Scanner where
  stream : Option Stream := none
  /-- The region of the last scan. -/
  region : RegionId := 0
  /-- The marks of the last scan. -/
  marks : Scanner.Marks := Scanner.Marks.unset
  /-- The length of the token found by the last scan, zero if it found none. -/
  tokenLength : Nat := 0
  /-- The last token found by any scan. -/
  matched : Option ElementId := none
  deriving DecidableEq, Repr

namespace Scanner

/-- Without a stream, before any scan. -/
def detached : Scanner := {}

/-- How far the last scan had come at a mark. -/
def mark? (s : Scanner) (slot : Nat) : Option Nat :=
  (s.marks[slot]?).join

/-- The position of the stream. -/
def position? (s : Scanner) : Option Position :=
  s.stream.map (·.position)

/-- Attaches a stream where none is. -/
def attach (stream : Stream) : Attempt Error Scanner Unit := fun s =>
  match s.stream with
  | none => .ok () { s with stream := some stream }
  | some _ => .error (.error (.alreadyAttached stream)) s

/-- Takes the stream away, and the traces of all scans with it. -/
def detach : Attempt Error Scanner Stream := fun s =>
  match s.stream with
  | some stream => .ok stream detached
  | none => .error (.error .notAttached) s

/-- Does something to the stream. -/
def onStream {α : Type} (f : Stream → α × Stream) : Attempt Error Scanner α := fun s =>
  match s.stream with
  | some stream =>
    let (a, stream) := f stream
    .ok a { s with stream := some stream }
  | none => .error (.error .notAttached) s

/-- The scanner after a scan of a region that ended, or failed, as `scan` is. -/
def leave (s : Scanner) (region : RegionId) (scan : Scan) : Scanner :=
  { s with stream := some scan.stream, region, marks := scan.marks, tokenLength := 0 }

/-- Notes the token found. -/
def note (outcome : Outcome) (s : Scanner) : Scanner :=
  match outcome.match? with
  | some (token, length) => { s with tokenLength := length, matched := some token }
  | none => s

/-- Scans the front of the stream for a token of a region. -/
def run (t : Tables) (region : RegionId) : Attempt Error Scanner Outcome := fun s =>
  match t.entries[region]?, s.stream with
  | none, _ => .error (.error (.badRegion region)) s
  | some _, none => .error (.error .notAttached) s
  | some state, some stream =>
    match Scan.run t { stream, state } with
    | .ok outcome scan => .ok outcome (note outcome (s.leave region scan))
    | .error e scan => .error e (s.leave region scan)

end Scanner

end Rewind
