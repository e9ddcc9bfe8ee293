import Rewind.Escaped
import Rewind.Span
import Rewind.Vocabulary

/-!
# Points at which a run waits

A run gives control back whenever somebody else has to act, and tells why by its `Status`.  It
stays at a `Point` from which it goes on when it is entered again, by the `Entry` that fits.
-/

namespace Rewind.Run

/-- How a run is entered again. -/
inductive Entry where
  | start
  /-- The action of a reduction is done. -/
  | reduction
  /-- The action of a generation token is done. -/
  | generation
  /-- The action at the end of the input is done. -/
  | preEof
  /-- The caller has taken back an action of its own. -/
  | reverse
  deriving DecidableEq, Repr

namespace Entry

/-- The entry in words. -/
def render : Entry → String
  | start => "start"
  | reduction => "reduction"
  | generation => "generation"
  | preEof => "pre-eof"
  | reverse => "reverse"

end Entry

/-- How far changes are taken back. -/
inductive Goal where
  /-- To where so many steps had been completed. -/
  | step (steps : Nat)
  /-- To the latest decision that could have been another. -/
  | backtrack
  deriving DecidableEq, Repr

/-- Where a run is while nobody runs it. -/
inductive Point where
  /-- Ready to go forward. -/
  | start
  /-- Waiting for the action of a reduction, whose step commits or not. -/
  | reduction (production : ProductionId) (commits : Bool)
  /-- Waiting for the action of a generation token. -/
  | generation
  /-- Waiting for the action at the end of the input. -/
  | preEof
  /-- Taking back changes. -/
  | reverse (goal : Goal)
  /-- Finished. -/
  | done
  deriving DecidableEq, Repr

namespace Point

/-- The point in words. -/
def render : Point → String
  | start => "start"
  | reduction production _ => s!"reduction by production {production}"
  | generation => "generation"
  | preEof => "pre-eof"
  | reverse (.step steps) => s!"reverse to step {steps}"
  | reverse .backtrack => "backtrack"
  | done => "done"

/-- The entry that fits. -/
def entry : Point → Entry
  | start => .start
  | reduction _ _ => .reduction
  | generation => .generation
  | preEof => .preEof
  | reverse _ => .reverse
  | done => .start

end Point

/-- Why a run gives control back. -/
inductive Status where
  /-- The input is parsed. -/
  | done
  /-- The caller asked for a stop. -/
  | stopped
  /-- The number of steps asked for is reached. -/
  | paused
  /-- A production was reduced, and the caller acts on it. -/
  | reduction (production : ProductionId) (tree : NodeId) (children : List NodeId)
  /-- A generation token was taken from the stream, and the caller acts on it. -/
  | generation (token : ElementId) (text : Bytes) (span : Span)
  /-- The input of a region has ended, and the caller acts on that. -/
  | preEof (region : RegionId)
  /-- The caller has to take back an action of its own. -/
  | reverse (data : Bytes)
  /-- So many steps are left, as was asked for. -/
  | reverted (steps : Nat)
  deriving DecidableEq, Repr

/-- A node in words. -/
def renderNode (id : NodeId) : String :=
  s!"#{id}"

/-- A reduction in words. -/
def renderReduction (production : ProductionId) (tree : NodeId) : String :=
  s!"reduction by production {production} producing {quote (renderNode tree)}"

end Rewind.Run
