import Rewind.Fault
import Rewind.Vocabulary
import Rewind.Position
import Rewind.Position.Words
import Rewind.Span
import Rewind.Escaped
import Rewind.Report
import Rewind.Journal
import Rewind.Pool
import Rewind.Bindings
import Rewind.Node
import Rewind.Forest
import Rewind.Shape
import Rewind.Stream
import Rewind.Stream.Content
import Rewind.Grammar.Action
import Rewind.Table
import Rewind.Scanner.Action
import Rewind.Scanner.Tables
import Rewind.Scanner.Validation
import Rewind.Scanner.Error
import Rewind.Scanner.Scan
import Rewind.Scanner
import Rewind.Grammar.Tables
import Rewind.Grammar.Validation
import Rewind.Run.Record
import Rewind.Run.Point
import Rewind.Run.Error
import Rewind.Run.Event
import Rewind.Run.State
import Rewind.Run.Op
import Rewind.Run.Undo
import Rewind.Run.Acquire
import Rewind.Run.Step
import Rewind.Run.Parse
import Rewind.Run.Caller
import Rewind.Run.Tree
import Rewind.Run.Snapshot
import Rewind.Proofs.Attempt
import Rewind.Proofs.Laws
import Rewind.Proofs.Pool
import Rewind.Proofs.Chain
import Rewind.Proofs.Scan
import Rewind.Proofs.View
import Rewind.Proofs.Undo
import Rewind.Proofs.Forward
import Rewind.Proofs.Operations
import Rewind.Proofs.Course
import Rewind.Proofs.Unwind
import Rewind.Proofs.Turns
import Rewind.Proofs.Calls
import Rewind.Proofs.History
import Rewind.Proofs.Exactness
import Rewind.Proofs.Balance
import Rewind.Proofs.Backtrack
import Rewind.Proofs.Invariants
import Rewind.Proofs.Retries
import Rewind.Proofs.Scripts
import Rewind.Proofs.Barriers
import Rewind.Proofs.Trees
import Rewind.Proofs.Scene
import Rewind.Proofs.Written
import Rewind.Proofs.Yield
import Rewind.Proofs.Lossless
import Rewind.Proofs.Spans
import Rewind.Proofs.Lexemes
import Rewind.Proofs.Locations
import Rewind.Proofs.Search
import Rewind.Proofs.Choices
import Rewind.Proofs.Lockstep
import Rewind.Proofs.Refinement
import Rewind.Proofs.Trail
import Rewind.Proofs.Alternatives
import Rewind.Proofs.Routes
import Rewind.Proofs.Driver
import Rewind.Proofs.Ownership
import Rewind.Proofs.Release
import Rewind.Proofs.Safety
import Rewind.Proofs.Reverted
import Rewind.Proofs.Holdings
import Rewind.Proofs.Horizon
import Rewind.Proofs.Decisions
import Rewind.Proofs.Slots
import Rewind.Proofs.Garbage
import Rewind.Proofs.Frame
import Rewind.Proofs.Veil
import Rewind.Proofs.Requests
import Rewind.Proofs.Pauses
import Rewind.Proofs.Interruptions
import Rewind.Proofs.Flat
import Rewind.Proofs.Provision
import Rewind.Proofs.Readiness
import Rewind.Proofs.Chunking
import Rewind.Proofs.Bytewise
import Rewind.Proofs.Forks
import Rewind.Proofs.Tracking
import Rewind.Proofs.Failures
import Rewind.Proofs.Gist
import Rewind.Proofs.Outline
import Rewind.Proofs.Dealings
import Rewind.Proofs.Contributions
import Rewind.Proofs.Books
import Rewind.Proofs.Upkeep
import Rewind.Proofs.Protocol
import Rewind.Proofs.Additions
import Rewind.Proofs.Debts
import Rewind.Proofs.Frontage
import Rewind.Proofs.Climbing
import Rewind.Proofs.Mishaps
import Rewind.Proofs.Descent
import Rewind.Proofs.Onward
import Rewind.Proofs.Retrace
import Rewind.Proofs.Ascent
import Rewind.Proofs.Playing
import Rewind.Proofs.Padding
import Rewind.Pool.Blocks
import Rewind.Proofs.Bounds
import Rewind.Proofs.Confines
import Rewind.Proofs.Inverses
import Rewind.Proofs.Known
import Rewind.Proofs.Layout
import Rewind.Proofs.Ledger
import Rewind.Proofs.Queue
import Rewind.Proofs.Buffering
import Rewind.Proofs.Progress
import Rewind.Proofs.Reopening
import Rewind.Proofs.Validity
import Rewind.Proofs.Bridges
import Rewind.Proofs.Arming
import Rewind.Proofs.Endings
import Rewind.Proofs.Probes
import Rewind.Proofs.Reading
import Rewind.Proofs.Longest
import Rewind.Proofs.Recording
import Rewind.Proofs.Aftermath
import Rewind.Proofs.Composure
import Rewind.Proofs.Replay
import Rewind.Proofs.Transitions
import Rewind.Proofs.Enumeration
import Rewind.Proofs.Felling
import Rewind.Proofs.Covering
import Rewind.Proofs.Complaints
import Rewind.Proofs.Cuts
