import Rewind.Run.Op

/-!
# Acquiring a lookahead

The tokens of a state are scanned in its regions, one region after the other, until one of them
finds something.  Ignored tokens and trees are set aside, and acquiring is to be repeated; tokens of
a generation element are handed to the caller; everything else is queued.  The end of the stream is
a token too, behind the action of the caller that the region may ask for.
-/

namespace Rewind.Run

/-- What acquiring came to. -/
inductive Acquired where
  /-- There is a lookahead. -/
  | queued
  /-- Something was set aside. -/
  | skipped
  /-- The caller has to act. -/
  | suspended (status : Status)
  /-- No region finds anything; this was the first of them. -/
  | noToken (region : RegionId)

open Op

/-- Notes that something was taken from the stream: the action at the end of the input is due again
when the end is met again. -/
def tookInput : Op Unit := do
  if (← get).endActionRan then
    write (.endActionMarked true)
    modify fun r => { r with endActionRan := false }

/-- Takes the token of so many bytes at the front of the stream. -/
def takeToken (m : Machine) (region : RegionId) (element : ElementId) (length : Nat) :
    Op Acquired := do
  let start := (← get).position
  let text ← onStream (·.extract length)
  let span : Span := ⟨start, text.length⟩
  tookInput
  if m.grammar.generates element then
    write (.consumed text start)
    modify fun r => { r with point := .generation }
    return .suspended (.generation element text span)
  else
    let id ← alloc (Node.token element text span)
    tell (.token region element text)
    if m.grammar.ignores element then
      setAside id
      write (.setAside id start)
      return .skipped
    else
      putBack id
      write (.scanned id start)
      return .queued

/-- Takes the tree at the front of the stream. -/
def takeTree (region : RegionId) (id : NodeId) (ignore : Bool) : Op Acquired := do
  changeStream fun s => match s.takeTree? with
    | some (_, rest) => rest
    | none => s
  tookInput
  write (.treeTaken id ignore)
  let tree ← node id
  tell (.token region tree.element tree.text)
  if ignore then
    setAside id
    return .skipped
  else
    putBack id
    return .queued

/-- Meets the end of the stream. -/
def meetEnd (m : Machine) (region : RegionId) : Op Acquired := do
  let r ← get
  if m.grammar.actsAtEnd region ∧ r.endActionRan = false then
    write (.endActionMarked false)
    modify fun r => { r with endActionRan := true, point := .preEof }
    return .suspended (.preEof region)
  else
    let id ← alloc (Node.token m.grammar.eof [] ⟨r.position, 0⟩)
    tell (.token region m.grammar.eof [])
    putBack id
    write (.scanned id r.position)
    return .queued

/-- Tries regions in order; `first` is the one to blame if none of them finds anything. -/
def acquireIn (m : Machine) (first : RegionId) : List RegionId → Op Acquired
  | [] => return .noToken first
  | region :: rest => do
    match ← scan m region with
    | .noToken => acquireIn m first rest
    | .eof => meetEnd m region
    | .tree id ignore => takeTree region id ignore
    | .token element length => takeToken m region element length

/-- Acquires one token in the regions of the state. -/
def acquire (m : Machine) : Op Acquired := do
  let regions ← lookup (m.grammar.regionsOf (← get).state)
  acquireIn m (regions.headD 0) regions

end Rewind.Run
