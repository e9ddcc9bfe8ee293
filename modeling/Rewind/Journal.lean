/-!
# Journals

A `Journal` is a log that is written and taken back at its tail only.  Whoever changes a state
writes down how to change it back; undoing is then a matter of taking records from the tail, newest
first, and acting on each.

A mark is the length of the log at some moment.  It stays meaningful for as long as the log has not
been cut below it.
-/

namespace Rewind

/-- A log, its newest record first. -/
structure Journal (ρ : Type) where
  records : List ρ := []
  deriving DecidableEq, Repr

namespace Journal

variable {ρ : Type}

/-- The log without any record. -/
def empty : Journal ρ := {}

/-- Writes a record at the tail. -/
def append (log : Journal ρ) (record : ρ) : Journal ρ :=
  ⟨record :: log.records⟩

/-- The number of records. -/
def length (log : Journal ρ) : Nat :=
  log.records.length

/-- The mark of the tail. -/
def mark (log : Journal ρ) : Nat :=
  log.length

/-- Whether there is no record. -/
def isEmpty (log : Journal ρ) : Bool :=
  log.records.isEmpty

/-- The newest record. -/
def last? (log : Journal ρ) : Option ρ :=
  log.records.head?

/-- The records written since a mark, newest first: the order in which to undo them. -/
def since (log : Journal ρ) (mark : Nat) : List ρ :=
  log.records.take (log.length - mark)

/-- The log as it was at a mark; a mark beyond the tail changes nothing. -/
def truncate (log : Journal ρ) (mark : Nat) : Journal ρ :=
  ⟨log.records.drop (log.length - mark)⟩

/-- Takes the newest record off. -/
def pop? (log : Journal ρ) : Option (ρ × Journal ρ) :=
  match log.records with
  | [] => none
  | record :: older => some (record, ⟨older⟩)

@[simp] theorem length_append (log : Journal ρ) (record : ρ) :
    (log.append record).length = log.length + 1 := rfl

@[simp] theorem pop?_append (log : Journal ρ) (record : ρ) :
    (log.append record).pop? = some (record, log) := rfl

theorem length_truncate (log : Journal ρ) (mark : Nat) :
    (log.truncate mark).length = min mark log.length := by
  simp only [truncate, length, List.length_drop]
  omega

/-- Cutting at a mark loses exactly the records written since. -/
theorem since_append_truncate (log : Journal ρ) (mark : Nat) :
    log.since mark ++ (log.truncate mark).records = log.records :=
  List.take_append_drop _ _

end Journal

end Rewind
