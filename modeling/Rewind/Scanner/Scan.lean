import Rewind.Scanner.Error
import Rewind.Scanner.Tables
import Rewind.Stream.Content

/-!
# Scanning a token

A `Scan` looks ahead in a stream, byte by byte, and takes nothing.  Whenever it arrives in a final
state with a candidate, it remembers the candidate and how far it has come; the last one remembered
is the token.  The scan is over in the dead state and where the text ends, at the end of the stream
or in front of a tree, or as soon as an action accepts a token.

`Scan.step` looks at one more item, and `Scan.run` repeats it.  Each step but the last one moves
ahead by a byte that the stream really holds, so a scan ends.
-/

namespace Rewind.Scanner

/-- What a scan finds at the front of a stream. -/
inductive Outcome where
  /-- A token of so many bytes. -/
  | token (token : ElementId) (length : Nat)
  /-- A tree. -/
  | tree (node : NodeId) (ignore : Bool)
  /-- Nothing: the stream is exhausted. -/
  | eof
  /-- Text that begins with no token of the region. -/
  | noToken
  deriving DecidableEq, Repr

namespace Outcome

/-- A token of so many bytes.  One without bytes would never get a reader any further, so it does
not count. -/
def accept (token : ElementId) (length : Nat) : Outcome :=
  if length = 0 then .noToken else .token token length

/-- The token and its length, if there is one. -/
def match? : Outcome → Option (ElementId × Nat)
  | token id length => some (id, length)
  | _ => none

end Outcome

/-- How far the scan had come at each mark, if it was set. -/
abbrev Marks := Vector (Option Nat) markSlots

/-- No mark is set. -/
def Marks.unset : Marks := Vector.replicate markSlots none

/-- A scan on its way. -/
structure Scan where
  stream : Stream
  state : StateId
  /-- How many bytes it has passed. -/
  offset : Nat := 0
  /-- The token that the text passed may be. -/
  candidate : Option ElementId := none
  marks : Marks := Marks.unset
  /-- The longest token found, and its length. -/
  longest : Option (ElementId × Nat) := none
  deriving DecidableEq, Repr

namespace Scan

/-- A stage of a scan.  Its answer is the outcome of the whole scan, or none if the scan goes on. -/
abbrev Stage := Attempt Error Scan (Option Outcome)

/-- One stage and, unless it ended the scan, another. -/
def Stage.andThen (first second : Stage) : Stage := fun s =>
  match first s with
  | .ok none t => second t
  | .ok (some outcome) t => .ok (some outcome) t
  | .error e t => .error e t

/-- A stage that goes on with a changed scan. -/
def change (f : Scan → Scan) : Stage := fun s =>
  .ok none (f s)

/-- Does what an action says.  A token that is accepted ends at `ending`. -/
def perform (ending : Nat) : Action → Stage
  | .candidate token, s => .ok none { s with candidate := some token }
  | .accept token, s => .ok (some (.accept token ending)) s
  | .mark slot, s =>
    if h : slot < markSlots then
      .ok none { s with marks := s.marks.set slot (some s.offset) }
    else
      .error (.error (.markSlot slot)) s
  | .acceptAtMark slot token, s =>
    if h : slot < markSlots then
      match s.marks[slot] with
      | some marked => .ok (some (.accept token marked)) s
      | none => .error (.error (.unsetMark slot)) s
    else
      .error (.error (.markSlot slot)) s

/-- Performs the action at an index of the tables. -/
def performAt (t : Tables) (ending index : Nat) : Stage := fun s =>
  match entry t.actions index with
  | .ok action => perform ending action s
  | .error f => .error (.fault f) s

/-- Performs the actions of a list until one of them ends the scan.  What stands behind that one is
never looked up. -/
def execute (t : Tables) (ending : Nat) : List Nat → Stage
  | [], s => .ok none s
  | index :: rest, s => (performAt t ending index).andThen (execute t ending rest) s

/-- Does what the list at an offset of the tables says. -/
def executeList (t : Tables) (list : Except Fault Nat) (ending : Nat) : Stage := fun s =>
  match list >>= t.listAt with
  | .ok indices => execute t ending indices s
  | .error f => .error (.fault f) s

/-- In a final state, the candidate is the longest token so far. -/
def remember (t : Tables) (s : Scan) : Scan :=
  match s.candidate with
  | some token => if t.isFinal s.state then { s with longest := some (token, s.offset) } else s
  | none => s

/-- Ends the scan with the longest token found. -/
def conclude : Stage := fun s =>
  match s.longest with
  | some (token, length) => .ok (some (.accept token length)) s
  | none => .ok (some .noToken) s

/-- Takes the transition on a byte.  In the dead state, the scan is over. -/
def advance (t : Tables) (key : UInt8) : Stage := fun s =>
  match t.transition s.state key with
  | .error f => .error (.fault f) s
  | .ok transition =>
    match entry t.targets transition with
    | .error f => .error (.fault f) s
    | .ok target =>
      (executeList t (entry t.onTransition transition) (s.offset + 1)).andThen
        ((change fun s => { s with offset := s.offset + 1 }).andThen
          (if target = t.dead then conclude
          else
            (executeList t (entry t.onArrival target) (s.offset + 1)).andThen
              (change (remember t))))
        { s with state := target }

/-- Ends the scan where the text ends. -/
def finish (t : Tables) : Stage := fun s =>
  ((executeList t (entry t.onEnd s.state) s.offset).andThen
    ((change (remember t)).andThen conclude)) s

/-- Goes on with the item ahead.  At the very front, a tree or the end of the stream is itself what
was found. -/
def meet (t : Tables) : Option Item → Stage
  | some (.byte key), s => advance t key s
  | some (.tree node ignore), s =>
    if s.offset = 0 then .ok (some (.tree node ignore)) s else finish t s
  | none, s => if s.offset = 0 then .ok (some .eof) s else finish t s

/-- Looks at the item ahead and goes on with it. -/
def look (t : Tables) : Stage := fun s =>
  match s.stream.peek s.offset with
  | .ok item stream => meet t item { s with stream }
  | .error message stream => .error (.error (.unreadable message)) { s with stream }

/-- Looks at one more item. -/
def step (t : Tables) : Stage := fun s =>
  (executeList t (entry t.onDeparture s.state) s.offset).andThen (look t)
    { s with candidate := none }

/-! ## A step moves ahead -/

theorem Stage.andThen_eq_none {first second : Stage} {s u : Scan} :
    first.andThen second s = .ok none u ↔
      ∃ t, first s = .ok none t ∧ second t = .ok none u := by
  unfold Stage.andThen
  constructor
  · intro h
    split at h
    · exact ⟨_, ‹_›, h⟩
    · cases h
    · cases h
  · rintro ⟨t, h, h'⟩
    rw [h]
    exact h'

/-- An action leaves alone what the scan has read and how far it has come. -/
theorem perform_frame {ending : Nat} {action : Action} {s t : Scan} {r : Option Outcome}
    (h : perform ending action s = .ok r t) :
    t.stream = s.stream ∧ t.offset = s.offset ∧ t.state = s.state ∧ t.longest = s.longest := by
  unfold perform at h
  split at h
  · cases h
    simp
  · cases h
    simp
  · split at h
    · cases h
      simp
    · cases h
  · split at h
    · split at h
      · cases h
        simp
      · cases h
    · cases h

theorem performAt_frame {tables : Tables} {ending index : Nat} {s t : Scan} {r : Option Outcome}
    (h : performAt tables ending index s = .ok r t) :
    t.stream = s.stream ∧ t.offset = s.offset ∧ t.state = s.state ∧ t.longest = s.longest := by
  unfold performAt at h
  split at h
  · exact perform_frame h
  · cases h

/-- So do the actions of a list. -/
theorem execute_frame {tables : Tables} {ending : Nat} {indices : List Nat} {s t : Scan}
    {r : Option Outcome} (h : execute tables ending indices s = .ok r t) :
    t.stream = s.stream ∧ t.offset = s.offset ∧ t.state = s.state ∧ t.longest = s.longest := by
  induction indices generalizing s with
  | nil =>
    cases h
    simp
  | cons index rest ih =>
    simp only [execute, Stage.andThen] at h
    split at h
    · rename_i u hu
      have hfirst := performAt_frame hu
      have hrest := ih h
      simp_all
    · rename_i outcome u hu
      cases h
      exact performAt_frame hu
    · cases h

theorem executeList_frame {t : Tables} {list : Except Fault Nat} {ending : Nat} {s u : Scan}
    {r : Option Outcome} (h : executeList t list ending s = .ok r u) :
    u.stream = s.stream ∧ u.offset = s.offset ∧ u.state = s.state ∧ u.longest = s.longest := by
  unfold executeList at h
  split at h
  · exact execute_frame h
  · cases h

@[simp] theorem stream_remember (t : Tables) (s : Scan) : (remember t s).stream = s.stream := by
  unfold remember
  split <;> try split
  all_goals rfl

@[simp] theorem offset_remember (t : Tables) (s : Scan) : (remember t s).offset = s.offset := by
  unfold remember
  split <;> try split
  all_goals rfl

theorem conclude_ne_none (s t : Scan) : conclude s ≠ .ok none t := by
  unfold conclude
  split <;> simp

theorem advance_eq_none {t : Tables} {key : UInt8} {s u : Scan}
    (h : advance t key s = .ok none u) :
    u.stream = s.stream ∧ u.offset = s.offset + 1 := by
  unfold advance at h
  split at h
  · cases h
  split at h
  · cases h
  rw [Stage.andThen_eq_none] at h
  obtain ⟨v, hv, h⟩ := h
  have hfv := executeList_frame hv
  rw [Stage.andThen_eq_none] at h
  obtain ⟨w, hw, h⟩ := h
  cases hw
  split at h
  · exact absurd h (conclude_ne_none _ _)
  · rw [Stage.andThen_eq_none] at h
    obtain ⟨x, hx, h⟩ := h
    have hfx := executeList_frame hx
    cases h
    simp [hfx.1, hfx.2.1, hfv.1, hfv.2.1]

theorem finish_ne_none (t : Tables) (s u : Scan) : finish t s ≠ .ok none u := by
  intro h
  unfold finish at h
  rw [Stage.andThen_eq_none] at h
  obtain ⟨v, _, h⟩ := h
  rw [Stage.andThen_eq_none] at h
  obtain ⟨w, _, h⟩ := h
  exact conclude_ne_none _ _ h

/-- A step that does not end the scan passes one byte of the stream. -/
theorem step_eq_none {t : Tables} {s u : Scan} (h : step t s = .ok none u) :
    u.stream.content = s.stream.content ∧ u.offset = s.offset + 1 ∧
      s.offset < s.stream.content.length := by
  unfold step at h
  rw [Stage.andThen_eq_none] at h
  obtain ⟨v, hv, h⟩ := h
  obtain ⟨hstream, hoffset, _, _⟩ := executeList_frame hv
  unfold look at h
  split at h
  · rename_i item stream hpeek
    obtain ⟨hc, _, _⟩ := Stream.peek_ok hpeek
    rw [hstream] at hpeek hc
    rw [hoffset] at hpeek
    unfold meet at h
    split at h
    · obtain ⟨hs, ho⟩ := advance_eq_none h
      exact ⟨by rw [hs]; exact hc, by rw [ho]; simp [hoffset],
        Stream.lt_length_content_of_peek hpeek⟩
    · split at h
      · cases h
      · exact absurd h (finish_ne_none _ _ _)
    · split at h
      · cases h
      · exact absurd h (finish_ne_none _ _ _)
  · cases h

/-! ## The whole scan -/

/-- Looks ahead until the scan is over. -/
def run (t : Tables) (s : Scan) : EStateM.Result (Failure Error) Scan Outcome :=
  match _h : step t s with
  | .ok none u => run t u
  | .ok (some outcome) u => .ok outcome u
  | .error e u => .error e u
  termination_by s.stream.content.length - s.offset
  decreasing_by
    obtain ⟨hc, ho, hlt⟩ := step_eq_none _h
    rw [hc, ho]
    omega

end Scan

end Rewind.Scanner
