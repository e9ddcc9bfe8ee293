import Rewind.Proofs.Veil

/-!
# Streams that are read in advance

`Stream.flat` is a stream with all that it holds at hand.  As long as no source fails, it makes no
difference to a scan whether the stream is read in advance, and none to whatever puts something in
front of the stream or takes what was found there.  Only where items are removed by their number do
they have to be at hand.
-/

namespace Rewind

namespace Stream

variable {s t : Stream}

/-- The stream with all that it holds at hand. -/
def flat (s : Stream) : Stream :=
  { buffered := s.content, position := s.position }

/-- The source never fails. -/
def Reliable (s : Stream) : Prop :=
  ∀ message, .failure message ∉ s.source

/-- Streams of one content, at one position, are the same when read in advance. -/
lemma flat_congr (hcontent : t.content = s.content) (hposition : t.position = s.position) :
    t.flat = s.flat := by
  rw [flat, flat, hcontent, hposition]

/-! ## Reading -/

lemma fetch_reliable {n : Nat} {source : List Delivery}
    (h : ∀ message, .failure message ∉ source) :
    (fetch n source).failure = none ∧
      ∀ message, .failure message ∉ (fetch n source).source := by
  obtain ⟨hfailure, hrest⟩ := fetch_failures n source
  exact ⟨Option.eq_none_iff_forall_ne_some.2 fun message hfails =>
    h message (hfailure message hfails),
    fun message hmem => h message (hrest message hmem)⟩

lemma pull_reliable (n : Nat) (hs : s.Reliable) : ∃ k t, pull n s = .ok k t ∧ t.Reliable := by
  unfold pull
  split
  · exact ⟨0, s, rfl, hs⟩
  · obtain ⟨hfailure, hrest⟩ := fetch_reliable (n := n) hs
    simp only [hfailure]
    exact ⟨_, _, rfl, hrest⟩

/-- A reliable stream shows what it holds, and stays reliable. -/
lemma peek_reliable (offset : Nat) (hs : s.Reliable) :
    ∃ t, peek offset s = .ok s.content[offset]? t ∧ s.Extends t ∧ t.Reliable := by
  obtain ⟨item, t, hpeek, ht⟩ : ∃ item t, peek offset s = .ok item t ∧ t.Reliable := by
    unfold peek
    cases s.buffered[offset]? with
    | some item => exact ⟨_, _, rfl, hs⟩
    | none =>
      obtain ⟨k, t, hpull, ht⟩ := pull_reliable (offset + 1 - s.buffered.length) hs
      simp only [hpull]
      exact ⟨_, _, rfl, ht⟩
  obtain ⟨hextends, -, hitem, -⟩ := extends_of_peek hpeek
  exact ⟨t, hitem ▸ hpeek, hextends, ht⟩

/-- A stream that was read in advance shows the same, and reads nothing. -/
lemma peek_flat (offset : Nat) (s : Stream) :
    peek offset s.flat = .ok s.content[offset]? s.flat := by
  have hsame : s.flat.buffered[offset]? = s.content[offset]? := rfl
  unfold peek
  rw [hsame]
  cases hitem : s.content[offset]? with
  | some item => rfl
  | none => exact congrArg (EStateM.Result.ok · s.flat) (hsame.trans hitem)

/-! ## In front of the stream -/

lemma flat_putBack (text : Bytes) (position : Position) (s : Stream) :
    s.flat.putBack text position = (s.putBack text position).flat := by
  rw [flat, flat, content_putBack]
  rfl

lemma flat_pushText (text : Bytes) (s : Stream) :
    s.flat.pushText text = (s.pushText text).flat := by
  rw [flat, flat, content_pushText]
  rfl

lemma flat_pushTree (id : NodeId) (ignore : Bool) (s : Stream) :
    s.flat.pushTree id ignore = (s.pushTree id ignore).flat := rfl

lemma flat_takeTree? (s : Stream) :
    s.flat.takeTree? = s.takeTree?.map (Prod.map id flat) := by
  have hbuffered : s.flat.buffered = s.buffered ++ s.unread.map .byte := rfl
  unfold takeTree?
  cases hs : s.buffered with
  | cons item rest =>
    rw [hs] at hbuffered
    simp only [hbuffered]
    cases item <;> rfl
  | nil =>
    rw [hs] at hbuffered
    simp only [hbuffered]
    cases s.unread <;> rfl

lemma splitText_append {n : Nat} {items more : List Item} (h : n ≤ leading items) :
    splitText n (items ++ more) = ((splitText n items).1, (splitText n items).2 ++ more) := by
  induction n generalizing items with
  | zero =>
    unfold splitText
    rfl
  | succ n ih =>
    cases items with
    | nil => exact absurd h (Nat.not_succ_le_zero _)
    | cons item items =>
      cases item with
      | tree node ignore => exact absurd h (Nat.not_succ_le_zero _)
      | byte b =>
        have hle : n ≤ leading items := by simpa [leading] using h
        have hrest := ih hle
        simp only [List.cons_append, splitText, hrest]

/-- Bytes that are at hand are taken in the same way. -/
lemma flat_extract {n : Nat} (h : n ≤ leading s.buffered) :
    s.flat.extract n = ((s.extract n).1, (s.extract n).2.flat) := by
  unfold extract
  rw [show s.flat.buffered = s.buffered ++ s.unread.map .byte from rfl, splitText_append h]
  rfl

/-- So are items that are at hand removed. -/
lemma flat_pushback {n : Nat} (h : n ≤ s.buffered.length) :
    (s.flat.pushback n).2 = (s.pushback n).2.flat := by
  have hdrop : s.flat.buffered.drop n = s.buffered.drop n ++ s.unread.map Item.byte :=
    List.drop_append_of_le_length h
  unfold pushback
  rw [hdrop]
  rfl

end Stream

namespace Scanner

open Rewind.Stream (flat flat_congr peek_flat peek_reliable)

namespace Scan

variable {t : Tables} {s : Scan}

/-- The scan of a stream that was read in advance. -/
def flat (s : Scan) : Scan :=
  { s with stream := s.stream.flat }

/-- The second result is the first of a stream read in advance, which has not failed so far. -/
inductive Foreseen {α : Type} :
    EStateM.Result (Failure Error) Scan α → EStateM.Result (Failure Error) Scan α → Prop
  | ok (a : α) (u : Scan) : u.stream.Reliable → Foreseen (.ok a u) (.ok a u.flat)
  | error (e : Failure Error) (u : Scan) : u.stream.Reliable →
    Foreseen (.error e u) (.error e u.flat)

/-- A stage that does not depend on how much of the stream is at hand. -/
def Level (stage : Stage) : Prop :=
  ∀ s : Scan, s.stream.Reliable → Foreseen (stage s) (stage s.flat)

namespace Level

lemma of_blind {stage : Stage} (h : Blind stage) : Level stage := by
  intro s hs
  rw [flat, h s s.stream.flat]
  cases hrun : stage s with
  | ok r u =>
    obtain ⟨hstream, -⟩ := h.ok hrun
    rw [← hstream] at hs ⊢
    exact .ok r u hs
  | error e u =>
    obtain ⟨hstream, -⟩ := h.error hrun
    rw [← hstream] at hs ⊢
    exact .error e u hs

lemma andThen {first second : Stage} (hfirst : Level first) (hsecond : Level second) :
    Level (first.andThen second) := by
  intro s hs
  have h := hfirst s hs
  unfold Stage.andThen
  cases h1 : first s with
  | ok r u =>
    rw [h1] at h
    generalize first s.flat = x at h ⊢
    cases h with
    | ok _ _ hu =>
      cases r with
      | none => exact hsecond u hu
      | some outcome => exact .ok _ u hu
  | error e u =>
    rw [h1] at h
    generalize first s.flat = x at h ⊢
    cases h with
    | error _ _ hu => exact .error e u hu

/-- Looking ahead reads from a stream no more than was read in advance. -/
lemma look : Level (Scan.look t) := by
  intro s hs
  obtain ⟨stream, hpeek, hextends, hreliable⟩ := peek_reliable s.offset hs
  have hsame : stream.flat = s.stream.flat := flat_congr hextends.content hextends.position
  have hmeet :=
    of_blind (Blind.meet (t := t) s.stream.content[s.offset]?) { s with stream } hreliable
  have hlook : Scan.look t s = meet t s.stream.content[s.offset]? { s with stream } := by
    rw [Scan.look, hpeek]
  have hlook' : Scan.look t s.flat = meet t s.stream.content[s.offset]? s.flat := by
    rw [Scan.look, show s.flat.stream = s.stream.flat from rfl,
      show s.flat.offset = s.offset from rfl, peek_flat]
    rfl
  rw [flat, hsame] at hmeet
  rw [hlook, hlook']
  exact hmeet

lemma step : Level (Scan.step t) := by
  intro s hs
  exact (of_blind (Blind.executeList _ _)).andThen look { s with candidate := none } hs

end Level

/-- Nor does a whole scan depend on how much of the stream is at hand. -/
theorem run_flat (hs : s.stream.Reliable) : Foreseen (run t s) (run t s.flat) := by
  have hfirst := Level.step (t := t) s hs
  fun_induction run t s with
  | case1 s u hstep ih =>
    rw [hstep] at hfirst
    rw [run.eq_def t s.flat]
    generalize step t s.flat = x at hfirst ⊢
    cases hfirst with
    | ok _ _ hu => exact ih hu (Level.step u hu)
  | case2 s outcome u hstep =>
    rw [hstep] at hfirst
    rw [run.eq_def t s.flat]
    generalize step t s.flat = x at hfirst ⊢
    cases hfirst with
    | ok _ _ hu => exact .ok outcome u hu
  | case3 s e u hstep =>
    rw [hstep] at hfirst
    rw [run.eq_def t s.flat]
    generalize step t s.flat = x at hfirst ⊢
    cases hfirst with
    | error _ _ hu => exact .error e u hu

end Scan

end Scanner

end Rewind
