import Rewind.Proofs.Readiness

/-!
# Chunks of a source

A source hands out its text in chunks, and may be interrupted between them.  Nobody can tell from a
run how the text was cut: a run that reads from a source and one that has the whole text at hand
reply the same to all that one caller asks of both, and hold the same but for how much of the stream
is at hand.  `flattening` is the veil that hides how much that is.

There is one way to tell them apart.  A caller who edits nodes by hand can take the text away from a
token.  The text is then missing when the token is taken back, and what was pushed in front of it is
removed by its length from whatever is at hand.
-/

namespace Rewind

/-- A source that delivers a text in chunks that are not empty, and may be interrupted. -/
inductive Stream.Chunks : List Delivery → Bytes → Prop
  | nil : Chunks [] []
  | interrupted {source : List Delivery} {text : Bytes} :
    Chunks source text → Chunks (.interrupted :: source) text
  | data {source : List Delivery} {chunk text : Bytes} :
    chunk ≠ [] → Chunks source text → Chunks (.data chunk :: source) (chunk ++ text)

namespace Stream

variable {source : List Delivery} {text : Bytes}

lemma Chunks.promised (h : Chunks source text) : promised source = text := by
  induction h with
  | nil => rfl
  | interrupted _ ih => exact ih
  | @data source chunk text hne _ ih =>
    obtain ⟨b, rest, rfl⟩ := List.exists_cons_of_ne_nil hne
    rw [Stream.promised, ih]

lemma Chunks.reliable (h : Chunks source text) : (ofSource source).Reliable := by
  intro message
  change .failure message ∉ source
  induction h with
  | nil => exact List.not_mem_nil
  | interrupted _ ih =>
    rintro (_ | ⟨_, hmem⟩)
    exact ih hmem
  | data _ _ ih =>
    rintro (_ | ⟨_, hmem⟩)
    exact ih hmem

/-- Read in advance, the source is its text. -/
lemma Chunks.flat (h : Chunks source text) : (ofSource source).flat = ofBytes text := by
  have hcontent : (ofSource source).content = text.map .byte := by
    rw [← h.promised]
    rfl
  rw [Stream.flat, hcontent]
  rfl

end Stream

namespace Run

open Attempt Op

/-- A veil that hides how much of the stream is at hand. -/
def flattening : Veil where
  stream := Stream.flat
  target := id
  stopping := id
  events := id
  answer := id

/-- A stream is attached whose source never fails. -/
def Reads (r : Run) : Prop :=
  ∃ stream, r.scanner.stream = some stream ∧ stream.Reliable

variable {m : Machine} {r s t : Run} {a : Option Status} {entry : Entry} {turns : Nat}

/-! ## What the veil leaves alone -/

lemma flattening_lawful : flattening.Lawful where
  position _ := rfl
  putBack := Stream.flat_putBack
  pushText := Stream.flat_pushText
  pushTree := Stream.flat_pushTree
  takeTree := Stream.flat_takeTree?
  events _ _ _ := rfl
  answer _ _ := rfl
  onward := rfl

lemma flattening_answers {op : Op (Option Status)} (h : flattening.Commutes op r) :
    flattening.Answers op r :=
  Veil.answers_of_commutes h fun _ _ _ => rfl

lemma flattening_ends (m : Machine) : flattening.Ends m := by
  intro r
  refine flattening_answers (Veil.commutes_seq (Veil.commutes_write _) fun _ s =>
    Veil.commutes_seq (Veil.commutes_modify rfl) fun _ s => Veil.commutes_get rfl
    (Veil.commutes_seq (Veil.commutes_lookup _) fun reached s =>
    Veil.commutes_ite (fun _ => ?_) fun _ => Veil.commutes_ite (fun _ => ?_) fun _ =>
    Veil.commutes_ite (fun _ => Veil.commutes_pure _) fun _ => Veil.commutes_pure _))
  · exact Veil.commutes_seq (Veil.commutes_modify rfl) fun _ _ => Veil.commutes_pure _
  · exact Veil.commutes_seq (Veil.commutes_modify rfl) fun _ _ => Veil.commutes_pure _

/-! ## Scanning -/

/-- A scanner finds the same in a stream that was read in advance, or fails in the same way. -/
lemma scan_flat (hr : Reads r) (region : RegionId) :
    flattening.Commutes (scan m region) r ∧ Reads (Result.left (scan m region r)) := by
  obtain ⟨stream, hs, hreliable⟩ := hr
  have hveiled : (flattening.veiled r).scanner = { r.scanner with stream := some stream.flat } := by
    rw [Veil.veiled, Veil.scanner, hs]
    rfl
  unfold Veil.Commutes scan onScanner Scanner.run
  rw [hveiled, hs]
  cases m.scanner.entries[region]? with
  | none =>
    refine ⟨congrArg (EStateM.Result.error _) ?_, stream, hs, hreliable⟩
    rw [← hveiled]
  | some state =>
    have hrun := Scanner.Scan.run_flat (t := m.scanner) (s := { stream, state }) hreliable
    simp only
    generalize Scanner.Scan.run m.scanner { stream, state } = x at hrun ⊢
    generalize hy : Scanner.Scan.run m.scanner (Scanner.Scan.flat { stream, state }) = y at hrun
    rw [Scanner.Scan.flat] at hy
    simp only [hy]
    cases hrun with
    | ok outcome u hu => cases outcome <;> exact ⟨rfl, u.stream, rfl, hu⟩
    | error e u hu => cases e <;> exact ⟨rfl, u.stream, rfl, hu⟩

/-- What was found at the front is at hand, and so it can be taken. -/
lemma flattening_scans (m : Machine) : flattening.Scans m Reads where
  scan r region hr := (scan_flat hr region).1
  found r region outcome s hr hscan := by
    have hs := (scan_flat (m := m) hr region).2
    rw [hscan] at hs
    refine ⟨hs, fun element length hfound => Veil.commutes_onStream fun stream hstream => ?_⟩
    obtain ⟨stream', -, hstream', hvalid, -⟩ := scan_ok hscan
    obtain rfl : stream = stream' := Option.some.inj (hstream.symm.trans hstream')
    rw [hfound] at hvalid
    exact Stream.flat_extract hvalid.2.2

/-- A source that never fails is kept by whatever changes nothing but what is in front of it. -/
lemma detached_reads : Detached Reads where
  stream f hf := by
    refine Keeps.of_left fun r ⟨stream, hs, hreliable⟩ => ?_
    unfold onStream onScanner Scanner.onStream
    simp only [hs]
    refine ⟨(f stream).2, rfl, ?_⟩
    rw [Stream.Reliable, hf]
    exact hreliable
  scan m region := Keeps.of_left fun r hr => (scan_flat hr region).2
  forest _ _ hr := hr
  state _ _ hr := hr
  stack _ _ hr := hr
  queue _ _ hr := hr
  aside _ _ hr := hr
  log _ _ hr := hr
  bindings _ _ hr := hr
  counts _ _ _ hr := hr
  endActionRan _ _ hr := hr
  events _ _ hr := hr
  point _ _ hr := hr
  steps _ _ hr := hr
  retry _ _ hr := hr
  rejecting _ _ hr := hr
  stopping _ _ hr := hr
  halted _ _ hr := hr

/-! ## Taking back -/

/-- What was pushed is at hand when it is removed. -/
lemma flattening_unwinds : flattening.Unwinds ReadyFor where
  removes record older r hready n hn := by
    refine Veil.commutes_changeStream fun stream hs => Stream.flat_pushback ?_
    have hcovered : record.removed ≤ r.hand := hready.stocked.covered.1
    rwa [Record.removed, hn, hand_eq (r := r) hs] at hcovered
  undone record older r a s hready hundo := by
    have hbegun : ReadyFor (record :: older) (begun record older r) :=
      ⟨hready.attached, hready.stocked⟩
    exact (readyFor_undoing hbegun (undo_ok hundo).2).1

/-! ## Parsing and undoing -/

lemma turn_flat (hreads : Reads r) (hready : Provided r) : flattening.Commutes (turn m) r :=
  Veil.answers_turn flattening_lawful (flattening_scans m) (flattening_ends m) flattening_unwinds
    hreads hready

lemma takeTurns_flat (hreads : Reads r) (hready : Provided r) :
    flattening.Commutes (takeTurns m turns) r := by
  induction turns generalizing r with
  | zero => rfl
  | succ turns ih =>
    refine Veil.commutes_bind (turn_flat hreads hready) fun a s hturn => ?_
    cases a with
    | some status => exact Veil.commutes_pure _
    | none =>
      exact ih (detached_reads.turn.ok hreads hturn)
        ((steady_provided m).turn hready (lasts_ok hturn))

lemma resume_flat (hreads : Reads r) (hready : Provided r) :
    flattening.Commutes (resume m turns entry) r := by
  have henter : flattening.Commutes (enter m entry) r :=
    Veil.answers_enter flattening_lawful (flattening_ends m) entry
  refine Veil.commutes_bind henter fun a s hentered => ?_
  cases a with
  | some status => exact Veil.commutes_pure _
  | none =>
    exact takeTurns_flat ((detached_reads.enter entry).ok hreads hentered)
      ((steady_provided m).enter hready (lasts_ok hentered))

/-- A run that is aborted refuses, whatever it is asked. -/
lemma unlessAborted_flat {op : Op Status} (h : r.aborted = false → flattening.Commutes op r) :
    flattening.Commutes (unlessAborted op) r := by
  cases halive : r.aborted with
  | false => exact Veil.commutes_unlessAborted flattening_lawful (h halive) fun _ _ _ => rfl
  | true =>
    unfold Veil.Commutes unlessAborted
    rw [show (flattening.veiled r).aborted = r.aborted from rfl, if_pos halive, if_pos halive]
    rfl

lemma goBack_flat {target : Nat} (hreads : Reads r) (hready : Provided r) :
    flattening.Commutes (goBack m target) r :=
  Veil.commutes_goBack (takeTurns_flat hreads (hready.quiet rfl rfl rfl))

/-! ## Sessions -/

theorem reads_perform {request : Request} (hdetach : request ≠ .detach) :
    Keeps Reads Reads (perform m turns request) := by
  refine keeps_perform detached_reads.toInert (fun _ _ _ _ hr => hr) (fun stream _ => ?_)
    (fun h => absurd h hdetach)
    (fun entry _ => (detached_reads.resume turns entry).unlessAborted fun _ _ _ hr => hr)
    fun target _ => (detached_reads.goBack target).unlessAborted fun _ _ _ hr => hr
  refine .of_left fun r ⟨stream', hs, hreliable⟩ => ?_
  rw [attach_refused hs]
  exact ⟨stream', hs, hreliable⟩

/-- An aborted run stays aborted. -/
theorem aborted_perform (request : Request) :
    Keeps (fun r => r.aborted = true) (fun r => r.aborted = true) (perform m turns request) := by
  have hguarded (op : Op Status) :
      Keeps (fun r => r.aborted = true) (fun r => r.aborted = true) (unlessAborted op) :=
    .of_left fun r hr => by
      rw [unlessAborted, if_pos hr]
      exact hr
  have hinert : Inert fun r => r.aborted = true :=
    .of_part (fun _ _ _ _ _ _ _ _ _ _ _ _ _ => rfl) true
  exact keeps_perform hinert (fun _ _ _ _ hr => hr)
    (fun _ _ => Keeps.onScanner (fun _ _ hr => hr) _)
    (fun _ => Keeps.onScanner (fun _ _ hr => hr) _)
    (fun _ _ => hguarded _) fun _ _ => hguarded _

/-- What may be asked for: anything but the stream, as long as no node is edited that the log counts
on. -/
def Discreet (r : Run) (request : Request) : Prop :=
  request ≠ .detach ∧ ∀ edit, request = .editNodes edit → Spared edit r

/-- Under the veil a run does the same, whatever it is asked. -/
lemma perform_flat {request : Request} (hreads : Reads r)
    (hready : r.aborted = false → Provided r) (hdiscreet : Discreet r request) :
    flattening.Commutes (perform m turns request) r := by
  refine commutes_perform flattening_lawful (fun stream _ => ?_)
    (fun h => absurd h hdiscreet.1)
    (fun entry _ => unlessAborted_flat fun halive => resume_flat hreads (hready halive))
    fun target _ => unlessAborted_flat fun halive => goBack_flat hreads (hready halive)
  obtain ⟨stream', hs, -⟩ := hreads
  have hveiled : (flattening.veiled r).scanner.stream = some stream'.flat := by
    rw [Veil.veiled, Veil.scanner, hs]
    rfl
  rw [Veil.Commutes, attach_refused hs, attach_refused hveiled]
  rfl

/-- A run before its first step, in front of a stream. -/
def facing (m : Machine) (forest : Forest) (target : Option Nat) (stream : Stream) : Run :=
  { initial m forest target with scanner := { Scanner.detached with stream := some stream } }

/-- Two runs after all that one caller asked of both of them, and how the caller set them.  What may
be asked for depends on where the first run is. -/
inductive Alongside (m : Machine) (Allowed : Run → Request → Prop) (p q : Run) : Run → Run → Prop
  | start : Alongside m Allowed p q p q
  | asked {r s r' s' : Run} {request : Request} {x y : Result Reply}
      {answer answer' : Except Error Reply} :
    Alongside m Allowed p q r s → Allowed r request → Comes m request r x → Replied x answer r' →
    Comes m request s y → Replied y answer' s' → Alongside m Allowed p q r' s'
  | stop {r s : Run} : Alongside m Allowed p q r s → Alongside m Allowed p q r.stop s.stop
  | pauseAt {r s : Run} (target : Option Nat) : Alongside m Allowed p q r s →
    Alongside m Allowed p q (r.pauseAt target) (s.pauseAt target)
  | takeEvents {r s : Run} : Alongside m Allowed p q r s →
    Alongside m Allowed p q r.takeEvents.2 s.takeEvents.2

lemma Finished.flat {x : Result Reply} (h : Finished x) : Finished (flattening.result id x) := by
  intro s hs
  cases x with
  | ok a t => cases hs
  | error e t =>
    cases hs
    exact h t rfl

/-- The second run is the first one under the veil. -/
lemma Alongside.flat {p : Run} (hp : Reads p ∧ (p.aborted = false → Provided p))
    (h : Alongside m Discreet p (flattening.veiled p) r s) :
    s = flattening.veiled r ∧ Reads r ∧ (r.aborted = false → Provided r) := by
  induction h with
  | start => exact ⟨rfl, hp⟩
  | stop _ ih =>
    obtain ⟨rfl, hreads, hready⟩ := ih
    exact ⟨rfl, hreads, fun halive => (hready halive).quiet rfl rfl rfl⟩
  | pauseAt target _ ih =>
    obtain ⟨rfl, hreads, hready⟩ := ih
    exact ⟨rfl, hreads, fun halive => (hready halive).quiet rfl rfl rfl⟩
  | takeEvents _ ih =>
    obtain ⟨rfl, hreads, hready⟩ := ih
    exact ⟨rfl, hreads, fun halive => (hready halive).quiet rfl rfl rfl⟩
  | @asked r s r' s' request x y answer answer' _ hdiscreet hx hreply hy hreply' ih =>
    obtain ⟨rfl, hreads, hready⟩ := ih
    obtain ⟨turns, hrun, hfinished⟩ := hx
    have hflat : flattening.Commutes (perform m turns request) r :=
      perform_flat hreads hready hdiscreet
    rw [Veil.Commutes, hrun] at hflat
    obtain rfl := Comes.unique ⟨turns, hflat, hfinished.flat⟩ hy
    have hleft :
        Result.left x = r' ∧ s' = flattening.veiled r' ∧ Ends (perform m turns request) r r' := by
      cases hreply with
      | ok reply => cases hreply'; exact ⟨rfl, rfl, .inl ⟨_, hrun⟩⟩
      | error e => cases hreply'; exact ⟨rfl, rfl, .inr ⟨_, hrun⟩⟩
    obtain ⟨hx, hs, hends⟩ := hleft
    refine ⟨hs, ?_, fun halive => ?_⟩
    · rw [← hx, ← hrun]
      exact (reads_perform hdiscreet.1).left hreads
    · cases hbefore : r.aborted with
      | false => exact provided_perform (hready hbefore) hdiscreet.1 hdiscreet.2 hends halive
      | true =>
        have hafter : (Result.left (perform m turns request r)).aborted = true :=
          (aborted_perform request).left hbefore
        rw [hrun, hx, halive] at hafter
        cases hafter

/-- Whatever one caller asks of two runs, of which one reads a text in chunks and the other has it
at hand, they reply the same, and hold the same but for how much of the stream is at hand. -/
theorem chunks_invisible (m : Machine) (blockLength blockLimit : Nat) (target : Option Nat)
    {source : List Delivery} {text : Bytes} (hsource : Stream.Chunks source text)
    (h : Alongside m Discreet
      (facing m (Pool.empty blockLength blockLimit) target (.ofSource source))
      (facing m (Pool.empty blockLength blockLimit) target (.ofBytes text)) r s) :
    s = flattening.veiled r ∧ ∀ request turns, Discreet r request →
      perform m turns request s = flattening.result id (perform m turns request r) := by
  have hstart : flattening.veiled (facing m (Pool.empty blockLength blockLimit) target
      (.ofSource source)) =
      facing m (Pool.empty blockLength blockLimit) target (.ofBytes text) := by
    rw [← hsource.flat]
    rfl
  rw [← hstart] at h
  obtain ⟨rfl, hreads, hready⟩ := h.flat
    ⟨⟨_, rfl, hsource.reliable⟩, fun _ => ⟨rfl, .of_nil (Pool.sound_empty _ _) _⟩⟩
  exact ⟨rfl, fun request turns hdiscreet => perform_flat hreads hready hdiscreet⟩

/-- The result is a reply. -/
def Result.replies : Result Reply → Bool
  | .error (.fault _) _ => false
  | _ => true

/-- What both runs reply to takes them further. -/
theorem Alongside.perform {Allowed : Run → Request → Prop} {p q : Run}
    (h : Alongside m Allowed p q r s) (turns : Nat) (request : Request)
    (hallowed : Allowed r request)
    (hr : Result.replies (perform m turns request r) = true)
    (hs : Result.replies (perform m turns request s) = true) :
    Alongside m Allowed p q (Result.left (perform m turns request r))
      (Result.left (perform m turns request s)) := by
  have hreplied {x : Result Reply} (hx : Result.replies x = true) :
      Finished x ∧ ∃ answer, Replied x answer (Result.left x) := by
    rcases x with ⟨a, t⟩ | ⟨e | f, t⟩
    · exact ⟨.of_ok a t, _, .ok a t⟩
    · exact ⟨fun _ h => (by cases h), _, .error e t⟩
    · cases hx
  obtain ⟨hfinished, answer, hreply⟩ := hreplied hr
  obtain ⟨hfinished', answer', hreply'⟩ := hreplied hs
  exact h.asked hallowed ⟨turns, rfl, hfinished⟩ hreply ⟨turns, rfl, hfinished'⟩ hreply'

/-- The letter is read from a source that is interrupted first, and parsed. -/
theorem chunks_invisible_letter : ∃ r s,
    Stream.Chunks [.interrupted, .data [97]] [97] ∧
    Alongside letterMachine Discreet
      (facing letterMachine (Pool.empty 8 8) none (.ofSource [.interrupted, .data [97]]))
      (facing letterMachine (Pool.empty 8 8) none (.ofBytes [97])) r s ∧
    r.point = .done ∧ s = flattening.veiled r ∧ ∀ request turns, Discreet r request →
      perform letterMachine turns request s =
        flattening.result id (perform letterMachine turns request r) := by
  have hsource : Stream.Chunks [.interrupted, .data [97]] [97] :=
    .interrupted (.data (by decide) .nil)
  have hstart : Alongside letterMachine Discreet
      (facing letterMachine (Pool.empty 8 8) none (.ofSource [.interrupted, .data [97]]))
      (facing letterMachine (Pool.empty 8 8) none (.ofBytes [97])) _ _ := .start
  have hparsed := hstart.perform 20 (.parse .start) ⟨by rintro ⟨⟩, by rintro _ ⟨⟩⟩
    (by decide +kernel) (by decide +kernel)
  exact ⟨_, _, hsource, hparsed, by decide +kernel,
    chunks_invisible letterMachine 8 8 none hsource hparsed⟩

/-! ## A text that is taken away -/

/-- The machine for a letter, which expects the end and nothing else.  It accepts a letter before it
has seen what follows. -/
def hastyMachine : Machine :=
  { letterMachine with
    grammar := { letterMachine.grammar with start := 2 }
    scanner := { letterMachine.scanner with actions := #[.accept 1] }
    start := 2 }

/-- A letter is pushed in front of another text, and scanned.  Its node is released by hand, and
everything is taken back.  What is left is the text that the source has yet to deliver, or, where
that text was at hand, nothing. -/
theorem chunks_visible_by_hand : ∃ r s,
    Stream.Chunks [.data [120]] [120] ∧
    Alongside hastyMachine (fun _ request => request ≠ .detach)
      (facing hastyMachine (Pool.empty 8 8) none (.ofSource [.data [120]]))
      (facing hastyMachine (Pool.empty 8 8) none (.ofBytes [120])) r s ∧
    s ≠ flattening.veiled r ∧ r.content = [.byte 120] ∧ s.content = [] ∧
    Result.answer? (parse hastyMachine 20 .start r) = none ∧
    Result.answer? (parse hastyMachine 20 .start s) = some .done := by
  have hstart : Alongside hastyMachine (fun _ request => request ≠ .detach)
      (facing hastyMachine (Pool.empty 8 8) none (.ofSource [.data [120]]))
      (facing hastyMachine (Pool.empty 8 8) none (.ofBytes [120])) _ _ := .start
  have hpushed := hstart.perform 0 (.pushText [97]) (by rintro ⟨⟩) (by decide +kernel)
    (by decide +kernel)
  have hparsed := hpushed.perform 20 (.parse .start) (by rintro ⟨⟩) (by decide +kernel)
    (by decide +kernel)
  have hedited := hparsed.perform 0 (.editNodes fun f => f.vacate 0) (by rintro ⟨⟩)
    (by decide +kernel) (by decide +kernel)
  have hundone := hedited.perform 0 (.undoTo 0) (by rintro ⟨⟩) (by decide +kernel)
    (by decide +kernel)
  refine ⟨_, _, .data (by decide) .nil, hundone, ?_, by decide +kernel, by decide +kernel,
    by decide +kernel, by decide +kernel⟩
  decide +kernel

end Run

end Rewind
