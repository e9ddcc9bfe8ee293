import Rewind.Proofs.Backtrack
import Rewind.Proofs.Exactness
import Rewind.Proofs.Invariants
import Rewind.Proofs.Written
import Rewind.Proofs.Yield

/-!
# Nothing is lost

A parse moves bytes from the stream to the queue, from there to the stack, and into trees, with
ignored tokens set aside on the way; turning back and undoing move them back again.  At any moment
all of them are there, once and in order: read from the bottom of the stack to the end of the
stream, they are the input.
-/

namespace Rewind.Run

open Attempt Op

/-! ## What a run holds -/

/-- The trees of a stack, the bottom first. -/
def stackShapes (r : Run) : Except Fault (List Shape) := do
  (← r.forest.chain r.stack).reverse.mapM r.forest.shape

/-- The text that a run holds, from the bottom of its stack to what is at hand of its stream. -/
def heldText (m : Machine) (r : Run) : Except Fault Bytes := do
  let stack ← stackShapes r
  let queue ← r.queue.mapM r.forest.shape
  let aside ← (← r.forest.chain r.aside).reverse.mapM r.forest.shape
  let remaining := (r.scanner.stream.map Stream.text).getD []
  return yields stack ++ waitingText m (aside.flatMap Shape.text) queue ++ remaining

/-- The text on the stack of a run. -/
def stackText (r : Run) : Except Fault Bytes := do
  return yields (← stackShapes r)

variable {m : Machine} {strict : Prop} {r s t : Run} {σ : Scene} {w : Bytes}

/-- The stack can be read off the forest. -/
lemma stackShapes_of_depicts (ht : Tidy True r) (h : Depicts r.view σ) :
    stackShapes r = .ok σ.stack.reverse := by
  obtain ⟨stack, aside, ownedS, ownedQ, ownedA, hs, -, hstack, -, -, hnodup⟩ := h.trees
  rw [show r.view.nodes = Pool.get? r.forest from ht.shown_eq] at hs hstack
  have hnodupS := (List.Nodup.of_append_left hnodup).of_append_left
  have hchain : r.forest.chain r.stack = .ok stack :=
    Forest.chain_of_linked hs (hstack.roots_sublist.nodup hnodupS)
  rw [stackShapes, hchain]
  exact Forest.mapM_reverse (Forest.mapM_shape hstack hnodupS)

/-- All that a scene shows can be read off the forest and the stream. -/
lemma read_of_depicts (ht : Tidy True r) (hunread : r.unread = 0) (h : Depicts r.view σ) :
    stackShapes r = .ok σ.stack.reverse ∧ r.queue.mapM r.forest.shape = .ok σ.queue ∧
      (∃ aside, r.forest.chain r.aside = .ok aside ∧
        aside.reverse.mapM r.forest.shape = .ok σ.aside.reverse) ∧
      (r.scanner.stream.map Stream.text).getD [] = bytes σ.items := by
  have hstacked := stackShapes_of_depicts ht h
  obtain ⟨-, hitems, -, -, stack, aside, ownedS, ownedQ, ownedA, -, ha, -, hqueue, haside,
    hnodup⟩ := h
  have hnodes : r.view.nodes = Pool.get? r.forest := ht.shown_eq
  rw [hnodes] at ha hqueue haside
  obtain ⟨hnodup, hnodupA, -⟩ := List.nodup_append'.1 hnodup
  have hnodupQ := hnodup.of_append_right
  have hremaining : (r.scanner.stream.map Stream.text).getD [] = bytes σ.items := by
    obtain ⟨stream, hstream⟩ := ht.stream
    obtain ⟨hcontent, -, hunread'⟩ := content_eq hstream
    rw [hunread', List.length_eq_zero_iff] at hunread
    rw [← hitems, show r.view.items = r.content from rfl, hcontent, Stream.content, hunread,
      hstream, List.map_nil, List.append_nil]
    rfl
  exact ⟨hstacked, Forest.mapM_shape hqueue hnodupQ,
    ⟨aside, Forest.chain_of_linked ha (haside.roots_sublist.nodup hnodupA),
      Forest.mapM_reverse (Forest.mapM_shape haside hnodupA)⟩, hremaining⟩

/-- What a run holds can be read off its forest. -/
lemma held_of_depicts (ht : Tidy True r) (hunread : r.unread = 0) (h : Depicts r.view σ) :
    heldText m r = .ok (σ.text m) ∧ stackText r = .ok (yields σ.stack.reverse) := by
  obtain ⟨hstack, hqueue, ⟨aside, hchain, haside⟩, hremaining⟩ := read_of_depicts ht hunread h
  constructor
  · rw [heldText, hstack]
    simp only [Bind.bind, Except.bind, hqueue, hchain, haside, hremaining]
    rfl
  · rw [stackText, hstack]
    rfl

/-! ## What a parse writes -/

/-- A run whose log tells of nothing but a parse. -/
def Own (r : Run) : Prop :=
  ∀ record ∈ r.log.records, record.isOwn = true

lemma own_iff : Own r ↔ Written Record.isOwn [] r := by
  constructor
  · exact fun h => ⟨r.log.records, (List.append_nil _).symm, h⟩
  · rintro ⟨newer, hlog, hnewer⟩ record hrecord
    rw [hlog, List.append_nil] at hrecord
    exact hnewer record hrecord

/-! ## Parsing -/

/-- A run that came from a base by parsing, with all of its input at hand. -/
structure ParsedFrom (m : Machine) (base : View) (r : Run) : Prop where
  sound : Sound m True (fun _ _ => True) base r
  unread : r.unread = 0
  own : Own r

variable {base : View}

lemma ParsedFrom.moves (h : ParsedFrom m base r) (hmoves : Moves m True (fun _ _ => True) r s)
    (hown : Own s) : ParsedFrom m base s :=
  ⟨h.sound.moves hmoves, Nat.eq_zero_of_le_zero (h.unread ▸ hmoves.unread), hown⟩

lemma parsedFrom_goForward (h : ParsedFrom m base r) (hbase : Orderly base)
    (hpoint : r.point = .start)
    (hlasts : Lasts (goForward m) r s) : ParsedFrom m base s := by
  have ho := h.sound.orderly hbase
  rcases hlasts with ⟨a, hrun⟩ | ⟨e, he, hrun⟩
  · have hforwards := goForward_ok h.sound.pool h.sound.attached hrun
    exact h.moves (moves_forwards h.sound.toTidy ho hpoint hforwards fun _ _ => trivial).1
      (own_iff.2 ((own_iff.1 h.own).trans (written_forwards hforwards)))
  · exact h.moves (moves_goForward_error h.sound.toTidy ho he hrun)
      (own_iff.2 ((own_iff.1 h.own).trans (written_goForward_error h.sound.toTidy he hrun).own))

theorem parsedFrom_unwind {goal : Goal} (h : ParsedFrom m base r) (hbase : Orderly base)
    (hlasts : Lasts (unwind m goal r.log.records) r s) : ParsedFrom m base s := by
  rcases unwind_sound h.sound hbase with
    ⟨a, s', hunwind, hs, hback⟩ | ⟨misuse, s', hunwind, -⟩
  · rcases hlasts with ⟨a', hrun⟩ | ⟨e, he, hrun⟩
    · obtain ⟨-, rfl⟩ := EStateM.Result.ok.inj (hrun.symm.trans hunwind)
      exact ⟨hs, hback.unread.trans h.unread, fun record hrecord =>
        h.own record (hback.log.subset hrecord)⟩
    · rw [grave_unwind m goal r.log.records hrun] at he
      cases he
  · rcases hlasts with ⟨a', hrun⟩ | ⟨e, he, hrun⟩
    · rw [hunwind] at hrun
      cases hrun
    · rw [grave_unwind m goal r.log.records hrun] at he
      cases he

/-- Whatever a parse does, the run came from the base by parsing. -/
theorem steady_parsedFrom (hbase : Orderly base) : Steady m (ParsedFrom m base) where
  enter r s entry h hlasts := by
    have ho := h.sound.orderly hbase
    rcases hlasts with ⟨a, henter⟩ | ⟨e, he, henter⟩
    · have henters := enter_ok henter
      exact h.moves (moves_enters h.sound.toTidy ho henters fun _ _ => trivial).1
        (own_iff.2 ((own_iff.1 h.own).trans (written_enters henters).own))
    · exact h.moves (moves_enter_error h.sound.toTidy he henter)
        (own_iff.2 ((own_iff.1 h.own).trans (written_enter_error he henter).own))
  turn r s h hlasts := by
    rcases lasts_turn hlasts with ⟨hforward, hpoint⟩ | ⟨goal, -, hunwind⟩ | rfl
    · exact parsedFrom_goForward h hbase hpoint hforward
    · exact parsedFrom_unwind h hbase hunwind
    · exact h
  events r events h :=
    h.moves (moves_settings h.sound.toTidy r.target r.stopping r.rejecting events) h.own

/-! ## Calls -/

/-- Calls that parse and take back, and those that only say how far. -/
def Call.IsParsing : Call → Prop
  | parse _ _ | undoTo _ | reject | stop | pauseAt _ | takeEvents => True
  | _ => False

/-- What was made of a start by parsing, taking back, rejecting, stopping and pausing.  Parsing may
have failed on the way, but not with a fatal error. -/
inductive Parsed (m : Machine) (start : Run) : Run → Prop
  | start : Parsed m start start
  | call {call : Call} {r s : Run} :
    Parsed m start r → call.IsParsing → call.Leads m r s → s.aborted = false → Parsed m start s

lemma parsedFrom_call {call : Call} (h : ParsedFrom m base r) (hbase : Orderly base)
    (hparsing : call.IsParsing)
    (hcall : call.Leads m r s) (halive : s.aborted = false) : ParsedFrom m base s := by
  have hset (target : Option Nat) (stopping rejecting : Bool) (events : List Event) :
      ParsedFrom m base { r with target, stopping, rejecting, events } :=
    h.moves (moves_settings h.sound.toTidy target stopping rejecting events) h.own
  cases call with
  | parse turns entry => exact (steady_parsedFrom hbase).parse h hcall halive
  | undoTo target =>
    refine (steady_parsedFrom hbase).undoTo ?_ hcall halive
    exact h.moves (moves_awaited h.sound.toTidy _ r.rejecting) h.own
  | reject =>
    rcases hcall with ⟨u, hrun⟩ | ⟨e, hrun⟩
    · unfold reject at hrun
      split at hrun <;> cases hrun
      exact hset r.target r.stopping true r.events
    · unfold reject at hrun
      split at hrun <;> cases hrun
      exact h
  | stop =>
    cases hcall
    exact hset r.target true r.rejecting r.events
  | pauseAt target =>
    cases hcall
    exact hset target r.stopping r.rejecting r.events
  | takeEvents =>
    cases hcall
    exact hset r.target r.stopping r.rejecting []
  | _ => exact hparsing.elim

/-- What a run of bytes begins with. -/
lemma parsedFrom_fresh (hfresh : Fresh m (Stream.ofBytes w) r) : ParsedFrom m r.view r := by
  have hsound : Sound m True (fun _ _ => True) r.view r := by
    refine ⟨hfresh.tidy, ?_⟩
    obtain ⟨blockLength, blockLimit, target, rfl⟩ := hfresh.eq
    exact .start
  obtain ⟨blockLength, blockLimit, target, rfl⟩ := hfresh.eq
  exact ⟨hsound, rfl, nofun⟩

theorem parsedFrom_parsed (hfresh : Fresh m (Stream.ofBytes w) s) (h : Parsed m s r) :
    ParsedFrom m s.view r := by
  induction h with
  | start => exact parsedFrom_fresh hfresh
  | call _ hparsing hcall halive ih => exact parsedFrom_call ih hfresh.orderly hparsing hcall halive

lemma depicts_fresh {stream : Stream} (hfresh : Fresh m stream r) :
    Depicts r.view (Scene.front m stream) := by
  obtain ⟨blockLength, blockLimit, target, rfl⟩ := hfresh.eq
  exact ⟨rfl, rfl, rfl, rfl, [], [], [], [], [], .nil none, .nil none, .nil, .nil, .nil,
    List.nodup_nil⟩

lemma whole_front (m : Machine) (w : Bytes) : Whole m w (Scene.front m (Stream.ofBytes w)) := by
  have hitems : (Scene.front m (Stream.ofBytes w)).items = w.map .byte ++ [] := rfl
  refine ⟨?_, ?_, nofun, ?_, ?_⟩
  · rw [Scene.text, hitems, bytes_text]
    exact List.append_nil w
  · rw [hitems, trees_bytes_append]
    rfl
  · intro before s after hsplit
    cases before <;> cases hsplit
  · intro above s below hsplit
    cases above <;> cases hsplit

/-- A run that parses holds the whole of its input, whatever was taken back and wherever parsing
failed.  Once the end of the input is on the stack, the stack holds all of it. -/
theorem parsed_keeps_text (hm : Distinguishes m) (hfresh : Fresh m (Stream.ofBytes w) s)
    (h : Parsed m s r) :
    heldText m r = .ok w ∧ ∀ top n, r.stack = some top → Pool.get? r.forest top = some n →
      n.element = m.grammar.eof → n.text = [] → stackText r = .ok w := by
  have hparsed := parsedFrom_parsed hfresh h
  obtain ⟨σ, hdepicts, hwhole⟩ : ∃ σ, Depicts r.view σ ∧ Whole m w σ :=
    depicts_path (fun _ h => h.noTrees) (fun _ _ h hstep => whole_becomes hm h hstep)
      hparsed.sound.path hparsed.own (depicts_fresh hfresh) (whole_front m w)
  obtain ⟨hheld, hstacked⟩ := held_of_depicts hparsed.sound.toTidy hparsed.unread hdepicts
  rw [hwhole.text] at hheld
  refine ⟨hheld, fun top n htop hn heof hempty => ?_⟩
  obtain ⟨-, -, -, -, stack, aside, ownedS, ownedQ, ownedA, hs, -, hstack, -⟩ := hdepicts
  rw [show r.view.stack = some top from htop] at hs
  rw [show r.view.nodes = Pool.get? r.forest from hparsed.sound.shown_eq] at hs hstack
  cases hs with
  | cons _ _ =>
    obtain ⟨n', -, -, -, -, -, kids, set, below, hn', -, -, -, -, -, -, hshapes⟩ := hstack.of_cons
    obtain rfl : n = n' := Option.some.inj (hn.symm.trans hn')
    have hall := hwhole.endStacked [] _ below hshapes ⟨heof, hempty⟩
    rw [hstacked, hshapes, hall]

lemma distinguishes_letter : Distinguishes letterMachine := by
  refine ⟨fun element hnames => ?_, by decide, fun production info hinfo => ?_, fun element => ?_⟩
  · obtain ⟨action, haction, htoken⟩ := hnames
    obtain rfl : action = .candidate 1 := List.mem_singleton.1 haction
    cases htoken
    decide
  · match production with
    | 0 =>
      cases hinfo
      decide
  · match element with
    | 0 | 1 | 2 => rfl
    | _ + 3 => rfl

/-- The letter is parsed to the end, and is on the stack then. -/
theorem parsed_keeps_text_letter : ∃ r, Parsed letterMachine letterStart r ∧ r.point = .done ∧
    heldText letterMachine r = .ok [97] ∧ stackText r = .ok [97] := by
  obtain ⟨r, hparse, -, hpoint, halive, top, n, htop, hn, heof, hempty⟩ := parse_letter
  have hfresh : Fresh letterMachine (Stream.ofBytes [97]) letterStart := ⟨rfl, 8, 8, none, rfl⟩
  have hparsed : Parsed letterMachine letterStart r :=
    @Parsed.call _ _ (.parse 20 .start) _ _ .start trivial (.inl ⟨_, hparse⟩) halive
  obtain ⟨hheld, hstack⟩ := parsed_keeps_text distinguishes_letter hfresh hparsed
  exact ⟨r, hparsed, hpoint, hheld, hstack top n htop hn heof hempty⟩

end Rewind.Run
