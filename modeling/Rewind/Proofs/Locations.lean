import Rewind.Proofs.Lexemes
import Rewind.Proofs.Lossless

/-!
# Where everything was read

A run that parses holds the lexemes of its input, from the bottom of its stack to the last one that
waits, and behind them the text that is left.  Each lexeme keeps the place it was read from: where
the texts of those in front of it end.  The position of the stream is where the text of all of them
ends, and the span of a tree is what its leaves cover.

Lexemes keep their order while they move: shifting and reducing changes how they are held, and
nothing else about them (`lexemes_shifted`, `lexemes_reduced`).  Only reading adds one, at the end
and at the position of the stream.  Taking back leads to scenes on the way there, so it need not be
looked at.
-/

namespace Rewind.Run

open Attempt Op

/-! ## What a run holds -/

/-- The lexemes of trees that wait.  What was set aside comes in front of the first terminal. -/
def waitingLexemes (m : Machine) (aside : List Lexeme) : List Shape → List Lexeme
  | [] => aside
  | s :: queue =>
    if m.grammar.isTerminal s.element then aside ++ lexemesOf (s :: queue)
    else s.lexemes ++ waitingLexemes m aside queue

/-- The lexemes of a scene. -/
def Scene.lexemes (m : Machine) (σ : Scene) : List Lexeme :=
  lexemesOf σ.stack.reverse ++ waitingLexemes m (σ.aside.reverse.map Shape.lexeme) σ.queue

/-- The lexemes that a run holds, from the bottom of its stack to the end of what waits. -/
def heldLexemes (m : Machine) (r : Run) : Except Fault (List Lexeme) := do
  let stack ← stackShapes r
  let queue ← r.queue.mapM r.forest.shape
  let aside ← (← r.forest.chain r.aside).reverse.mapM r.forest.shape
  return lexemesOf stack ++ waitingLexemes m (aside.map Shape.lexeme) queue

/-- The trees and tokens that a run holds: on its stack, in its queue, and set aside. -/
def heldTrees (r : Run) : Except Fault (List Shape) := do
  let stack ← stackShapes r
  let queue ← r.queue.mapM r.forest.shape
  let aside ← (← r.forest.chain r.aside).reverse.mapM r.forest.shape
  return stack ++ queue ++ aside

/-- The text at hand of the stream of a run. -/
def remainingText (r : Run) : Bytes :=
  (r.scanner.stream.map Stream.text).getD []

variable {m : Machine} {r s : Run} {σ σ' : Scene} {w : Bytes}

lemma lexemes_of_depicts (ht : Tidy True r) (hunread : r.unread = 0) (h : Depicts r.view σ) :
    heldLexemes m r = .ok (σ.lexemes m) ∧
      heldTrees r = .ok (σ.stack.reverse ++ σ.queue ++ σ.aside.reverse) ∧
      remainingText r = bytes σ.items := by
  obtain ⟨hstack, hqueue, ⟨aside, hchain, haside⟩, hremaining⟩ := read_of_depicts ht hunread h
  refine ⟨?_, ?_, hremaining⟩
  · rw [heldLexemes, hstack]
    simp only [Bind.bind, Except.bind, hqueue, hchain, haside]
    rfl
  · rw [heldTrees, hstack]
    simp only [Bind.bind, Except.bind, hqueue, hchain, haside]
    rfl

/-! ## Lexemes are kept -/

section Waiting

variable {aside : List Lexeme} {t : Shape} {queue : List Shape}

lemma waitingLexemes_nil (m : Machine) (queue : List Shape) :
    waitingLexemes m [] queue = lexemesOf queue := by
  induction queue with
  | nil => rfl
  | cons t queue ih =>
    rw [waitingLexemes, ih, lexemesOf, List.nil_append]
    exact ite_self _

lemma waitingLexemes_terminal (h : m.grammar.isTerminal t.element = true) :
    waitingLexemes m aside (t :: queue) = aside ++ lexemesOf (t :: queue) :=
  if_pos h

lemma waitingLexemes_tree (h : m.grammar.isTerminal t.element = false) :
    waitingLexemes m aside (t :: queue) = t.lexemes ++ waitingLexemes m aside queue :=
  if_neg (by simp [h])

lemma texts_waitingLexemes (m : Machine) (aside : List Lexeme) (queue : List Shape) :
    texts (waitingLexemes m aside queue) = waitingText m (texts aside) queue := by
  induction queue with
  | nil => rfl
  | cons t queue ih =>
    cases hterminal : m.grammar.isTerminal t.element with
    | true =>
      rw [waitingLexemes_terminal hterminal, waitingText_terminal hterminal, texts_append,
        texts_lexemesOf]
    | false =>
      rw [waitingLexemes_tree hterminal, waitingText_tree hterminal, texts_append, ih,
        t.texts_lexemes]

/-- All that waits and all that was set aside is among them. -/
lemma sublist_waitingLexemes (m : Machine) (aside : List Lexeme) (queue : List Shape) :
    aside.Sublist (waitingLexemes m aside queue) ∧
      (lexemesOf queue).Sublist (waitingLexemes m aside queue) := by
  induction queue with
  | nil => exact ⟨.refl _, List.nil_sublist _⟩
  | cons t queue ih =>
    cases hterminal : m.grammar.isTerminal t.element with
    | true =>
      rw [waitingLexemes_terminal hterminal]
      exact ⟨List.sublist_append_left _ _, List.sublist_append_right _ _⟩
    | false =>
      rw [waitingLexemes_tree hterminal, lexemesOf]
      exact ⟨ih.1.trans (List.sublist_append_right _ _), (List.Sublist.refl _).append ih.2⟩

end Waiting

lemma texts_lexemes (m : Machine) (σ : Scene) :
    texts (σ.lexemes m) ++ bytes σ.items = σ.text m := by
  have haside : texts (σ.aside.reverse.map Shape.lexeme) = σ.aside.reverse.flatMap Shape.text :=
    List.flatMap_map _ _ _
  rw [Scene.lexemes, texts_append, texts_lexemesOf, texts_waitingLexemes, haside]
  rfl

lemma lexemes_queued {element : ElementId} {text : Bytes} {rest : List Item}
    (hqueue : σ.queue = []) (hterminal : m.grammar.isTerminal element = true) :
    (σ.queued element text rest).lexemes m =
      σ.lexemes m ++ [⟨element, text, ⟨σ.position, text.length⟩⟩] := by
  have hwaiting : ∀ aside, waitingLexemes m aside [Scene.token element text σ.position] =
      aside ++ [⟨element, text, ⟨σ.position, text.length⟩⟩] := fun aside =>
    waitingLexemes_terminal hterminal
  have hnew : (σ.queued element text rest).lexemes m = lexemesOf σ.stack.reverse ++
      waitingLexemes m (σ.aside.reverse.map Shape.lexeme)
        [Scene.token element text σ.position] := rfl
  rw [hnew, hwaiting, Scene.lexemes, hqueue, waitingLexemes, List.append_assoc]

lemma lexemes_skipped {element : ElementId} {text : Bytes} {rest : List Item}
    (hqueue : σ.queue = []) :
    (σ.skipped element text rest).lexemes m =
      σ.lexemes m ++ [⟨element, text, ⟨σ.position, text.length⟩⟩] := by
  have hnew : (σ.skipped element text rest).lexemes m = lexemesOf σ.stack.reverse ++
      waitingLexemes m ((Scene.token element text σ.position :: σ.aside).reverse.map Shape.lexeme)
        σ.queue := rfl
  rw [hnew, Scene.lexemes, hqueue, waitingLexemes, waitingLexemes, List.reverse_cons,
    List.map_append, List.append_assoc]
  rfl

/-- A terminal carries what was set aside, and everything else passes it by. -/
lemma lexemes_shifted {t : Shape} {queue : List Shape} (hqueue : σ.queue = t :: queue)
    (hbare : t.ignored = []) (target : StateId) :
    (σ.shifted m target).lexemes m = σ.lexemes m := by
  have hcore : t.lexemes = t.core := by
    rw [t.lexemes_eq, hbare]
    rfl
  rw [Scene.shifted_cons hqueue, takes_of_bare hbare, Scene.lexemes, Scene.lexemes, hqueue]
  cases hterminal : m.grammar.isTerminal t.element with
  | true =>
    have hcarries : Shape.lexemes { t with state := target, ignored := σ.aside.reverse } =
        σ.aside.reverse.map Shape.lexeme ++ t.core := Shape.lexemes_eq _
    rw [waitingLexemes_terminal hterminal]
    simp only [if_true, List.reverse_cons, List.reverse_nil, List.map_nil, lexemesOf_append,
      lexemesOf, hcarries, hcore, waitingLexemes_nil, List.append_assoc, List.append_nil]
  | false =>
    have hcarries : Shape.lexemes { t with state := target, ignored := t.ignored } = t.core := by
      rw [Shape.lexemes_eq, hbare]
      rfl
    rw [waitingLexemes_tree hterminal]
    simp only [Bool.false_eq_true, if_false, List.reverse_cons, lexemesOf_append, lexemesOf,
      hcarries, hcore, List.append_assoc, List.append_nil]

/-- The trees on top come last. -/
lemma lexemesOf_stack (stack : List Shape) (n : Nat) :
    lexemesOf stack.reverse =
      lexemesOf (stack.drop n).reverse ++ lexemesOf (stack.take n).reverse := by
  rw [← lexemesOf_append, ← List.reverse_append, List.take_append_drop]

lemma lexemes_reduced {production : ProductionId} {info : Grammar.Production}
    (hnot : m.grammar.isTerminal info.lhs = false) :
    (σ.reduced m production info).lexemes m = σ.lexemes m := by
  have htree (children : List Shape) :
      (Scene.tree production info.lhs children).lexemes = lexemesOf children := rfl
  rw [Scene.lexemes, Scene.lexemes, lexemesOf_stack σ.stack info.length]
  simp only [Scene.reduced]
  rw [waitingLexemes_tree hnot, htree]
  simp only [List.append_assoc]

/-! ## Places are kept -/

/-- A scene in which everything is where it was read. -/
structure Located (m : Machine) (σ : Scene) : Prop where
  laid : Laid Position.start (σ.lexemes m)
  position : σ.position = Position.start.advance (texts (σ.lexemes m))
  stack : ∀ s ∈ σ.stack, s.Formed
  queue : ∀ s ∈ σ.queue, s.Formed
  aside : ∀ s ∈ σ.aside, s.IsBare

lemma bare_token (element : ElementId) (text : Bytes) (position : Position) :
    (Scene.token element text position).IsBare :=
  ⟨rfl, rfl, rfl⟩

/-- A token that is read has its place behind all others. -/
lemma Located.read (h : Located m σ) (element : ElementId) (text : Bytes) :
    Laid Position.start (σ.lexemes m ++ [⟨element, text, ⟨σ.position, text.length⟩⟩]) ∧
      σ.position.advance text = Position.start.advance
        (texts (σ.lexemes m ++ [⟨element, text, ⟨σ.position, text.length⟩⟩])) := by
  have htexts : texts [⟨element, text, ⟨σ.position, text.length⟩⟩] = text := List.append_nil text
  constructor
  · refine laid_append.2 ⟨h.laid, ?_, trivial⟩
    rw [h.position]
  · rw [texts_append, htexts, Position.advance_append, ← h.position]

/-- All lexemes of a text have their spans one behind the other. -/
lemma Located.inRow (h : Located m σ) (hwhole : Whole m w σ)
    (hlength : w.length < Span.maxOffset) : Span.InRow ((σ.lexemes m).map Lexeme.span) := by
  apply h.laid.inRow
  have htext := hwhole.text
  rw [← texts_lexemes] at htext
  rw [← htext, List.length_append] at hlength
  rw [show Position.start.offset = 0 from rfl]
  omega

lemma Formed.shifted {s : Shape} (h : s.Formed) {target : StateId} {ignored : List Shape}
    (hignored : ∀ i ∈ ignored, i.IsBare) : Shape.Formed { s with state := target, ignored } := by
  obtain ⟨-, hnone, hspan, hchildren⟩ := h
  have hleaves : Shape.leaves { s with state := target, ignored } = s.leaves := by
    rw [Shape.leaves_eq, s.leaves_eq]
    rfl
  refine .mk hignored hnone ?_ hchildren
  intro hsome
  rw [hleaves]
  exact hspan hsome

lemma located_shifted {target : StateId} (h : Located m σ) (hwhole : Whole m w σ)
    (hqueue : σ.queue ≠ []) : Located m (σ.shifted m target) := by
  obtain ⟨t, queue, ht⟩ := List.exists_cons_of_ne_nil hqueue
  have hbare : t.ignored = [] := hwhole.bare t (by simp [ht])
  have hlexemes := lexemes_shifted (m := m) ht hbare target
  have htree : t.Formed := h.queue t (by simp [ht])
  have hposition : (σ.shifted m target).position = σ.position := by
    rw [Scene.shifted_cons ht]
  refine ⟨?_, ?_, ?_, ?_, ?_⟩
  · rw [hlexemes]
    exact h.laid
  · rw [hlexemes, hposition]
    exact h.position
  · rw [Scene.shifted_cons ht]
    intro s hs
    rcases List.mem_cons.1 hs with rfl | hs
    · apply Formed.shifted htree
      cases Scene.takes m t with
      | true => exact fun i hi => h.aside i (List.mem_reverse.1 hi)
      | false =>
        rw [if_neg Bool.false_ne_true, hbare]
        exact nofun
    · exact h.stack s hs
  · rw [Scene.shifted_cons ht]
    intro s hs
    exact h.queue s (by rw [ht]; exact List.mem_cons_of_mem t hs)
  · rw [Scene.shifted_cons ht]
    cases Scene.takes m t with
    | true => exact nofun
    | false => exact h.aside

lemma located_reduced {production : ProductionId} {info : Grammar.Production}
    (hm : Distinguishes m) (h : Located m σ) (hwhole : Whole m w σ)
    (hlength : w.length < Span.maxOffset)
    (hinfo : m.grammar.productions[production]? = some info) :
    Located m (σ.reduced m production info) := by
  have hlhs := hm.lhs production info hinfo
  have hnot : m.grammar.isTerminal info.lhs = false := decide_eq_false (Nat.not_lt.2 hlhs)
  have hlexemes := @lexemes_reduced m σ production info hnot
  let children := (σ.stack.take info.length).reverse
  have hformed : ∀ s ∈ children, s.Formed := fun s hs =>
    h.stack s (List.mem_of_mem_take (List.mem_reverse.1 hs))
  have hsub : (leavesOf children).Sublist (σ.lexemes m) := by
    have hstack : lexemesOf σ.stack.reverse =
        lexemesOf (σ.stack.drop info.length).reverse ++ lexemesOf children :=
      lexemesOf_stack σ.stack info.length
    rw [Scene.lexemes, hstack]
    exact ((leavesOf_sublist children).trans (List.sublist_append_right _ _)).trans
      (List.sublist_append_left _ _)
  have hspan := Shape.merge_spans hformed
    ((h.inRow hwhole hlength).sublist (hsub.map Lexeme.span))
  refine ⟨?_, ?_, ?_, ?_, h.aside⟩
  · rw [hlexemes]
    exact h.laid
  · rw [hlexemes]
    exact h.position
  · intro s hs
    exact h.stack s (List.mem_of_mem_drop hs)
  · intro s hs
    rcases List.mem_cons.1 hs with rfl | hs
    · exact .mk nofun nofun (fun _ => hspan) hformed
    · exact h.queue s hs

lemma located_becomes (hm : Distinguishes m) (hlength : w.length < Span.maxOffset)
    (hwhole : Whole m w σ) (h : Located m σ) (hstep : σ.Becomes m σ') : Located m σ' := by
  cases hstep with
  | @scanned element text rest hqueue hitems hscans =>
    have hterminal : m.grammar.isTerminal element = true := by
      rcases hscans with ⟨hnames, -⟩ | ⟨rfl, -⟩
      · exact decide_eq_true (hm.token element hnames)
      · exact decide_eq_true hm.eof
    obtain ⟨hlaid, hposition⟩ := h.read element text
    rw [← lexemes_queued hqueue hterminal] at hlaid hposition
    refine ⟨hlaid, hposition, h.stack, ?_, h.aside⟩
    intro s hs
    obtain rfl := List.mem_singleton.1 hs
    exact (bare_token element text σ.position).formed
  | @setAside element text rest hqueue hitems hnames =>
    obtain ⟨hlaid, hposition⟩ := h.read element text
    rw [← lexemes_skipped hqueue] at hlaid hposition
    refine ⟨hlaid, hposition, h.stack, h.queue, ?_⟩
    intro s hs
    rcases List.mem_cons.1 hs with rfl | hs
    · exact bare_token element text σ.position
    · exact h.aside s hs
  | consumed _ _ hgenerates =>
    rw [hm.generates] at hgenerates
    cases hgenerates
  | shifted hqueue => exact located_shifted h hwhole hqueue
  | reduced hinfo _ => exact located_reduced hm h hwhole hlength hinfo
  | endActionMarked => exact ⟨h.laid, h.position, h.stack, h.queue, h.aside⟩
  | same => exact h

lemma located_front (m : Machine) (w : Bytes) :
    Located m (Scene.front m (Stream.ofBytes w)) :=
  ⟨trivial, rfl, nofun, nofun, nofun⟩

/-- What a scene holds is formed, and its lexemes are lexemes of the scene. -/
lemma Located.held {tree : Shape} (h : Located m σ)
    (htree : tree ∈ σ.stack.reverse ++ σ.queue ++ σ.aside.reverse) :
    tree.Formed ∧ tree.lexemes.Sublist (σ.lexemes m) := by
  obtain ⟨haside, hqueue⟩ :=
    sublist_waitingLexemes m (σ.aside.reverse.map Shape.lexeme) σ.queue
  rw [Scene.lexemes]
  rcases List.mem_append.1 htree with htree | htree
  · rcases List.mem_append.1 htree with htree | htree
    · exact ⟨h.stack tree (List.mem_reverse.1 htree),
        (lexemes_sublist_lexemesOf htree).trans (List.sublist_append_left _ _)⟩
    · exact ⟨h.queue tree htree, ((lexemes_sublist_lexemesOf htree).trans hqueue).trans
        (List.sublist_append_right _ _)⟩
  · have hbare := h.aside tree (List.mem_reverse.1 htree)
    refine ⟨hbare.formed, ?_⟩
    rw [hbare.lexemes]
    have hlexeme : [tree.lexeme].Sublist (σ.aside.reverse.map Shape.lexeme) :=
      List.singleton_sublist.2 (List.mem_map_of_mem htree)
    exact (hlexeme.trans haside).trans (List.sublist_append_right _ _)

/-! ## Runs that parse -/

/-- Spans locate text.  The lexemes that a parsing run holds make up its input with what is left of
it, and each has for its span the place where it stands there.  The position of the run is where the
text that is left begins.  Of all that is in the trees, tokens are among these lexemes, and trees go
from their first leaf to their last one. -/
theorem parsed_spans_locate (hm : Distinguishes m) (hw : w.length + 1 < UInt32.size)
    (hfresh : Fresh m (Stream.ofBytes w) s) (h : Parsed m s r) :
    ∃ lexemes trees, heldLexemes m r = .ok lexemes ∧ heldTrees r = .ok trees ∧
      texts lexemes ++ remainingText r = w ∧
      r.position = Position.start.advance (texts lexemes) ∧
      (∀ before l after, lexemes = before ++ l :: after → l.LiesIn w (texts before).length) ∧
      (∀ tree ∈ trees, ∀ t : Shape, t.Part tree →
        (t.production = none → t.lexeme ∈ lexemes) ∧ (t.production.isSome = true → t.Covers)) ∧
      ∀ n, (Position.start.advance (w.take n)).Fits := by
  have hlength : w.length < Span.maxOffset := by
    have hmax : UInt32.size ≤ Span.maxOffset := by decide
    omega
  have hparsed := parsedFrom_parsed hfresh h
  obtain ⟨σ, hdepicts, hwhole, hlocated⟩ :
      ∃ σ, Depicts r.view σ ∧ Whole m w σ ∧ Located m σ :=
    depicts_path (fun _ h => h.1.noTrees)
      (fun _ _ h hstep =>
        ⟨whole_becomes hm h.1 hstep, located_becomes hm hlength h.1 h.2 hstep⟩)
      hparsed.sound.path hparsed.own (depicts_fresh hfresh) ⟨whole_front m w, located_front m w⟩
  obtain ⟨hlexemes, htrees, hremaining⟩ :=
    lexemes_of_depicts (m := m) hparsed.sound.toTidy hparsed.unread hdepicts
  have htext : texts (σ.lexemes m) ++ remainingText r = w := by
    rw [hremaining, texts_lexemes, hwhole.text]
  refine ⟨_, _, hlexemes, htrees, htext, ?_, ?_, ?_, Position.fits_advance hw⟩
  · rw [← hlocated.position]
    exact hdepicts.position
  · intro before l after hsplit
    have hlaid := hlocated.laid
    rw [hsplit] at hlaid htext
    rw [← htext]
    exact hlaid.liesIn
  · intro tree htree t hpart
    obtain ⟨hformed, hsub⟩ := hlocated.held htree
    obtain ⟨hpart, hleaves⟩ := hformed.part hpart
    have hleaves := hleaves.trans hsub
    constructor
    · intro hnone
      apply hleaves.subset
      rw [Shape.leaves_of_token hnone]
      exact List.mem_singleton.2 rfl
    · intro _
      exact hpart.covers ((hlocated.inRow hwhole hlength).sublist (hleaves.map Lexeme.span))

/-- The letter is parsed, and it is located where the input starts. -/
theorem parsed_spans_locate_letter :
    ∃ r lexemes trees, Parsed letterMachine letterStart r ∧ r.point = .done ∧
      heldLexemes letterMachine r = .ok lexemes ∧ heldTrees r = .ok trees ∧
      texts lexemes ++ remainingText r = [97] ∧
      r.position = Position.start.advance (texts lexemes) ∧
      (∀ before l after, lexemes = before ++ l :: after →
        l.LiesIn [97] (texts before).length) ∧
      (∀ tree ∈ trees, ∀ t : Shape, t.Part tree →
        (t.production = none → t.lexeme ∈ lexemes) ∧
          (t.production.isSome = true → t.Covers)) := by
  obtain ⟨r, hparse, -, hpoint, halive, -⟩ := parse_letter
  have hfresh : Fresh letterMachine (Stream.ofBytes [97]) letterStart := ⟨rfl, 8, 8, none, rfl⟩
  have hparsed : Parsed letterMachine letterStart r :=
    @Parsed.call _ _ (.parse 20 .start) _ _ .start trivial (.inl ⟨_, hparse⟩) halive
  obtain ⟨lexemes, trees, hlexemes, htrees, htext, hposition, hlies, hparts, -⟩ :=
    parsed_spans_locate distinguishes_letter (by decide) hfresh hparsed
  exact ⟨r, lexemes, trees, hparsed, hpoint, hlexemes, htrees, htext, hposition, hlies,
    hparts⟩

end Rewind.Run
