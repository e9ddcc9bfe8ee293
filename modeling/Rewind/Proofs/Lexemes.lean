import Rewind.Proofs.Spans
import Rewind.Proofs.Yield

/-!
# The lexemes of trees

A `Lexeme` is a token as it was read: its element, its text and the span of the text.  Trees written
out are lexemes in the order of the input, the ignored ones each in front of the terminal that
carries them.  The lexemes of a tree that are not ignored are its `leaves`.

Lexemes are laid out from a position (`Laid`) if each of them has its place where the texts of those
in front of it end.  Their spans are one behind the other then, and what a tree should have for its
span is what the spans of its leaves cover.
-/

namespace Rewind

/-- A token as it was read. -/
structure Lexeme where
  element : ElementId
  text : Bytes
  span : Span
  deriving DecidableEq, Repr

/-- The lexeme stands in the text behind so many bytes. -/
structure Lexeme.LiesIn (l : Lexeme) (w : Bytes) (i : Nat) : Prop where
  text : (w.drop i).take l.text.length = l.text
  span : l.span = ⟨Position.start.advance (w.take i), l.text.length⟩

/-- The text of lexemes one after the other. -/
def texts (lexemes : List Lexeme) : Bytes :=
  lexemes.flatMap Lexeme.text

lemma texts_append (xs ys : List Lexeme) : texts (xs ++ ys) = texts xs ++ texts ys :=
  List.flatMap_append

/-! ## Lexemes laid out -/

/-- Each lexeme has its place where the texts of those in front of it end. -/
def Laid : Position → List Lexeme → Prop
  | _, [] => True
  | p, l :: lexemes => l.span = ⟨p, l.text.length⟩ ∧ Laid (p.advance l.text) lexemes

lemma laid_append {p : Position} {xs ys : List Lexeme} :
    Laid p (xs ++ ys) ↔ Laid p xs ∧ Laid (p.advance (texts xs)) ys := by
  induction xs generalizing p with
  | nil => simp [Laid, texts]
  | cons l xs ih =>
    have htexts : texts (l :: xs) = l.text ++ texts xs := rfl
    rw [List.cons_append, Laid, Laid, ih, and_assoc, htexts, Position.advance_append]

/-- The place of one of them. -/
lemma Laid.span_eq {p : Position} {before after : List Lexeme} {l : Lexeme}
    (h : Laid p (before ++ l :: after)) :
    l.span = ⟨p.advance (texts before), l.text.length⟩ :=
  (laid_append.1 h).2.1

/-- Lexemes laid out from the start stand in a text that begins with theirs. -/
lemma Laid.liesIn {before after : List Lexeme} {l : Lexeme} {rest : Bytes}
    (h : Laid Position.start (before ++ l :: after)) :
    l.LiesIn (texts (before ++ l :: after) ++ rest) (texts before).length := by
  have htexts : texts (before ++ l :: after) ++ rest =
      texts before ++ (l.text ++ (texts after ++ rest)) := by
    rw [texts_append]
    simp only [texts, List.flatMap_cons, List.append_assoc]
  rw [htexts]
  constructor
  · rw [List.drop_left, List.take_left]
  · rw [List.take_left]
    exact h.span_eq

/-- Laid out, their spans are one behind the other. -/
lemma Laid.inRow {p : Position} {lexemes : List Lexeme} (h : Laid p lexemes)
    (hwithin : p.offset + (texts lexemes).length < Span.maxOffset) :
    Span.InRow (lexemes.map Lexeme.span) := by
  induction lexemes generalizing p with
  | nil => exact ⟨nofun, .nil⟩
  | cons l lexemes ih =>
    obtain ⟨hspan, hrest⟩ := h
    have htexts : texts (l :: lexemes) = l.text ++ texts lexemes := rfl
    rw [htexts, List.length_append] at hwithin
    obtain ⟨hall, hpairs⟩ := ih hrest (by rw [Position.offset_advance]; omega)
    constructor
    · intro s hs
      rcases List.mem_cons.1 hs with rfl | hs
      · rw [Span.Within, hspan]
        dsimp only
        omega
      · exact hall s hs
    · refine List.pairwise_cons.2 ⟨?_, hpairs⟩
      intro s hs
      obtain ⟨l', hl', rfl⟩ := List.mem_map.1 hs
      obtain ⟨before, after, rfl⟩ := List.append_of_mem hl'
      rw [Span.Before, hrest.span_eq, hspan, ← Position.advance_append]
      refine ⟨Position.le_advance _ _, ?_⟩
      rw [Position.offset_advance, List.length_append]
      dsimp only
      omega

/-! ## Lexemes of trees -/

/-- The token, if the tree is one. -/
def Shape.lexeme (s : Shape) : Lexeme :=
  ⟨s.element, s.text, s.span⟩

mutual

/-- All lexemes of a tree: those ignored in front, and then its own or those of its children. -/
def Shape.lexemes : Shape → List Lexeme
  | ⟨element, production, text, span, _, _, children, ignored⟩ =>
    ignored.map Shape.lexeme ++
      if production.isSome then lexemesOf children else [⟨element, text, span⟩]

/-- All lexemes of several trees. -/
def lexemesOf : List Shape → List Lexeme
  | [] => []
  | s :: shapes => s.lexemes ++ lexemesOf shapes

end

mutual

/-- The lexemes of a tree that are not ignored. -/
def Shape.leaves : Shape → List Lexeme
  | ⟨element, production, text, span, _, _, children, _⟩ =>
    if production.isSome then leavesOf children else [⟨element, text, span⟩]

/-- The lexemes of several trees that are not ignored. -/
def leavesOf : List Shape → List Lexeme
  | [] => []
  | s :: shapes => s.leaves ++ leavesOf shapes

end

/-- The lexemes of a tree without those ignored in front. -/
def Shape.core (s : Shape) : List Lexeme :=
  if s.production.isSome then lexemesOf s.children else [s.lexeme]

lemma Shape.lexemes_eq (s : Shape) : s.lexemes = s.ignored.map Shape.lexeme ++ s.core := by
  cases s
  rw [lexemes]
  rfl

lemma Shape.leaves_eq (s : Shape) :
    s.leaves = if s.production.isSome then leavesOf s.children else [s.lexeme] := by
  cases s
  rw [leaves]
  rfl

lemma lexemesOf_append (xs ys : List Shape) :
    lexemesOf (xs ++ ys) = lexemesOf xs ++ lexemesOf ys := by
  induction xs with
  | nil => rfl
  | cons x xs ih => simp only [List.cons_append, lexemesOf, ih, List.append_assoc]

lemma leavesOf_eq (shapes : List Shape) :
    leavesOf shapes = (shapes.map Shape.leaves).flatten := by
  induction shapes with
  | nil => rfl
  | cons s shapes ih => rw [leavesOf, ih, List.map_cons, List.flatten_cons]

lemma lexemes_sublist_lexemesOf {s : Shape} {shapes : List Shape} (h : s ∈ shapes) :
    s.lexemes.Sublist (lexemesOf shapes) := by
  obtain ⟨before, after, rfl⟩ := List.append_of_mem h
  rw [lexemesOf_append, lexemesOf]
  exact (List.sublist_append_left _ _).trans (List.sublist_append_right _ _)

mutual

lemma Shape.leaves_sublist (s : Shape) : s.leaves.Sublist s.lexemes := by
  obtain ⟨element, production, text, span, state, artificial, children, ignored⟩ := s
  rw [Shape.leaves, Shape.lexemes]
  cases production.isSome with
  | true => exact (leavesOf_sublist children).trans (List.sublist_append_right _ _)
  | false => exact List.sublist_append_right _ _

lemma leavesOf_sublist (shapes : List Shape) : (leavesOf shapes).Sublist (lexemesOf shapes) := by
  cases shapes with
  | nil => exact .slnil
  | cons s shapes =>
    rw [leavesOf, lexemesOf]
    exact s.leaves_sublist.append (leavesOf_sublist shapes)

end

mutual

/-- The lexemes of a tree have its text. -/
lemma Shape.texts_lexemes (s : Shape) : texts s.lexemes = s.yield := by
  obtain ⟨element, production, text, span, state, artificial, children, ignored⟩ := s
  have hignored : texts (ignored.map Shape.lexeme) = ignored.flatMap Shape.text :=
    List.flatMap_map _ _ _
  rw [Shape.lexemes, Shape.yield, texts_append, hignored]
  cases production.isSome with
  | true => exact congrArg _ (texts_lexemesOf children)
  | false => exact congrArg _ (List.append_nil text)

lemma texts_lexemesOf (shapes : List Shape) : texts (lexemesOf shapes) = yields shapes := by
  cases shapes with
  | nil => rfl
  | cons s shapes =>
    rw [lexemesOf, yields, texts_append, s.texts_lexemes, texts_lexemesOf shapes]

end

/-! ## Spans of trees -/

/-- A token that carries nothing. -/
structure Shape.IsBare (s : Shape) : Prop where
  production : s.production = none
  children : s.children = []
  ignored : s.ignored = []

/-- Every tree in this one covers its leaves, and all that is ignored is tokens. -/
inductive Shape.Formed : Shape → Prop
  | mk {s : Shape} : (∀ i ∈ s.ignored, i.IsBare) → (s.production = none → s.children = []) →
    (s.production.isSome = true → s.span = Span.hull (s.leaves.map Lexeme.span)) →
    (∀ c ∈ s.children, c.Formed) → s.Formed

/-- The first tree is the second one, or one below it. -/
inductive Shape.Part (t : Shape) : Shape → Prop
  | self : Part t t
  | child {s c : Shape} : c ∈ s.children → Part t c → Part t s
  | ignored {s i : Shape} : i ∈ s.ignored → Part t i → Part t s

/-- The span of the tree goes from its first leaf to its last one, and is no place if it has no
leaves. -/
def Shape.Covers (s : Shape) : Prop :=
  (s.leaves = [] → s.span = Span.unknown) ∧
    ∀ first last, s.leaves.head? = some first → s.leaves.getLast? = some last →
      s.span.start = first.span.start ∧ s.span.endOffset = last.span.endOffset

namespace Shape

variable {s t : Shape}

lemma IsBare.formed (h : s.IsBare) : s.Formed := by
  refine .mk ?_ (fun _ => h.children) ?_ ?_
  · rw [h.ignored]
    exact nofun
  · rw [h.production]
    exact nofun
  · rw [h.children]
    exact nofun

lemma IsBare.lexemes (h : s.IsBare) : s.lexemes = [s.lexeme] := by
  rw [lexemes_eq, core, h.ignored, h.production]
  rfl

lemma IsBare.part (h : s.IsBare) (hpart : Part t s) : t = s := by
  cases hpart with
  | self => rfl
  | child hc _ =>
    rw [h.children] at hc
    cases hc
  | ignored hi _ =>
    rw [h.ignored] at hi
    cases hi

/-- A part of a tree that is formed is formed too, and its leaves are lexemes of the tree. -/
lemma Formed.part (h : s.Formed) (hpart : Part t s) :
    t.Formed ∧ t.leaves.Sublist s.lexemes := by
  induction hpart with
  | self => exact ⟨h, t.leaves_sublist⟩
  | @child s c hc _ ih =>
    obtain ⟨-, hnone, -, hchildren⟩ := h
    obtain ⟨hformed, hleaves⟩ := ih (hchildren c hc)
    refine ⟨hformed, hleaves.trans ?_⟩
    cases hproduction : s.production with
    | none =>
      rw [hnone hproduction] at hc
      cases hc
    | some production =>
      rw [s.lexemes_eq, core, hproduction]
      exact (lexemes_sublist_lexemesOf hc).trans (List.sublist_append_right _ _)
  | @ignored s i hi hpart _ =>
    obtain ⟨hignored, -⟩ := h
    obtain rfl := (hignored i hi).part hpart
    have hbare := hignored t hi
    refine ⟨hbare.formed, ?_⟩
    rw [leaves_eq, hbare.production, lexemes_eq]
    apply List.singleton_sublist.2
    exact List.mem_append_left _ (List.mem_map_of_mem hi)

lemma leaves_of_token (h : s.production = none) : s.leaves = [s.lexeme] := by
  rw [leaves_eq, h]
  rfl

/-- The span of a tree, or of a token, is what its leaves cover. -/
lemma Formed.span_eq (h : s.Formed) (hrow : Span.InRow (s.leaves.map Lexeme.span)) :
    s.span = Span.hull (s.leaves.map Lexeme.span) := by
  obtain ⟨-, -, hspan, -⟩ := h
  cases hproduction : s.production with
  | some production => exact hspan (by rw [hproduction]; rfl)
  | none =>
    rw [leaves_of_token hproduction] at hrow ⊢
    exact (Span.hull_singleton (hrow.1 s.span List.mem_cons_self)).symm

lemma Formed.covers (h : s.Formed) (hrow : Span.InRow (s.leaves.map Lexeme.span)) :
    s.Covers := by
  have hspan := h.span_eq hrow
  constructor
  · intro hnone
    rw [hspan, hnone]
    rfl
  · intro first last hfirst hlast
    cases hleaves : s.leaves with
    | nil =>
      rw [hleaves] at hfirst
      cases hfirst
    | cons l leaves =>
      rw [hleaves] at hfirst hlast hspan hrow
      cases hfirst
      rw [List.map_cons] at hspan hrow
      rw [hspan, hrow.hull_within.2]
      refine ⟨rfl, ?_⟩
      rw [List.getLast?_eq_some_getLast (List.cons_ne_nil first leaves)] at hlast
      obtain rfl := Option.some.inj hlast
      have hmap := List.getLast_map (f := Lexeme.span) (l := first :: leaves) (by simp)
      exact congrArg Span.endOffset hmap

/-- What trees in a row cover is what merging their spans comes to. -/
lemma merge_spans {shapes : List Shape} (hformed : ∀ s ∈ shapes, s.Formed)
    (hrow : Span.InRow ((leavesOf shapes).map Lexeme.span)) :
    (shapes.map Shape.span).foldl Span.merge Span.unknown =
      Span.hull ((leavesOf shapes).map Lexeme.span) := by
  have hgroups : (leavesOf shapes).map Lexeme.span =
      (shapes.map fun s => s.leaves.map Lexeme.span).flatten := by
    rw [leavesOf_eq, List.map_flatten, List.map_map]
    rfl
  have hspans : shapes.map Shape.span =
      (shapes.map fun s => s.leaves.map Lexeme.span).map Span.hull := by
    rw [List.map_map]
    apply List.map_congr_left
    intro s hs
    apply (hformed s hs).span_eq
    rw [hgroups] at hrow
    exact hrow.sublist (List.sublist_flatten_of_mem (List.mem_map_of_mem hs))
  rw [hgroups] at hrow ⊢
  rw [hspans]
  exact @Span.foldl_merge_hull [] _ hrow

end Shape

end Rewind
