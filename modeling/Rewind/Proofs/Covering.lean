import Mathlib.Order.Bounds.Basic
import Rewind.Proofs.Forward
import Rewind.Proofs.Frame
import Rewind.Proofs.History
import Rewind.Proofs.Slots
import Rewind.Proofs.Spans

/-!
# Merging spans in any order

What a merge of spans comes to is told by the set of spans alone: from the least start among those
that have a place to the greatest end (`Encloses`).  Merging keeps this up, whatever the two sides
enclose, and there is only one such span for a set.  So merging commutes, associates and is
idempotent, and neither the order nor the nesting of merges makes a difference (`merge_any_order`);
a tree gets the span of its parts, however a reduction goes about it.

The span that stands for no place is a value like others.  No merge of spans in a stream comes to
it, because their lines count from one.
-/

namespace Rewind

/-! ## Positions in order -/

instance : LinearOrder Position where
  le_refl := fun p => by
    rw [Position.le_def]
    omega
  le_trans := fun p q s hpq hqs => by
    rw [Position.le_def] at *
    omega
  le_antisymm := fun p q hpq hqp => by
    rw [Position.le_def] at *
    cases p
    cases q
    simp only [Position.mk.injEq]
    dsimp only at *
    omega
  le_total := fun p q => by
    simp only [Position.le_def]
    omega
  toDecidableLE := inferInstance

namespace Span

variable {s t : Span} {xs ys : List Span}

/-- The span is one in a stream: lines count from one, and there is an offset behind its end. -/
def Placed (s : Span) : Prop :=
  1 ≤ s.start.line ∧ s.start.offset + s.length < UInt64.size

/-- The span is one in a stream, or it stands for no place. -/
def Legal (s : Span) : Prop :=
  s = unknown ∨ s.Placed

lemma Placed.ne_unknown (h : s.Placed) : s ≠ unknown := by
  rintro rfl
  have hline := h.1
  simp [unknown] at hline

lemma Placed.isUnknown (h : s.Placed) : s.isUnknown = false := by
  simpa [Span.isUnknown] using h.ne_unknown

lemma Placed.endOffset (h : s.Placed) : s.endOffset = s.start.offset + s.length := by
  have hlt := h.2
  simp only [Span.endOffset, maxOffset]
  omega

/-- Merging goes from the lesser start to the greater end. -/
lemma merge_of_placed (hs : s.Placed) (ht : t.Placed) :
    (s.merge t).Placed ∧ (s.merge t).start = min s.start t.start ∧
      (s.merge t).endOffset = max s.endOffset t.endOffset := by
  have hmerge : s.merge t = ⟨min s.start t.start,
      max s.endOffset t.endOffset - (min s.start t.start).offset⟩ := by
    simp [merge, hs.isUnknown, ht.isUnknown, min_def]
  have hfirst : (min s.start t.start).offset ≤ max s.endOffset t.endOffset ∧
      1 ≤ (min s.start t.start).line := by
    rw [hs.endOffset, ht.endOffset]
    rcases le_total s.start t.start with hle | hle
    · rw [min_eq_left hle]
      exact ⟨by omega, hs.1⟩
    · rw [min_eq_right hle]
      exact ⟨by omega, ht.1⟩
  have hplaced : (s.merge t).Placed := by
    rw [hmerge]
    refine ⟨hfirst.2, ?_⟩
    have hs' := hs.2
    have ht' := ht.2
    have hends := hfirst.1
    rw [hs.endOffset, ht.endOffset] at *
    dsimp only
    omega
  refine ⟨hplaced, ?_, ?_⟩
  · rw [hmerge]
  · rw [hplaced.endOffset, hmerge]
    dsimp only
    omega

/-! ## What spans cover together -/

/-- Those of the spans that have a place. -/
def known (spans : List Span) : Set Span :=
  {s | s ∈ spans ∧ s ≠ unknown}

lemma known_append (xs ys : List Span) : known (xs ++ ys) = known xs ∪ known ys := by
  ext s
  simp [known, or_and_right]

lemma known_nil : known [] = ∅ := by
  simp [known]

lemma known_unknown : known [unknown] = ∅ := by
  ext s
  simp [known]

lemma known_of_placed (h : ∀ s ∈ xs, s.Placed) : known xs = {s | s ∈ xs} := by
  ext s
  simp only [known, Set.mem_ofPred_eq, and_iff_left_iff_imp]
  exact fun hs => (h s hs).ne_unknown

/-- The span goes from the least start to the greatest end; it stands for no place if none of the
spans has one. -/
inductive Encloses (spans : List Span) : Span → Prop
  | nowhere : known spans = ∅ → Encloses spans unknown
  | around {s : Span} :
    s.Placed → IsLeast (Span.start '' known spans) s.start →
    IsGreatest (Span.endOffset '' known spans) s.endOffset → Encloses spans s

namespace Encloses

lemma legal (h : Encloses xs s) : s.Legal := by
  cases h with
  | nowhere _ => exact .inl rfl
  | around hplaced _ _ => exact .inr hplaced

lemma single (h : s.Legal) : Encloses [s] s := by
  rcases h with rfl | hplaced
  · exact nowhere known_unknown
  · have hknown : known [s] = {s} := by
      rw [known_of_placed (by simpa using hplaced)]
      simp
    apply around hplaced
    · simp [hknown]
    · simp [hknown]

/-- What encloses two lists of spans, merged, encloses both. -/
lemma merge (hx : Encloses xs s) (hy : Encloses ys t) : Encloses (xs ++ ys) (s.merge t) := by
  cases hx with
  | nowhere hx =>
    rw [merge_unknown]
    have hknown : known (xs ++ ys) = known ys := by
      rw [known_append, hx, Set.empty_union]
    cases hy with
    | nowhere hy => exact nowhere (hknown.trans hy)
    | around hplaced hstart hend =>
      rw [← hknown] at hstart hend
      exact around hplaced hstart hend
  | around hs hstart hend =>
    cases hy with
    | nowhere hy =>
      rw [merge_unknown_right hs.isUnknown]
      have hknown : known (xs ++ ys) = known xs := by
        rw [known_append, hy, Set.union_empty]
      rw [← hknown] at hstart hend
      exact around hs hstart hend
    | around ht hstart' hend' =>
      obtain ⟨hplaced, hmin, hmax⟩ := merge_of_placed hs ht
      apply around hplaced
      · rw [known_append, Set.image_union, hmin]
        exact hstart.union hstart'
      · rw [known_append, Set.image_union, hmax]
        exact hend.union hend'

/-- Of a set of spans, only one span encloses them. -/
lemma unique (hx : Encloses xs s) (hy : Encloses ys t) (hsame : ∀ x, x ∈ xs ↔ x ∈ ys) : s = t := by
  have hknown : known xs = known ys := by
    simp only [known, hsame]
  cases hx with
  | nowhere hx =>
    cases hy with
    | nowhere _ => rfl
    | around _ hstart _ =>
      rw [← hknown, hx, Set.image_empty] at hstart
      exact absurd hstart.1 (Set.notMem_empty _)
  | around hs hstart hend =>
    cases hy with
    | nowhere hy =>
      rw [hknown, hy, Set.image_empty] at hstart
      exact absurd hstart.1 (Set.notMem_empty _)
    | around ht hstart' hend' =>
      rw [← hknown] at hstart' hend'
      have hfirst : s.start = t.start := hstart.unique hstart'
      have hlast : s.endOffset = t.endOffset := hend.unique hend'
      rw [hs.endOffset, ht.endOffset, hfirst] at hlast
      have hlength : s.length = t.length := by omega
      cases s
      cases t
      simp_all

/-- Merging spans one after the other. -/
lemma foldl (hx : Encloses xs s) (hys : ∀ y ∈ ys, y.Legal) :
    Encloses (xs ++ ys) (ys.foldl Span.merge s) := by
  induction ys generalizing xs s with
  | nil => simpa using hx
  | cons y ys ih =>
    have hrest := ih (hx.merge (single (hys y List.mem_cons_self)))
      fun z hz => hys z (List.mem_cons_of_mem _ hz)
    simpa using hrest

/-- Where all spans have a place, so has what encloses them. -/
lemma of_placed (h : Encloses xs s) (hne : xs ≠ []) (hxs : ∀ x ∈ xs, x.Placed) :
    s.Placed ∧ IsLeast (Span.start '' {x | x ∈ xs}) s.start ∧
      IsGreatest (Span.endOffset '' {x | x ∈ xs}) s.endOffset := by
  rw [← known_of_placed hxs]
  cases h with
  | nowhere hnone =>
    obtain ⟨x, hx⟩ := List.exists_mem_of_ne_nil xs hne
    rw [known_of_placed hxs] at hnone
    exact absurd hx (Set.eq_empty_iff_forall_notMem.1 hnone x)
  | around hplaced hstart hend => exact ⟨hplaced, hstart, hend⟩

end Encloses

/-! ## Groups of spans -/

/-- Spans with brackets: in which order they are merged, and what is merged first. -/
inductive Grouping where
  | one (s : Span)
  | both (left right : Grouping)

namespace Grouping

/-- The spans without the brackets. -/
def spans : Grouping → List Span
  | one s => [s]
  | both left right => left.spans ++ right.spans

/-- The spans merged as the brackets say. -/
def merged : Grouping → Span
  | one s => s
  | both left right => left.merged.merge right.merged

lemma spans_ne_nil (g : Grouping) : g.spans ≠ [] := by
  induction g with
  | one s => simp [spans]
  | both left right ih _ => simp [spans, ih]

lemma encloses (g : Grouping) (h : ∀ s ∈ g.spans, s.Legal) : Encloses g.spans g.merged := by
  induction g with
  | one s => exact .single (h s (by simp [spans]))
  | both left right ihl ihr =>
    simp only [spans, List.mem_append] at h
    exact (ihl fun s hs => h s (.inl hs)).merge (ihr fun s hs => h s (.inr hs))

end Grouping

end Span

/-! ## The span of a tree -/

namespace Run

open Attempt Op

variable {m : Machine} {r s : Run} {production : ProductionId} {alternative : Nat}
  {more commits : Bool} {answer : Option Status}

/-- A reduction makes a tree of the topmost nodes of the stack, whose span is theirs merged from
left to right. -/
lemma span_of_reduce (hsound : Pool.Sound r.forest)
    (h : reduce m production alternative more commits r = .ok answer s) :
    ∃ (info : Grammar.Production) (children : List NodeId) (below : Option NodeId) (tree : NodeId)
        (node : Node), m.grammar.productions[production]? = some info ∧
      children.length = info.length ∧
      Linked (Pool.get? r.forest) r.stack children.reverse below ∧
      s.queue = tree :: r.queue ∧ Pool.get? s.forest tree = some node ∧
      node.production = some production ∧
      node.span = ((children.filterMap (Pool.get? r.forest)).map Node.span).foldl Span.merge
        Span.unknown := by
  obtain ⟨info, children, below, span, tree, made, linked, state, hinfo, hunstack, hspan, halloc,
    hlink, -, -, rfl⟩ := reduce_ok h
  obtain ⟨taken, hchildren, hlength, hlinked⟩ := linked_of_unstack hunstack
  rw [List.append_nil] at hchildren
  have hmade : Pool.get? made tree = some (.reduced info.lhs production children.head? span) := by
    rw [(Pool.get?_of_alloc hsound halloc).2, Function.update_self]
  have hsame := (linkSiblings_unlinked (hlink { r with forest := made } rfl)).2 tree
  rw [hmade, Option.map_some, Option.map_eq_some_iff] at hsame
  obtain ⟨node, hnode, hunlinked⟩ := hsame
  refine ⟨info, children, below, tree, node, hinfo, ?_, ?_, rfl, hnode, ?_, ?_⟩
  · simp [hchildren, hlength]
  · simpa [hchildren] using hlinked
  · exact congrArg Node.production hunlinked
  · rw [← spans_of_spanOf hspan]
    exact congrArg Node.span hunlinked

end Run

namespace Span

/-- Merging legal spans commutes, associates and is idempotent, the span that stands for no place is
neutral, and what comes of it is legal.  In whatever order and groups spans of a stream are merged,
the result is a span of the stream from their least start to their greatest end.  The span of a tree
that a reduction makes is what comes of merging those of its parts in any order and groups. -/
theorem merge_any_order :
    (∀ s t : Span, s.Legal → t.Legal → (s.merge t).Legal ∧ s.merge t = t.merge s) ∧
    (∀ s : Span, s.Legal → s.merge s = s ∧ unknown.merge s = s ∧ s.merge unknown = s) ∧
    (∀ s t u : Span, s.Legal → t.Legal → u.Legal → (s.merge t).merge u = s.merge (t.merge u)) ∧
    (∀ (spans : List Span) (g : Grouping), g.spans.Perm spans → (∀ s ∈ spans, s.Placed) →
      g.merged.Placed ∧ IsLeast (Span.start '' {s | s ∈ spans}) g.merged.start ∧
        IsGreatest (Span.endOffset '' {s | s ∈ spans}) g.merged.endOffset) ∧
    (∀ m production alternative more commits answer (r s : Run), Pool.Sound r.forest →
      Run.reduce m production alternative more commits r = .ok answer s →
      ∃ (info : Grammar.Production) (children : List NodeId) (below : Option NodeId)
          (tree : NodeId) (node : Node) (spans : List Span),
        m.grammar.productions[production]? = some info ∧
        children.length = info.length ∧
        Linked (Pool.get? r.forest) r.stack children.reverse below ∧
        (children.filterMap (Pool.get? r.forest)).map Node.span = spans ∧
        s.queue = tree :: r.queue ∧ Pool.get? s.forest tree = some node ∧
        node.production = some production ∧
        ((∀ x ∈ spans, x.Legal) →
          ∀ g : Grouping, g.spans.Perm spans → node.span = g.merged)) := by
  have hnone : Encloses [] unknown := .nowhere known_nil
  refine ⟨fun s t hs ht => ?_, fun s hs => ?_, fun s t u hs ht hu => ?_,
    fun spans g hperm hplaced => ?_,
      fun m production alternative more commits answer r s hsound h => ?_⟩
  · have hst := (Encloses.single hs).merge (.single ht)
    have hts := (Encloses.single ht).merge (.single hs)
    exact ⟨hst.legal, hst.unique hts (by simp [or_comm])⟩
  · have hself := (Encloses.single hs).merge (.single hs)
    have hleft := hnone.merge (.single hs)
    have hright := (Encloses.single hs).merge hnone
    exact ⟨hself.unique (.single hs) (by simp), hleft.unique (.single hs) (by simp),
      hright.unique (.single hs) (by simp)⟩
  · have hleft := ((Encloses.single hs).merge (.single ht)).merge (.single hu)
    have hright := (Encloses.single hs).merge ((Encloses.single ht).merge (.single hu))
    exact hleft.unique hright (by simp)
  · have hmem (s : Span) : s ∈ g.spans ↔ s ∈ spans := hperm.mem_iff
    have hall := g.encloses fun s hs => .inr (hplaced s ((hmem s).1 hs))
    have hbounds := hall.of_placed g.spans_ne_nil fun s hs => hplaced s ((hmem s).1 hs)
    simpa only [hmem] using hbounds
  · obtain ⟨info, children, below, tree, node, hinfo, hlength, hstack, hqueue, hnode, hproduction,
      hspan⟩ := Run.span_of_reduce hsound h
    refine ⟨info, children, below, tree, node, _, hinfo, hlength, hstack, rfl, hqueue, hnode,
      hproduction, fun hlegal g hperm => ?_⟩
    have hfold := hnone.foldl hlegal
    rw [← hspan, List.nil_append] at hfold
    exact hfold.unique (g.encloses fun x hx => hlegal x (hperm.mem_iff.1 hx))
      fun x => hperm.mem_iff.symm

/-- The machine for a letter, with words of two letters. -/
def pairMachine : Machine :=
  { Run.letterMachine with
    grammar := { Run.letterMachine.grammar with productions := #[⟨2, 2, false⟩] } }

/-- The spans of two letters, the second of them on the next line. -/
def pairSpans : List Span :=
  [⟨⟨0, 1, 1⟩, 1⟩, ⟨⟨2, 2, 1⟩, 1⟩]

/-- Two letters are on the stack. -/
def pairRun : Run :=
  { Run.letterStart with
    stack := some 1
    forest := { (Pool.empty 8 8 : Forest) with
      slots := #[some (Node.token 1 [97] ⟨⟨0, 1, 1⟩, 1⟩),
        some { Node.token 1 [97] ⟨⟨2, 2, 1⟩, 1⟩ with next := some 0 }] } }

/-- The letters become a word that reaches from the first to the second, which is what merging them
the other way round comes to. -/
theorem merge_any_order_pair :
    (∀ s ∈ pairSpans, s.Placed) ∧ Pool.Sound pairRun.forest ∧
      ∃ s tree node, Run.reduce pairMachine 0 0 false false pairRun = .ok none s ∧
        Pool.get? s.forest tree = some node ∧ node.span = ⟨⟨0, 1, 1⟩, 3⟩ := by
  have hplaced : ∀ s ∈ pairSpans, s.Placed := by
    simp [pairSpans, Placed, UInt64.size]
  have hsound : Pool.Sound pairRun.forest := ⟨List.nodup_nil, by simp [pairRun, Pool.empty]⟩
  refine ⟨hplaced, hsound, ?_⟩
  obtain ⟨-, -, -, -, hreduced⟩ := merge_any_order
  have hreduce := Run.Result.eq_ok_left (x := Run.reduce pairMachine 0 0 false false pairRun)
    (a := none) (by decide +kernel)
  obtain ⟨info, children, below, tree, node, spans, hinfo, hlength, hstack, hspans, -, hnode, -,
    hgroups⟩ := hreduced _ _ _ _ _ _ _ _ hsound hreduce
  obtain rfl : (⟨2, 2, false⟩ : Grammar.Production) = info := Option.some.inj hinfo
  have hchildren : Linked (Pool.get? pairRun.forest) pairRun.stack [1, 0] none :=
    .cons rfl (.cons rfl (.nil none))
  obtain ⟨rest, hrest, -⟩ := hstack.behind hchildren
  have hreverse : children.reverse = [1, 0] := by
    have hsizes := congrArg List.length hrest
    simp only [List.length_append, List.length_reverse, hlength, List.length_cons,
      List.length_nil] at hsizes
    have hnil : rest = [] := List.eq_nil_of_length_eq_zero (by omega)
    rw [hrest, hnil, List.append_nil]
  obtain rfl : children = [0, 1] := by simpa using congrArg List.reverse hreverse
  obtain rfl : pairSpans = spans := hspans
  have hmerged := hgroups (fun x hx => .inr (hplaced x hx))
    (.both (.one ⟨⟨2, 2, 1⟩, 1⟩) (.one ⟨⟨0, 1, 1⟩, 1⟩)) (List.Perm.swap ..)
  exact ⟨_, tree, node, hreduce, hnode, by rw [hmerged]; decide⟩

end Span

end Rewind
