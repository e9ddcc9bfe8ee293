import Mathlib.Data.List.Basic
import Mathlib.Data.List.TakeWhile
import Rewind.Span

/-!
# Spans of texts in a row

Moving over one text and then over another is moving over both at once.  So texts that stand one
behind the other have spans of which each begins where the one before has ended, or later if there
is more text between them.  Merging such spans, in whatever groups, comes to the span from the
beginning of the first to the end of the last (`hull`): merging loses nothing but the gaps.

The span that stands for no place starts at the greatest offset there is, and ends are cut off
there.  Neither comes into play as long as no span reaches so far.
-/

namespace Rewind

namespace Position

/-! ## Moving over texts -/

lemma advance_of_mem {p : Position} {text : Bytes} (h : newline ∈ text) :
    p.advance text =
      ⟨p.offset + text.length, p.line + text.count newline,
        (text.reverse.takeWhile (· ≠ newline)).length + 1⟩ :=
  if_pos h

lemma advance_of_not_mem {p : Position} {text : Bytes} (h : newline ∉ text) :
    p.advance text = ⟨p.offset + text.length, p.line, p.column + text.length⟩ :=
  if_neg h

/-- The last line of a text of several lines is shorter than the text. -/
lemma lastLine_lt {text : Bytes} (h : newline ∈ text) :
    (text.reverse.takeWhile (· ≠ newline)).length < text.length := by
  rw [← text.length_reverse]
  apply lt_of_le_of_ne (List.takeWhile_sublist _).length_le
  intro hlength
  have hself := (List.takeWhile_sublist _).eq_of_length hlength
  have hnone := List.takeWhile_eq_self_iff.1 hself newline (List.mem_reverse.2 h)
  simp at hnone

/-- Moving over two texts one after the other. -/
lemma advance_append (p : Position) (text more : Bytes) :
    p.advance (text ++ more) = (p.advance text).advance more := by
  have hall (l : Bytes) (h : newline ∉ l) :
      ∀ b ∈ l.reverse, decide (b ≠ newline) = true := by
    intro b hb
    apply decide_eq_true
    rintro rfl
    exact h (List.mem_reverse.1 hb)
  by_cases hmore : newline ∈ more
  · -- the column is that behind the last newline, which is one of the second text
    have hboth : newline ∈ text ++ more := List.mem_append_right _ hmore
    have hcolumn : (more.reverse ++ text.reverse).takeWhile (· ≠ newline) =
        more.reverse.takeWhile (· ≠ newline) := by
      rw [List.takeWhile_append, if_neg]
      rw [List.length_reverse]
      exact (lastLine_lt hmore).ne
    rw [advance_of_mem hboth, advance_of_mem hmore, List.reverse_append, hcolumn]
    by_cases htext : newline ∈ text
    · rw [advance_of_mem htext]
      simp only [List.length_append, List.count_append, Nat.add_assoc]
    · rw [advance_of_not_mem htext]
      simp only [List.length_append, List.count_append, List.count_eq_zero.2 htext, Nat.zero_add,
        Nat.add_assoc]
  · by_cases htext : newline ∈ text
    · have hboth : newline ∈ text ++ more := List.mem_append_left _ htext
      rw [advance_of_mem hboth, advance_of_not_mem hmore, advance_of_mem htext,
        List.reverse_append, List.takeWhile_append_of_pos (hall more hmore)]
      simp only [List.length_append, List.length_reverse, List.count_append,
        List.count_eq_zero.2 hmore, Nat.add_zero, Position.mk.injEq, true_and]
      omega
    · have hboth : newline ∉ text ++ more := by
        rw [List.mem_append, not_or]
        exact ⟨htext, hmore⟩
      rw [advance_of_not_mem hboth, advance_of_not_mem hmore, advance_of_not_mem htext]
      simp only [List.length_append, Nat.add_assoc]

lemma le_advance (p : Position) (text : Bytes) : p ≤ p.advance text := by
  cases text with
  | nil => exact le_def.2 (.inr ⟨rfl, .inr ⟨rfl, Nat.le_refl _⟩⟩)
  | cons b text =>
    apply le_def.2
    left
    rw [offset_advance, List.length_cons]
    omega

/-- Lines and columns grow no faster than the text. -/
lemma advance_bounded (p : Position) (text : Bytes) :
    (p.advance text).line ≤ p.line + text.length ∧
      (p.advance text).column ≤ p.column + text.length := by
  by_cases h : newline ∈ text
  · rw [advance_of_mem h]
    have hcount : text.count newline ≤ text.length := List.count_le_length
    have hcolumn := lastLine_lt h
    constructor
    · dsimp only
      omega
    · dsimp only
      omega
  · rw [advance_of_not_mem h]
    constructor
    · dsimp only
      omega
    · dsimp only
      omega

/-- The line and the column can be written with 32 bits. -/
def Fits (p : Position) : Prop :=
  p.line < UInt32.size ∧ p.column < UInt32.size

/-- All places of a text that is not too long fit. -/
theorem fits_advance {text : Bytes} (h : text.length + 1 < UInt32.size) (n : Nat) :
    (start.advance (text.take n)).Fits := by
  obtain ⟨hline, hcolumn⟩ := advance_bounded start (text.take n)
  have hlength := List.length_take_le' n text
  rw [show start.line = 1 from rfl] at hline
  rw [show start.column = 1 from rfl] at hcolumn
  constructor
  · omega
  · omega

end Position

namespace Span

variable {s t : Span} {ss xs ys : List Span}

/-! ## Spans one behind the other -/

/-- The span reaches nowhere near the greatest offset. -/
def Within (s : Span) : Prop :=
  s.start.offset + s.length < maxOffset

/-- The second span begins where the first one has ended, or later. -/
def Before (s t : Span) : Prop :=
  s.start ≤ t.start ∧ s.start.offset + s.length ≤ t.start.offset

/-- Spans one behind the other. -/
def InRow (ss : List Span) : Prop :=
  (∀ s ∈ ss, s.Within) ∧ ss.Pairwise Before

lemma InRow.sublist (h : InRow ys) (hsub : xs.Sublist ys) : InRow xs :=
  ⟨fun s hs => h.1 s (hsub.subset hs), h.2.sublist hsub⟩

lemma Within.endOffset (h : s.Within) : s.endOffset = s.start.offset + s.length :=
  Nat.min_eq_left (Nat.le_of_lt h)

lemma Within.isUnknown (h : s.Within) : s.isUnknown = false := by
  apply decide_eq_false
  rintro rfl
  exact absurd h (Nat.not_lt.2 (Nat.le_add_right _ _))

lemma isUnknown_unknown : unknown.isUnknown = true :=
  decide_eq_true rfl

lemma merge_unknown (t : Span) : unknown.merge t = t :=
  if_pos isUnknown_unknown

lemma merge_unknown_right (h : s.isUnknown = false) : s.merge unknown = s := by
  rw [merge, if_neg (by simp [h]), if_pos isUnknown_unknown]

lemma merge_of_le (hs : s.isUnknown = false) (ht : t.isUnknown = false)
    (hle : s.start ≤ t.start) :
    s.merge t = ⟨s.start, max s.endOffset t.endOffset - s.start.offset⟩ := by
  rw [merge, if_neg (by simp [hs]), if_neg (by simp [ht])]
  simp only [if_pos hle]

/-! ## Merging them -/

/-- From the beginning of the first span to the end of the last one; no place if there are none. -/
def hull : List Span → Span
  | [] => unknown
  | s :: ss => ⟨s.start, ((s :: ss).getLast (List.cons_ne_nil s ss)).endOffset - s.start.offset⟩

lemma hull_singleton (h : s.Within) : hull [s] = s := by
  rw [hull, List.getLast_singleton, h.endOffset, Nat.add_sub_cancel_left]

/-- The last of spans in a row ends behind all others. -/
lemma InRow.le_last (h : InRow ss) (hne : ss ≠ []) (hs : s ∈ ss) :
    s.endOffset ≤ (ss.getLast hne).endOffset ∧ s.start.offset ≤ (ss.getLast hne).endOffset := by
  have hlast := h.1 _ (List.getLast_mem hne)
  rw [(h.1 s hs).endOffset, hlast.endOffset]
  obtain ⟨before, after, rfl⟩ := List.append_of_mem hs
  cases after with
  | nil =>
    rw [List.getLast_append_singleton]
    omega
  | cons x after =>
    have hlater : (before ++ s :: x :: after).getLast hne ∈ x :: after := by
      rw [List.getLast_append_of_right_ne_nil _ _ (List.cons_ne_nil _ _),
        List.getLast_cons (List.cons_ne_nil _ _)]
      exact List.getLast_mem _
    have hpairs := (List.pairwise_append.1 h.2).2.1
    have hbefore := (List.pairwise_cons.1 hpairs).1 _ hlater
    have hend := hbefore.2
    omega

lemma InRow.hull_within (h : InRow (s :: ss)) : (hull (s :: ss)).Within ∧
    (hull (s :: ss)).endOffset = ((s :: ss).getLast (List.cons_ne_nil s ss)).endOffset := by
  have hle := (h.le_last (List.cons_ne_nil s ss) List.mem_cons_self).2
  have hlast := h.1 _ (List.getLast_mem (List.cons_ne_nil s ss))
  have hend := hlast.endOffset
  have hsum : s.start.offset + (((s :: ss).getLast (List.cons_ne_nil s ss)).endOffset -
      s.start.offset) = ((s :: ss).getLast (List.cons_ne_nil s ss)).endOffset := by
    omega
  have hwithin : (hull (s :: ss)).Within := by
    rw [Within, hull, hsum, hend]
    exact hlast
  refine ⟨hwithin, ?_⟩
  rw [hwithin.endOffset]
  exact hsum

/-- Merging what spans in a row cover is covering all of them. -/
lemma merge_hull (h : InRow (xs ++ ys)) : (hull xs).merge (hull ys) = hull (xs ++ ys) := by
  cases xs with
  | nil => exact merge_unknown _
  | cons x xs =>
    have hxs : InRow (x :: xs) := h.sublist (List.sublist_append_left _ _)
    cases ys with
    | nil =>
      rw [List.append_nil]
      exact merge_unknown_right hxs.hull_within.1.isUnknown
    | cons y ys =>
      have hys : InRow (y :: ys) := h.sublist (List.sublist_append_right _ _)
      have hcross := (List.pairwise_append.1 h.2).2.2
      have hle : x.start ≤ y.start := (hcross x List.mem_cons_self y List.mem_cons_self).1
      have hlast : ((x :: xs).getLast (List.cons_ne_nil x xs)).endOffset ≤
          ((y :: ys).getLast (List.cons_ne_nil y ys)).endOffset := by
        have hall := h.le_last (List.append_ne_nil_of_left_ne_nil (List.cons_ne_nil x xs) _)
          (List.mem_append_left _ (List.getLast_mem (List.cons_ne_nil x xs)))
        have hend := hall.1
        rwa [List.getLast_append_of_right_ne_nil _ _ (List.cons_ne_nil y ys)] at hend
      rw [merge_of_le hxs.hull_within.1.isUnknown hys.hull_within.1.isUnknown hle,
        hxs.hull_within.2, hys.hull_within.2, Nat.max_eq_right hlast]
      have happend : (x :: xs ++ y :: ys).getLast (List.cons_ne_nil x (xs ++ y :: ys)) =
          (y :: ys).getLast (List.cons_ne_nil y ys) :=
        List.getLast_append_of_right_ne_nil _ _ (List.cons_ne_nil y ys)
      change _ = hull (x :: (xs ++ y :: ys))
      rw [hull, ← happend]
      rfl

/-- Merging the hulls of groups, one after the other. -/
theorem foldl_merge_hull {groups : List (List Span)} (h : InRow (xs ++ groups.flatten)) :
    (groups.map hull).foldl merge (hull xs) = hull (xs ++ groups.flatten) := by
  induction groups generalizing xs with
  | nil =>
    rw [List.flatten_nil, List.append_nil]
    rfl
  | cons ys groups ih =>
    rw [List.flatten_cons, ← List.append_assoc] at h ⊢
    rw [List.map_cons, List.foldl_cons, merge_hull (h.sublist (List.sublist_append_left _ _))]
    exact ih h

end Span

end Rewind
