import Rewind.Grammar.Validation
import Rewind.Proofs.Attempt

/-!
# Alternatives in parser tables

The codes of a transition are a list that ends at the first zero, and its alternatives are the codes
of this list in their order, each of them followed by another unless it is the last.  Validation
looks at every code of every list, so in tables that pass it an alternative exists whenever a later
one does.
-/

namespace Rewind

namespace Check

variable {P α : Type}

lemma forM_eq_ok {f : α → Check P Unit} {l : List α} :
    l.forM f = .ok () ↔ ∀ a ∈ l, f a = .ok () := by
  induction l with
  | nil => simp [pure, Except.pure]
  | cons a l ih =>
    change (f a >>= fun _ => l.forM f) = _ ↔ _
    rw [Except.bind_eq_ok, List.forall_mem_cons]
    constructor
    · rintro ⟨⟨⟩, ha, hl⟩
      exact ⟨ha, ih.1 hl⟩
    · rintro ⟨ha, hl⟩
      exact ⟨(), ha, ih.2 hl⟩

lemma each_eq_ok {entries : Array α} {check : Nat → α → Check P Unit} :
    each entries check = .ok () ↔ ∀ i a, entries[i]? = some a → check i a = .ok () := by
  rw [each, forM_eq_ok]
  constructor
  · intro h i a hentry
    refine h (a, i) (List.mk_mem_zipIdx_iff_getElem?.2 ?_)
    rw [Array.getElem?_toList]
    exact hentry
  · rintro h ⟨a, i⟩ hmem
    have hentry := List.mk_mem_zipIdx_iff_getElem?.1 hmem
    rw [Array.getElem?_toList] at hentry
    exact h i a hentry

lemma range_eq_ok {table : P} {index value bound : Nat} :
    range table index value bound = .ok () ↔ value < bound := by
  rw [range]
  split
  · simpa
  · simpa using Nat.lt_of_not_le ‹_›

end Check

namespace Grammar.Tables

variable {t : Tables} {transition start k j : Nat} {state : StateId} {element : ElementId}
  {decision : Decision}

/-- The codes from an index on, up to the next zero. -/
def codesFrom (t : Tables) (start : Nat) : List Nat :=
  (t.codes.toList.drop start).takeWhile (· ≠ 0)

/-- What an alternative is decided to be, of a list of codes. -/
def decisionAt (transition k : Nat) (codes : List Nat) : Option Decision :=
  codes[k]?.bind fun code => (Action.decode code).map fun action =>
    { transition, action, alternative := k, more := Decidable.decide (k + 1 < codes.length) }

/-- Entries of a list before its first zero. -/
lemma takeWhile_getElem? (l : List Nat) (k : Nat) :
    (l.takeWhile (· ≠ 0))[k]? =
      if l.getD k 0 = 0 ∨ 0 ∈ l.take k then none else some (l.getD k 0) := by
  induction l generalizing k with
  | nil => simp
  | cons a l ih =>
    by_cases ha : a = 0
    · subst ha
      cases k <;> simp
    · cases k with
      | zero => simp [ha]
      | succ k => simpa [ha, Ne.symm ha] using ih k

/-- An entry behind one before the first zero is before it too, if it is not zero. -/
lemma succ_lt_takeWhile (l : List Nat) {k : Nat} (h : k < (l.takeWhile (· ≠ 0)).length) :
    k + 1 < (l.takeWhile (· ≠ 0)).length ↔ l.getD (k + 1) 0 ≠ 0 := by
  induction l generalizing k with
  | nil => cases h
  | cons a l ih =>
    by_cases ha : a = 0
    · subst ha
      cases h
    · have hcons : (a :: l).takeWhile (· ≠ 0) = a :: l.takeWhile (· ≠ 0) :=
        List.takeWhile_cons_of_pos (by simpa using ha)
      rw [hcons] at h ⊢
      cases k with
      | zero =>
        cases l with
        | nil => simp
        | cons b l => by_cases hb : b = 0 <;> simp [hb]
      | succ k =>
        have hk : k < (l.takeWhile (· ≠ 0)).length := by simpa using h
        simpa using ih hk

/-- The alternatives of a transition are the codes of its list. -/
lemma alternative_eq (hstart : t.codeStarts[transition]? = some start)
    (hle : start ≤ t.codes.size) (k : Nat) :
    t.alternative transition k = .ok (decisionAt transition k (t.codesFrom start)) := by
  have hcode (i : Nat) : t.codes.getD (start + i) 0 = (t.codes.toList.drop start).getD i 0 := by
    simp [Array.getD_eq_getD_getElem?, List.getD_eq_getElem?_getD]
  have hbefore : (t.codes.extract start (start + k)).toList =
      (t.codes.toList.drop start).take k := by
    simp [List.extract_eq_take_drop]
  rw [alternative, entry_eq_ok_iff.2 hstart]
  change (if start ≤ t.codes.size then _ else _) = _
  rw [if_pos hle, Nat.add_assoc, hcode, hcode, hbefore, decisionAt, codesFrom]
  have hget := takeWhile_getElem? (t.codes.toList.drop start) k
  rw [hget]
  by_cases hnone : (t.codes.toList.drop start).getD k 0 = 0 ∨
      0 ∈ (t.codes.toList.drop start).take k
  · rw [if_pos hnone, if_pos hnone]
    rfl
  · rw [if_neg hnone] at hget
    have hlt : k < ((t.codes.toList.drop start).takeWhile (· ≠ 0)).length :=
      (List.getElem?_eq_some_iff.1 hget).1
    have hmore := succ_lt_takeWhile _ hlt
    rw [if_neg hnone, if_neg hnone, Option.bind_some]
    simp only [hmore]
    rfl

/-- Every code of a list asks for something. -/
lemma decode_of_validate (h : t.validate = .ok ())
    (hstart : t.codeStarts[transition]? = some start) {code : Nat}
    (hcode : code ∈ t.codesFrom start) :
    (Action.decode code).isSome = true := by
  simp only [validate, Except.bind_eq_ok] at h
  obtain ⟨-, -, -, -, -, -, -, -, -, -, -, -, -, -, -, -, -, -, -, -, -, -, ⟨⟩, hcodes, -⟩ := h
  have hlist := Check.each_eq_ok.1 hcodes _ _ hstart
  simp only [checkCodes, Except.bind_eq_ok] at hlist
  obtain ⟨-, -, ⟨⟩, -, hall⟩ := hlist
  obtain ⟨i, hi⟩ := List.getElem?_of_mem hcode
  have hcheck := Check.forM_eq_ok.1 hall (code, start + i) <| by
    rw [List.mk_mem_zipIdx_iff_le_and_getElem?_sub]
    exact ⟨Nat.le_add_right _ _, by rwa [Nat.add_sub_cancel_left]⟩
  cases hdecode : Action.decode code with
  | some action => rfl
  | none =>
    rw [checkCode, hdecode] at hcheck
    cases hcheck

/-- A decision is an alternative of a transition. -/
lemma decide_eq_some (h : t.decide state element k = .ok (some decision)) :
    ∃ transition start, t.lookup state element = .ok (some transition) ∧
      t.codeStarts[transition]? = some start ∧ start ≤ t.codes.size ∧
      decisionAt transition k (t.codesFrom start) = some decision := by
  rw [decide, Except.bind_eq_ok] at h
  obtain ⟨_ | transition, hlookup, hfound⟩ := h
  · cases hfound
  · change t.alternative transition k = _ at hfound
    have halternative := hfound
    rw [alternative, Except.bind_eq_ok] at hfound
    obtain ⟨start, hstart, hcode⟩ := hfound
    rw [entry_eq_ok_iff] at hstart
    dsimp only at hcode
    split at hcode
    · rename_i hle
      rw [alternative_eq hstart hle] at halternative
      exact ⟨transition, start, hlookup, hstart, hle, Except.ok.inj halternative⟩
    · cases hcode

/-- What is decided of a list of codes. -/
lemma decisionAt_eq_some {codes : List Nat} (h : decisionAt transition k codes = some decision) :
    k < codes.length ∧ decision.alternative = k ∧
      decision.more = Decidable.decide (k + 1 < codes.length) := by
  obtain ⟨code, hcode, hdecode⟩ := Option.bind_eq_some_iff.1 h
  obtain ⟨action, -, rfl⟩ := Option.map_eq_some_iff.1 hdecode
  exact ⟨(List.getElem?_eq_some_iff.1 hcode).1, rfl, rfl⟩

/-- In validated tables, there is another alternative in front of each but the first. -/
lemma decide_of_lt (h : t.validate = .ok ())
    (hj : t.decide state element j = .ok (some decision)) (hlt : k < j) :
    ∃ earlier, t.decide state element k = .ok (some earlier) ∧ earlier.more = true := by
  obtain ⟨transition, start, hlookup, hstart, hle, hdecision⟩ := decide_eq_some hj
  have hlen := (decisionAt_eq_some hdecision).1
  have hk : k < (t.codesFrom start).length := Nat.lt_trans hlt hlen
  obtain ⟨action, haction⟩ :=
    Option.isSome_iff_exists.1 (decode_of_validate h hstart (List.getElem_mem hk))
  refine ⟨⟨transition, action, k, true⟩, ?_, rfl⟩
  have hmore : k + 1 < (t.codesFrom start).length := Nat.lt_of_le_of_lt hlt hlen
  rw [decide, hlookup]
  change t.alternative transition k = _
  rw [alternative_eq hstart hle, decisionAt, List.getElem?_eq_getElem hk, Option.bind_some, haction]
  simp [hmore]

end Grammar.Tables

end Rewind
