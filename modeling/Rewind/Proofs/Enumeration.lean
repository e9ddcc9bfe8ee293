import Mathlib.Data.List.Range
import Rewind.Proofs.Ranges

/-!
# Trying all alternatives

The lists of all transitions are packed into one table, and no list knows its length.  An
alternative is looked for by its number, behind the place where its list begins, so one number too
many would find a code of the list behind.  That no number is one too many rests on two things: a
number is refused if a zero stands before it, and an alternative says whether it is the last one.

`alternativesFrom` tries the alternatives of a transition one after the other for as long as each
has another one behind it.  In validated tables it meets the codes of the transition's list, each of
them once and in their order (`alternatives_exact`).  A place it looks at belongs to another list
only if both lists end at the same zero, so that one of them is the tail of the other.
-/

namespace Rewind

namespace Grammar

/-- An action is asked for by either of the two lowest bits. -/
lemma Action.isSome_decode (code : Nat) :
    (Action.decode code).isSome = true ↔ code.testBit 0 = true ∨ code.testBit 1 = true := by
  unfold Action.decode
  cases code.testBit 0 <;> cases code.testBit 1 <;> simp

namespace Tables

variable {t : Tables} {transition start k code : Nat} {decision : Decision}

/-! ## Lists in a row -/

/-- The place behind the last code of the list that begins at an index. -/
def listEnd (t : Tables) (start : Nat) : Nat :=
  start + (t.codesFrom start).length

lemma codesFrom_of_zero (h : t.codes.getD start 0 = 0) : t.codesFrom start = [] := by
  unfold codesFrom
  by_cases hlt : start < t.codes.size
  · have hzero : t.codes[start] = 0 := by simpa [Array.getD, hlt] using h
    have hlength : start < t.codes.toList.length := by simpa using hlt
    rw [List.drop_eq_getElem_cons hlength]
    simp [hzero]
  · have hlength : t.codes.toList.length ≤ start := by simpa using hlt
    simp [List.drop_eq_nil_of_le hlength]

/-- A list goes on behind a code that is not zero. -/
lemma codesFrom_of_ne_zero (h : t.codes.getD start 0 ≠ 0) :
    t.codesFrom start = t.codes.getD start 0 :: t.codesFrom (start + 1) := by
  unfold codesFrom
  by_cases hlt : start < t.codes.size
  · have hlength : start < t.codes.toList.length := by simpa using hlt
    have hne : t.codes[start] ≠ 0 := by simpa [Array.getD, hlt] using h
    rw [List.drop_eq_getElem_cons hlength]
    simp [hne, Array.getD, hlt]
  · simp [Array.getD, hlt] at h

/-- The codes of a list are those of the table from its start on. -/
lemma getElem?_codesFrom (h : (t.codesFrom start)[k]? = some code) :
    t.codes[start + k]? = some code := by
  obtain ⟨behind, hbehind⟩ : t.codesFrom start <+: t.codes.toList.drop start :=
    List.takeWhile_prefix _
  have hlt := (List.getElem?_eq_some_iff.1 h).1
  have hdrop : (t.codes.toList.drop start)[k]? = some code := by
    rw [← hbehind, List.getElem?_append_left hlt, h]
  simpa using hdrop

/-- A list that begins inside another one ends where that one ends. -/
lemma listEnd_of_inside (h : k < (t.codesFrom start).length) :
    t.listEnd (start + k) = t.listEnd start := by
  induction k generalizing start with
  | zero => simp
  | succ k ih =>
    have hne : t.codes.getD start 0 ≠ 0 := by
      intro hzero
      simp [codesFrom_of_zero hzero] at h
    have hcons := codesFrom_of_ne_zero hne
    have hk : k < (t.codesFrom (start + 1)).length := by
      simpa [hcons] using h
    have hend := ih hk
    have hnext : t.listEnd (start + 1) = t.listEnd start := by
      simp only [listEnd, hcons, List.length_cons]
      omega
    rw [← hnext, ← hend]
    congr 1
    omega

/-- Lists with a place in common end together. -/
lemma listEnd_eq_of_common {other j : Nat} (hk : k < (t.codesFrom start).length)
    (hj : j < (t.codesFrom other).length) (hplace : start + k = other + j) :
    t.listEnd start = t.listEnd other := by
  rw [← listEnd_of_inside hk, ← listEnd_of_inside hj, hplace]

/-! ## One alternative after the other -/

/-- Only an entry of the table can be one more alternative. -/
lemma lt_size_of_more (h : t.alternative transition k = .ok (some decision))
    (hmore : decision.more = true) : k + 1 < t.codes.size := by
  rw [alternative, Except.bind_eq_ok] at h
  obtain ⟨start, -, hcode⟩ := h
  dsimp only at hcode
  split at hcode
  · split at hcode
    · cases hcode
    · obtain ⟨action, -, rfl⟩ := Option.map_eq_some_iff.1 (Except.ok.inj hcode)
      have hne : t.codes.getD (start + k + 1) 0 ≠ 0 := by simpa using hmore
      by_contra hle
      have hbeyond : ¬ start + k + 1 < t.codes.size := by omega
      simp [Array.getD, hbeyond] at hne
  · cases hcode

/-- The decisions of a transition from an alternative on, for as long as each has another one behind
it. -/
def alternativesFrom (t : Tables) (transition k : Nat) : Except Fault (List Decision) :=
  match _h : t.alternative transition k with
  | .error f => .error f
  | .ok none => .ok []
  | .ok (some decision) =>
    if _hmore : decision.more = true then do
      return decision :: (← alternativesFrom t transition (k + 1))
    else
      .ok [decision]
  termination_by t.codes.size - k
  decreasing_by
    have hlt := lt_size_of_more _h _hmore
    omega

lemma alternativesFrom_none (h : t.alternative transition k = .ok none) :
    t.alternativesFrom transition k = .ok [] := by
  rw [alternativesFrom]
  split <;> simp_all

lemma alternativesFrom_last (h : t.alternative transition k = .ok (some decision))
    (hmore : decision.more = false) : t.alternativesFrom transition k = .ok [decision] := by
  rw [alternativesFrom]
  split <;> simp_all

lemma alternativesFrom_more {decisions : List Decision}
    (h : t.alternative transition k = .ok (some decision)) (hmore : decision.more = true)
    (hrest : t.alternativesFrom transition (k + 1) = .ok decisions) :
    t.alternativesFrom transition k = .ok (decision :: decisions) := by
  rw [alternativesFrom]
  split <;> simp_all [bind, Except.bind, pure, Except.pure]

/-- The decisions are the alternatives of a list of codes from one of them on. -/
structure Enumerates (t : Tables) (transition : Nat) (codes : List Nat) (k : Nat)
    (decisions : List Decision) : Prop where
  alternatives : decisions.map Decision.alternative = List.range' k (codes.length - k)
  actions : decisions.map (fun d => some d.action) = (codes.drop k).map Action.decode
  found : ∀ d ∈ decisions, t.alternative transition d.alternative = .ok (some d)

/-- With every code of the list in order, trying goes on to the end of the list.  The induction is
on how many codes are left. -/
lemma alternativesFrom_enumerates (hstart : t.codeStarts[transition]? = some start)
    (hle : start ≤ t.codes.size)
    (hdecodes : ∀ code ∈ t.codesFrom start, (Action.decode code).isSome = true)
    (hk : k ≤ (t.codesFrom start).length) :
    ∃ decisions, t.alternativesFrom transition k = .ok decisions ∧
      t.Enumerates transition (t.codesFrom start) k decisions := by
  generalize hleft : (t.codesFrom start).length - k = left
  induction left generalizing k with
  | zero =>
    have hlength : (t.codesFrom start).length ≤ k := by omega
    refine ⟨[], ?_, ?_⟩
    · apply alternativesFrom_none
      rw [alternative_eq hstart hle, decisionAt, List.getElem?_eq_none hlength, Option.bind_none]
    · constructor
      · simp [hleft]
      · simp [List.drop_eq_nil_of_le hlength]
      · simp
  | succ left ih =>
    have hlt : k < (t.codesFrom start).length := by omega
    obtain ⟨action, haction⟩ := Option.isSome_iff_exists.1 (hdecodes _ (List.getElem_mem hlt))
    let decision : Decision :=
      ⟨transition, action, k, Decidable.decide (k + 1 < (t.codesFrom start).length)⟩
    have hfound : t.alternative transition k = .ok (some decision) := by
      rw [alternative_eq hstart hle, decisionAt, List.getElem?_eq_getElem hlt, Option.bind_some,
        haction, Option.map_some]
    obtain ⟨rest, hrest, henum⟩ := ih (k := k + 1) hlt (by omega)
    have hall : t.Enumerates transition (t.codesFrom start) k (decision :: rest) := by
      constructor
      · rw [List.map_cons, henum.alternatives, hleft, List.range'_succ]
        congr 2
        omega
      · rw [List.map_cons, henum.actions, List.drop_eq_getElem_cons hlt, List.map_cons, haction]
      · intro d hd
        rcases List.mem_cons.1 hd with rfl | hd
        · exact hfound
        · exact henum.found d hd
    by_cases hmore : k + 1 < (t.codesFrom start).length
    · exact ⟨_, alternativesFrom_more hfound (by simp [decision, hmore]) hrest, hall⟩
    · -- It was the last code, so nothing is left to be tried behind it.
      have hnil : rest = [] := by
        have hlength := congrArg List.length henum.alternatives
        simp only [List.length_map, List.length_range'] at hlength
        apply List.eq_nil_of_length_eq_zero
        omega
      rw [hnil] at hall
      exact ⟨_, alternativesFrom_last hfound (by simp [decision, hmore]), hall⟩

/-- The alternatives of a transition are the codes from the start of its list up to the next zero:
there is one for every code that asks for something, and each tells its code, its number, and
whether another code follows.  In validated tables, trying one after the other meets every code of
the list once and in order, and never looks at a place of a list that ends elsewhere. -/
theorem alternatives_exact (hstart : t.codeStarts[transition]? = some start)
    (hle : start ≤ t.codes.size) :
    (∀ k, ∃ found, t.alternative transition k = .ok found ∧
      (found.isSome = true ↔ ∃ code, (t.codesFrom start)[k]? = some code ∧
        (code.testBit 0 = true ∨ code.testBit 1 = true)) ∧
      ∀ d, found = some d → d.transition = transition ∧ d.alternative = k ∧
        (t.codesFrom start)[k]?.bind Action.decode = some d.action ∧
        (d.more = true ↔ k + 1 < (t.codesFrom start).length)) ∧
    (t.validate = .ok () → ∃ decisions, t.alternativesFrom transition 0 = .ok decisions ∧
      decisions.map Decision.alternative = List.range (t.codesFrom start).length ∧
      decisions.map (fun d => some d.action) = (t.codesFrom start).map Action.decode ∧
      ∀ d ∈ decisions,
        t.codes[start + d.alternative]?.bind Action.decode = some d.action ∧
        ∀ other otherStart : Nat, t.codeStarts[other]? = some otherStart →
          t.listEnd otherStart ≠ t.listEnd start →
          ∀ j < (t.codesFrom otherStart).length, start + d.alternative ≠ otherStart + j) := by
  constructor
  · intro k
    refine ⟨_, alternative_eq hstart hle k, ?_, ?_⟩
    · rw [decisionAt]
      cases hcode : (t.codesFrom start)[k]? with
      | none => simp
      | some code => simpa using Action.isSome_decode code
    · intro d hd
      obtain ⟨-, halternative, hmore⟩ := decisionAt_eq_some hd
      obtain ⟨code, hcode, hdecode⟩ := Option.bind_eq_some_iff.1 hd
      obtain ⟨action, haction, rfl⟩ := Option.map_eq_some_iff.1 hdecode
      simp [hcode, haction]
  · intro hvalid
    have hdecodes (code : Nat) (hcode : code ∈ t.codesFrom start) :=
      decode_of_validate hvalid hstart hcode
    obtain ⟨decisions, hall, henum⟩ :=
      alternativesFrom_enumerates hstart hle hdecodes (Nat.zero_le _)
    refine ⟨decisions, hall, ?_, by simpa using henum.actions, ?_⟩
    · rw [henum.alternatives, Nat.sub_zero, List.range_eq_range']
    · intro d hd
      have hfound := henum.found d hd
      rw [alternative_eq hstart hle] at hfound
      have hdecision := Except.ok.inj hfound
      have hlt := (decisionAt_eq_some hdecision).1
      obtain ⟨code, hcode, hdecode⟩ := Option.bind_eq_some_iff.1 hdecision
      obtain ⟨action, haction, hd'⟩ := Option.map_eq_some_iff.1 hdecode
      refine ⟨?_, ?_⟩
      · rw [getElem?_codesFrom hcode, Option.bind_some, haction, ← hd']
      · intro other otherStart _ hends j hj hplace
        exact hends (listEnd_eq_of_common hlt hj hplace).symm

/-- Tables of one state, with two transitions: the list of the first is one code long, and behind
its zero stands that of the second, which is two codes long. -/
def packed : Tables where
  transitions := #[0, -1, 1]
  owners := #[0, 0, 0]
  bounds := #[2, 4]
  offsets := #[0]
  targets := #[0, 0]
  codeStarts := #[0, 2]
  codes := #[1, 0, 2, 6, 0]
  commits := #[0, 0]
  regionStarts := #[0]
  regions := #[1, 0]
  elements := Array.replicate 5 ⟨"", false, false⟩
  productions := Array.replicate 2 ⟨0, 0, false⟩
  endActions := #[false, false]
  states := 1
  start := 0
  firstNonterminal := 0
  eof := 0

/-- Both codes of the second list are met, and the code in front of them is not. -/
theorem alternatives_exact_packed :
    packed.codeStarts[1]? = some 2 ∧ 2 ≤ packed.codes.size ∧ packed.validate = .ok () ∧
      ∃ decisions, packed.alternativesFrom 1 0 = .ok decisions ∧
        decisions.map Decision.alternative = [0, 1] ∧
        decisions.map (fun d => some d.action) = [some (.reduce 0), some (.reduce 1)] ∧
        ∀ d ∈ decisions, 2 + d.alternative ≠ 0 := by
  have hstart : packed.codeStarts[1]? = some 2 := by decide
  have hle : 2 ≤ packed.codes.size := by decide
  have hvalid : packed.validate = .ok () := by decide +kernel
  obtain ⟨decisions, hall, halternatives, hactions, hplaces⟩ :=
    (alternatives_exact hstart hle).2 hvalid
  refine ⟨hstart, hle, hvalid, decisions, hall, ?_, ?_, ?_⟩
  · rw [halternatives]
    decide
  · rw [hactions]
    decide
  · intro d hd
    exact (hplaces d hd).2 0 0 (by decide) (by decide) 0 (by decide)

end Tables

end Grammar

end Rewind
