import Rewind.Proofs.Alternatives

/-!
# Parser tables that fit together

Validation checks a dozen arrays one after the other, each by itself.  `Fits` says in one place what
comes of the checks.  Together they are enough for everything that is looked up in a state that
exists: no index is beyond its table, a transition leads to a state that exists, and an alternative
with another one behind it really has one.

The slots of a state are only checked if its lowest element is not above its highest one.  Nothing
is looked up in them otherwise.
-/

namespace Rewind

namespace Check

variable {P α : Type}

lemma length_eq_ok {table : P} {entries : Array α} {expected : Nat} :
    length table entries expected = .ok () ↔ expected ≤ entries.size := by
  rw [length]
  by_cases h : entries.size < expected
  · simp [h]
  · simp [h, Nat.le_of_not_lt h]

lemma below_eq_ok {n : Nat} {check : Nat → Check P Unit} :
    below n check = .ok () ↔ ∀ i < n, check i = .ok () := by
  rw [below, forM_eq_ok]
  simp

end Check

lemma Except.ok_bind {ε α β : Type} (a : α) (f : α → Except ε β) :
    (Except.ok a >>= f : Except ε β) = f a :=
  rfl

lemma exists_entry {α : Type} {table : Array α} {index : Nat} (h : index < table.size) :
    ∃ a, table[index]? = some a ∧ entry table index = .ok a :=
  ⟨table[index], by simp [h], entry_eq_ok_iff.2 (by simp [h])⟩

/-- A list that holds a zero ends in front of the first one. -/
lemma takeWhile_of_mem {l : List Nat} (h : 0 ∈ l) :
    ∃ count : Nat, l[count]? = some 0 ∧ 0 ∉ l.take count ∧ l.takeWhile (· ≠ 0) = l.take count := by
  induction l with
  | nil => cases h
  | cons a l ih =>
    by_cases ha : a = 0
    · exact ⟨0, by simp [ha], by simp, by simp [ha]⟩
    · have hrest : 0 ∈ l := by
        rcases List.mem_cons.1 h with h0 | hrest
        · exact absurd h0.symm ha
        · exact hrest
      obtain ⟨count, hzero, hbefore, htake⟩ := ih hrest
      refine ⟨count + 1, by simpa using hzero, ?_, ?_⟩
      · simpa [Ne.symm ha] using hbefore
      · rw [List.takeWhile_cons_of_pos (by simpa using ha), htake, List.take_succ_cons]

namespace Grammar.Tables

variable {t : Tables} {state transition k : Nat} {decision : Decision}

lemma checkEnds_eq_ok {part : Part} {entries : Array Nat} {start : Nat} :
    checkEnds part entries start = .ok () ↔ 0 ∈ entries.toList.drop start := by
  rw [checkEnds]
  by_cases h : 0 ∈ entries.toList.drop start
  · simp [h]
  · simp [h]

/-! ## What validation finds out -/

/-- The slots and the regions of a state are where they should be. -/
structure StateFits (t : Tables) (state : StateId) : Prop where
  slots : ∀ low high offset : Nat, t.bounds[state * 2]? = some low →
    t.bounds[state * 2 + 1]? = some high → t.offsets[state]? = some offset → low ≤ high →
    offset + (high - low) < t.transitions.size
  regions : ∀ start, t.regionStarts[state]? = some start →
    start < t.regions.size ∧ 0 ∈ t.regions.toList.drop start

/-- A code asks for something, and names no production that is not there. -/
def CodeFits (t : Tables) (code : Nat) : Prop :=
  ∃ action, Action.decode code = some action ∧
    ∀ production, action = .reduce production ∨ action = .shiftReduce production →
      production < t.productions.size

/-- No number in the tables leads beyond one of them. -/
structure Fits (t : Tables) : Prop where
  bounds : t.states * 2 ≤ t.bounds.size
  offsets : t.states ≤ t.offsets.size
  regionStarts : t.states ≤ t.regionStarts.size
  owners : t.transitions.size ≤ t.owners.size
  codeStarts : t.targets.size ≤ t.codeStarts.size
  commits : t.targets.size ≤ t.commits.size
  state : ∀ state < t.states, t.StateFits state
  transition : ∀ slot transition : Nat, t.transitions[slot]? = some (.ofNat transition) →
    transition < t.targets.size
  target : ∀ (transition : Nat) (target : StateId), t.targets[transition]? = some target →
    target < t.states
  codes : ∀ transition start : Nat, t.codeStarts[transition]? = some start →
    start < t.codes.size ∧ 0 ∈ t.codes.toList.drop start ∧
      ∀ code ∈ t.codesFrom start, t.CodeFits code
  region : ∀ region ∈ t.regions, region < t.endActions.size

lemma stateFits_of_check (h : t.checkState state = .ok ()) : t.StateFits state := by
  unfold checkState at h
  by_cases hle : t.bounds.getD (state * 2) 0 ≤ t.bounds.getD (state * 2 + 1) 0
  · simp only [hle, if_true, Except.bind_eq_ok] at h
    obtain ⟨⟨⟩, hslots, ⟨⟩, hregions, hends⟩ := h
    refine ⟨fun low high offset hlow hhigh hoffset _ => ?_, fun start hstart => ?_⟩
    · simpa [Array.getD_eq_getD_getElem?, hlow, hhigh, hoffset] using Check.range_eq_ok.1 hslots
    · have hlt := Check.range_eq_ok.1 hregions
      have hzero := checkEnds_eq_ok.1 hends
      simp only [Array.getD_eq_getD_getElem?, hstart, Option.getD_some] at hlt hzero
      exact ⟨hlt, hzero⟩
  · simp only [hle, if_false, Except.bind_eq_ok] at h
    obtain ⟨⟨⟩, hregions, hends⟩ := h
    refine ⟨fun low high offset hlow hhigh _ hbounds => ?_, fun start hstart => ?_⟩
    · rw [Array.getD_eq_getD_getElem?, Array.getD_eq_getD_getElem?, hlow, hhigh] at hle
      exact absurd hbounds hle
    · have hlt := Check.range_eq_ok.1 hregions
      have hzero := checkEnds_eq_ok.1 hends
      simp only [Array.getD_eq_getD_getElem?, hstart, Option.getD_some] at hlt hzero
      exact ⟨hlt, hzero⟩

lemma codeFits_of_check {index code : Nat} (h : t.checkCode index code = .ok ()) :
    t.CodeFits code := by
  rw [checkCode] at h
  cases hdecode : Action.decode code with
  | none =>
    rw [hdecode] at h
    cases h
  | some action =>
    refine ⟨action, hdecode, fun production haction => ?_⟩
    rw [hdecode] at h
    rcases haction with rfl | rfl
    · exact Check.range_eq_ok.1 h
    · exact Check.range_eq_ok.1 h

lemma codes_of_check {index start : Nat} (h : t.checkCodes index start = .ok ()) :
    start < t.codes.size ∧ 0 ∈ t.codes.toList.drop start ∧
      ∀ code ∈ t.codesFrom start, t.CodeFits code := by
  simp only [checkCodes, Except.bind_eq_ok] at h
  obtain ⟨⟨⟩, hlt, ⟨⟩, hends, hall⟩ := h
  refine ⟨Check.range_eq_ok.1 hlt, checkEnds_eq_ok.1 hends, fun code hcode => ?_⟩
  obtain ⟨i, hi⟩ := List.getElem?_of_mem hcode
  refine codeFits_of_check (Check.forM_eq_ok.1 hall (code, start + i) ?_)
  rw [List.mk_mem_zipIdx_iff_le_and_getElem?_sub]
  exact ⟨Nat.le_add_right _ _, by rwa [Nat.add_sub_cancel_left]⟩

theorem fits_of_validate (h : t.validate = .ok ()) : t.Fits := by
  simp only [validate, Except.bind_eq_ok] at h
  obtain ⟨⟨⟩, hbounds, ⟨⟩, hoffsets, ⟨⟩, hregionStarts, ⟨⟩, howners, ⟨⟩, hcodeStarts, ⟨⟩, hcommits,
    ⟨⟩, -, ⟨⟩, -, ⟨⟩, hstates, ⟨⟩, hslots, ⟨⟩, htargets, ⟨⟩, hcodes, ⟨⟩, hregions, -⟩ := h
  exact {
    bounds := Check.length_eq_ok.1 hbounds
    offsets := Check.length_eq_ok.1 hoffsets
    regionStarts := Check.length_eq_ok.1 hregionStarts
    owners := Check.length_eq_ok.1 howners
    codeStarts := Check.length_eq_ok.1 hcodeStarts
    commits := Check.length_eq_ok.1 hcommits
    state := fun state hstate => stateFits_of_check (Check.below_eq_ok.1 hstates state hstate)
    transition := fun slot transition hslot =>
      Check.range_eq_ok.1 (Check.each_eq_ok.1 hslots slot _ hslot)
    target := fun transition target htarget =>
      Check.range_eq_ok.1 (Check.each_eq_ok.1 htargets transition _ htarget)
    codes := fun transition start hstart =>
      codes_of_check (Check.each_eq_ok.1 hcodes transition _ hstart)
    region := fun region hregion => by
      obtain ⟨i, hi⟩ := Array.getElem?_of_mem hregion
      exact Check.range_eq_ok.1 (Check.each_eq_ok.1 hregions i region hi) }

/-! ## What is looked up in a state -/

/-- The transition of a state for an element can be looked up. -/
lemma Fits.lookup (h : t.Fits) (hstate : state < t.states) (element : Nat) :
    ∃ found, t.lookup state element = .ok found ∧
      ∀ transition, found = some transition → transition < t.targets.size := by
  have hbounds := h.bounds
  have hlt : state * 2 + 1 < t.bounds.size := by omega
  obtain ⟨low, hlow, hentryLow⟩ : ∃ low : Nat, t.bounds[state * 2]? = some low ∧ _ :=
    exists_entry (Nat.lt_of_succ_lt hlt)
  obtain ⟨high, hhigh, hentryHigh⟩ : ∃ high : Nat, t.bounds[state * 2 + 1]? = some high ∧ _ :=
    exists_entry hlt
  obtain ⟨offset, hoffset, hentryOffset⟩ := exists_entry (Nat.lt_of_lt_of_le hstate h.offsets)
  have hnone : ∀ transition, none = some transition → transition < t.targets.size := by
    intro transition h
    cases h
  rw [Tables.lookup, hentryLow, hentryHigh, hentryOffset]
  simp only [Except.ok_bind]
  by_cases hout : element < low ∨ high < element
  · rw [if_pos hout]
    exact ⟨none, rfl, hnone⟩
  · rw [if_neg hout]
    have hslot := (h.state state hstate).slots low high offset hlow hhigh hoffset (by omega)
    have hlt : offset + (element - low) < t.transitions.size := by omega
    obtain ⟨owner, -, howner⟩ := exists_entry (Nat.lt_of_lt_of_le hlt h.owners)
    obtain ⟨found, hfound, hentry⟩ := exists_entry hlt
    rw [howner]
    simp only [Except.ok_bind]
    by_cases hown : owner = state
    · rw [if_pos hown, hentry]
      cases found with
      | ofNat transition =>
        refine ⟨some transition, rfl, ?_⟩
        rintro _ ⟨⟩
        exact h.transition _ _ hfound
      | negSucc n => exact ⟨none, rfl, hnone⟩
    · rw [if_neg hown]
      exact ⟨none, rfl, hnone⟩

/-- What a decision tells to do can be done, and another alternative that it promises is there. -/
structure DecisionFits (t : Tables) (decision : Decision) : Prop where
  commits : ∃ commits, t.commits[decision.transition]? = some commits
  target : ∃ target, t.targets[decision.transition]? = some target ∧ target < t.states
  production : ∀ production,
    decision.action = .reduce production ∨ decision.action = .shiftReduce production →
      ∃ info, t.productions[production]? = some info

/-- Any alternative of a transition can be looked up. -/
lemma Fits.alternative (h : t.Fits) (ht : transition < t.targets.size) (k : Nat) :
    ∃ found, t.alternative transition k = .ok found ∧ ∀ decision, found = some decision →
      t.DecisionFits decision ∧ (decision.more = true →
        ∃ next, t.alternative transition (k + 1) = .ok (some next)) := by
  obtain ⟨start, hstart, -⟩ := exists_entry (Nat.lt_of_lt_of_le ht h.codeStarts)
  obtain ⟨hlt, -, hcodes⟩ := h.codes transition start hstart
  refine ⟨_, alternative_eq hstart (Nat.le_of_lt hlt) k, fun decision hdecision => ?_⟩
  obtain ⟨code, hcode, hdecode⟩ := Option.bind_eq_some_iff.1 hdecision
  obtain ⟨action, haction, rfl⟩ := Option.map_eq_some_iff.1 hdecode
  constructor
  · obtain ⟨target, htarget, -⟩ := exists_entry ht
    obtain ⟨commits, hcommits, -⟩ := exists_entry (Nat.lt_of_lt_of_le ht h.commits)
    obtain ⟨action', haction', hproduction⟩ := hcodes code (List.mem_of_getElem? hcode)
    obtain rfl : action = action' := Option.some.inj (haction.symm.trans haction')
    refine ⟨⟨commits, hcommits⟩, ⟨target, htarget, h.target _ _ htarget⟩,
      fun production hreduces => ?_⟩
    obtain ⟨info, hinfo, -⟩ := exists_entry (hproduction production hreduces)
    exact ⟨info, hinfo⟩
  · intro hmore
    have hnext : k + 1 < (t.codesFrom start).length := by simpa using hmore
    obtain ⟨action', haction', -⟩ := hcodes _ (List.getElem_mem hnext)
    rw [alternative_eq hstart (Nat.le_of_lt hlt), decisionAt, List.getElem?_eq_getElem hnext,
      Option.bind_some, haction']
    exact ⟨_, rfl⟩

/-- Whatever an element is, and whatever alternative is asked for, it can be decided what to do with
it in a state that exists. -/
lemma Fits.decide (h : t.Fits) (hstate : state < t.states) (element : Nat) (k : Nat) :
    ∃ found, t.decide state element k = .ok found ∧ ∀ decision, found = some decision →
      t.DecisionFits decision ∧ (decision.more = true →
        ∃ next, t.decide state element (k + 1) = .ok (some next)) := by
  obtain ⟨found, hlookup, hlt⟩ := h.lookup hstate element
  simp only [Tables.decide, hlookup]
  cases found with
  | none => exact ⟨none, rfl, fun _ h => by cases h⟩
  | some transition => exact h.alternative (hlt transition rfl) k

/-- The regions of a state that exists are a stretch of the table of regions that a zero ends. -/
lemma Fits.regionsOf (h : t.Fits) (hstate : state < t.states) :
    ∃ start count : Nat, t.regionStarts[state]? = some start ∧ t.regions[start + count]? = some 0 ∧
      t.regionsOf state = .ok ((t.regions.toList.drop start).take count) ∧
      ∀ region ∈ (t.regions.toList.drop start).take count,
        region ≠ 0 ∧ region < t.endActions.size := by
  obtain ⟨start, hstart, hentry⟩ := exists_entry (Nat.lt_of_lt_of_le hstate h.regionStarts)
  obtain ⟨hlt, hends⟩ := (h.state state hstate).regions start hstart
  obtain ⟨count, hzero, hbefore, htake⟩ := takeWhile_of_mem hends
  refine ⟨start, count, hstart, ?_, ?_, fun region hregion => ⟨?_, ?_⟩⟩
  · simpa using hzero
  · have hregions : t.regionsOf state =
        if start ≤ t.regions.size then .ok ((t.regions.toList.drop start).takeWhile (· ≠ 0))
        else .error (.outOfRange start t.regions.size) := by
      rw [Tables.regionsOf, hentry]
      rfl
    rw [hregions, if_pos (Nat.le_of_lt hlt), htake]
  · rintro rfl
    exact hbefore hregion
  · refine h.region region (Array.mem_toList_iff.1 ?_)
    exact List.mem_of_mem_drop (List.mem_of_mem_take hregion)

end Grammar.Tables

end Rewind
