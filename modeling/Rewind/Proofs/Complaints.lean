import Mathlib.Data.List.TakeWhile
import Rewind.Proofs.Enumeration
import Rewind.Proofs.Transitions

/-!
# What a failed check says

Whoever compiles tables and has them refused gets one error, which names a table, an index and a
value, or a table and its length.  It helps if that is what the table holds.  An `Inventory` says
what tables hold, and an error is `Accurate` if it says the same.

All errors about scanner tables are accurate, and so are those about parser tables but for two
(`validate_complains`).  For the offset of a state whose slots do not fit, the value in the error is
the last slot of the state; for a code with a production that does not exist, it is the production.
Neither is the entry that the error names (`validate_misleads`).
-/

namespace Rewind

/-- What tables hold: the number of entries in each, and the number at an index. -/
structure Inventory (P : Type) where
  size : P → Nat
  number? : P → Nat → Option Int

namespace Inventory

/-- The number at an index of a table. -/
def within (table : Array Nat) (index : Nat) : Option Int :=
  table[index]?.map Int.ofNat

/-- A number that stands by itself has index zero. -/
def alone (number index : Nat) : Option Int :=
  if index = 0 then some number else none

@[simp] lemma within_of_getElem? {table : Array Nat} {index value : Nat}
    (h : table[index]? = some value) : within table index = some (value : Int) := by
  simp [within, h]

end Inventory

/-- The error says what the tables hold: the named table is as short as it says, or has the value
at the index; and that is not enough, or too much. -/
def TableError.Accurate {P : Type} (inventory : Inventory P) : TableError P → Prop
  | .length table expected found => found = inventory.size table ∧ found < expected
  | .range table index value bound =>
    inventory.number? table index = some (value : Int) ∧ bound ≤ value

namespace Check

variable {P α β : Type} {Q : TableError P → Prop} {check : Check P α} {rest : α → Check P β}

/-- If the check fails, then with an error of this kind. -/
def FailsWith (Q : TableError P → Prop) (check : Check P α) : Prop :=
  ∀ e, check = .error e → Q e

lemma FailsWith.bind (h : FailsWith Q check) (hrest : ∀ a, check = .ok a → FailsWith Q (rest a)) :
    FailsWith Q (check >>= rest) := by
  intro e he
  cases hcheck : check with
  | error found =>
    rw [hcheck] at he
    obtain rfl := Except.error.inj he
    exact h found hcheck
  | ok a =>
    rw [hcheck, Except.ok_bind] at he
    exact hrest a hcheck e he

/-- One check after another. -/
lemma FailsWith.andThen {check' : Check P β} (h : FailsWith Q check) (h' : FailsWith Q check') :
    FailsWith Q (check >>= fun _ => check') :=
  h.bind fun _ _ => h'

lemma FailsWith.mono {Q' : TableError P → Prop} (h : FailsWith Q check)
    (hmono : ∀ e, Q e → Q' e) : FailsWith Q' check :=
  fun e he => hmono e (h e he)

lemma failsWith_ok (a : α) : FailsWith Q (.ok a : Check P α) := by
  intro e he
  cases he

lemma failsWith_length {table : P} {entries : Array α} {expected : Nat}
    (h : entries.size < expected → Q (.length table expected entries.size)) :
    FailsWith Q (length table entries expected) := by
  intro e he
  rw [length] at he
  split at he
  · obtain rfl := Except.error.inj he
    exact h ‹_›
  · cases he

lemma failsWith_range {table : P} {index value bound : Nat}
    (h : bound ≤ value → Q (.range table index value bound)) :
    FailsWith Q (range table index value bound) := by
  intro e he
  rw [range] at he
  split at he
  · obtain rfl := Except.error.inj he
    exact h ‹_›
  · cases he

lemma failsWith_forM {l : List α} {f : α → Check P Unit} (h : ∀ a ∈ l, FailsWith Q (f a)) :
    FailsWith Q (l.forM f) := by
  induction l with
  | nil => exact failsWith_ok ()
  | cons a l ih =>
    apply FailsWith.bind (h a List.mem_cons_self)
    intro _ _
    exact ih fun b hb => h b (List.mem_cons_of_mem _ hb)

lemma failsWith_below {n : Nat} {f : Nat → Check P Unit} (h : ∀ i < n, FailsWith Q (f i)) :
    FailsWith Q (below n f) :=
  failsWith_forM fun i hi => h i (List.mem_range.1 hi)

lemma failsWith_each {entries : Array α} {f : Nat → α → Check P Unit}
    (h : ∀ i a, entries[i]? = some a → FailsWith Q (f i a)) : FailsWith Q (each entries f) := by
  apply failsWith_forM
  rintro ⟨a, i⟩ hmem
  have hentry := List.mk_mem_zipIdx_iff_getElem?.1 hmem
  rw [Array.getElem?_toList] at hentry
  exact h i a hentry

/-! ### Checks of single tables -/

section Single

variable {inventory : Inventory P} {table : P}

lemma accurate_length {entries : Array α} {expected : Nat}
    (h : inventory.size table = entries.size) :
    FailsWith (TableError.Accurate inventory) (length table entries expected) :=
  failsWith_length fun hlt => ⟨h.symm, hlt⟩

lemma accurate_range {index value bound : Nat}
    (h : inventory.number? table index = some (value : Int)) :
    FailsWith (TableError.Accurate inventory) (range table index value bound) :=
  failsWith_range fun hle => ⟨h, hle⟩

/-- All entries of a table are below one bound. -/
lemma accurate_entries {entries : Array Nat} {bound : Nat}
    (h : ∀ i, inventory.number? table i = Inventory.within entries i) :
    FailsWith (TableError.Accurate inventory)
      (each entries fun i value => range table i value bound) :=
  failsWith_each fun i _ hvalue =>
    accurate_range ((h i).trans (Inventory.within_of_getElem? hvalue))

end Single

end Check

open Check

/-- What is found in place of an entry that is there is the entry. -/
lemma getElem?_of_getD {table : Array Nat} {index : Nat} (h : index < table.size) :
    table[index]? = some (table.getD index 0) := by
  simp [Array.getD, h]

/-! ## Scanner tables -/

namespace Scanner

lemma Part.name_injective : Function.Injective Part.name := by
  intro a b h
  cases a <;> cases b <;> first | rfl | simp [name] at h

/-- The mark that an action names. -/
def Action.slot? : Action → Option Nat
  | .mark slot => some slot
  | .acceptAtMark slot _ => some slot
  | .candidate _ => none
  | .accept _ => none

namespace Tables

/-- What the tables of a scanner hold.  The number of an action is the mark it names. -/
def inventory (t : Tables) : Inventory Part where
  size
    | .lists => t.lists.size
    | .keyOffsets => t.keyOffsets.size
    | .keys => t.keys.size
    | .singles => t.singles.size
    | .ranges => t.ranges.size
    | .transitions => t.transitions.size
    | .targets => t.targets.size
    | .onTransition => t.onTransition.size
    | .onArrival => t.onArrival.size
    | .onDeparture => t.onDeparture.size
    | .onEnd => t.onEnd.size
    | .entries => t.entries.size
    | .actions => t.actions.size
    | .start | .firstFinal | .dead => 1
  number?
    | .lists, i => Inventory.within t.lists i
    | .keyOffsets, i => Inventory.within t.keyOffsets i
    | .keys, i => t.keys[i]?.map fun key => (key.toNat : Int)
    | .singles, i => Inventory.within t.singles i
    | .ranges, i => Inventory.within t.ranges i
    | .transitions, i => Inventory.within t.transitions i
    | .targets, i => Inventory.within t.targets i
    | .onTransition, i => Inventory.within t.onTransition i
    | .onArrival, i => Inventory.within t.onArrival i
    | .onDeparture, i => Inventory.within t.onDeparture i
    | .onEnd, i => Inventory.within t.onEnd i
    | .entries, i => Inventory.within t.entries i
    | .actions, i => (t.actions[i]?.bind Action.slot?).map Int.ofNat
    | .start, i => Inventory.alone t.start i
    | .firstFinal, i => Inventory.alone t.firstFinal i
    | .dead, i => Inventory.alone t.dead i

variable {t : Tables}

/-- A list that does not fit is told by its offset, by its length, or by one of its indices. -/
lemma checkList_complains {part : Part} {index offset : Nat}
    (h : t.inventory.number? part index = some (offset : Int)) :
    FailsWith (TableError.Accurate t.inventory) (t.checkList part index offset) := by
  unfold checkList
  split
  · exact failsWith_ok ()
  · refine (accurate_range h).andThen ?_
    refine (accurate_length rfl).bind fun _ hlength => ?_
    have hsize := length_eq_ok.1 hlength
    apply failsWith_below
    intro i hi
    apply accurate_range
    exact Inventory.within_of_getElem? (getElem?_of_getD (by omega))

lemma checkAction_complains {index : Nat} {action : Action}
    (h : t.actions[index]? = some action) :
    FailsWith (TableError.Accurate t.inventory) (checkAction index action) := by
  cases action with
  | mark slot =>
    apply accurate_range
    simp [inventory, h, Action.slot?]
  | acceptAtMark slot token =>
    apply accurate_range
    simp [inventory, h, Action.slot?]
  | candidate token => exact failsWith_ok ()
  | accept token => exact failsWith_ok ()

/-- An error about scanner tables says what they hold. -/
lemma validate_accurate (t : Tables) :
    FailsWith (TableError.Accurate t.inventory) t.validate := by
  have hlists {part : Part} {entries : Array Nat}
      (hnumber : ∀ i, t.inventory.number? part i = Inventory.within entries i) :
      FailsWith (TableError.Accurate t.inventory) (Check.each entries (t.checkList part)) :=
    failsWith_each fun i offset hoffset =>
      checkList_complains ((hnumber i).trans (Inventory.within_of_getElem? hoffset))
  have hstates (state : StateId) :
      FailsWith (TableError.Accurate t.inventory) (t.checkState state) :=
    (accurate_length rfl).andThen (accurate_length rfl)
  unfold validate
  -- In the order of the checks: the lengths, the numbers by themselves, and then table by table.
  refine (accurate_length rfl).andThen <| (accurate_length rfl).andThen <|
    (accurate_length rfl).andThen <| (accurate_length rfl).andThen <|
    (accurate_length rfl).andThen <| (accurate_length rfl).andThen <|
    (accurate_length rfl).andThen <| (accurate_length rfl).andThen ?_
  refine (accurate_range rfl).andThen <| (accurate_range rfl).andThen <|
    (accurate_range rfl).andThen ?_
  refine (accurate_entries fun _ => rfl).andThen ?_
  refine (failsWith_below fun state _ => hstates state).andThen ?_
  refine (accurate_entries fun _ => rfl).andThen ?_
  refine (hlists fun _ => rfl).andThen <| (hlists fun _ => rfl).andThen <|
    (hlists fun _ => rfl).andThen <| (hlists fun _ => rfl).andThen ?_
  exact failsWith_each fun i action haction => checkAction_complains haction

end Tables

end Scanner

/-! ## Parser tables -/

namespace Grammar

lemma Part.name_injective : Function.Injective Part.name := by
  intro a b h
  cases a <;> cases b <;> first | rfl | simp [name] at h

/-- A production named in a code is a quarter of it. -/
lemma Action.lt_of_decode {code production : Nat}
    (h : decode code = some (.reduce production) ∨ decode code = some (.shiftReduce production)) :
    production < code := by
  have hquarter : code / 4 = production ∧ code.testBit 1 = true := by
    unfold decode at h
    split at h <;> simp_all
  obtain ⟨rfl, hbit⟩ := hquarter
  have htwo : 2 ≤ code := by
    simpa using Nat.ge_two_pow_of_testBit hbit
  omega

/-- A code that asks for nothing, but is not a zero, is at least four. -/
lemma Action.four_le_of_decode {code : Nat} (h : decode code = none) (hne : code ≠ 0) :
    4 ≤ code := by
  by_contra hlt
  have hsmall : code = 1 ∨ code = 2 ∨ code = 3 := by omega
  obtain rfl | rfl | rfl := hsmall <;> exact absurd h (by decide)

namespace Tables

/-- What the tables of a parser hold.  The number of a production is the nonterminal it produces. -/
def inventory (t : Tables) : Inventory Part where
  size
    | .transitions => t.transitions.size
    | .owners => t.owners.size
    | .bounds => t.bounds.size
    | .offsets => t.offsets.size
    | .targets => t.targets.size
    | .codeStarts => t.codeStarts.size
    | .codes => t.codes.size
    | .commits => t.commits.size
    | .regionStarts => t.regionStarts.size
    | .regions => t.regions.size
    | .productions => t.productions.size
    | .start | .eof => 1
  number?
    | .transitions, i => t.transitions[i]?
    | .owners, i => Inventory.within t.owners i
    | .bounds, i => Inventory.within t.bounds i
    | .offsets, i => Inventory.within t.offsets i
    | .targets, i => Inventory.within t.targets i
    | .codeStarts, i => Inventory.within t.codeStarts i
    | .codes, i => Inventory.within t.codes i
    | .commits, i => Inventory.within t.commits i
    | .regionStarts, i => Inventory.within t.regionStarts i
    | .regions, i => Inventory.within t.regions i
    | .productions, i => t.productions[i]?.map fun production => (production.lhs : Int)
    | .start, i => Inventory.alone t.start i
    | .eof, i => Inventory.alone t.eof i

/-- The errors with a value that is not the entry they name. -/
inductive Misleading (t : Tables) : TableError Part → Prop
  /-- The last slot of a state, in place of the first one. -/
  | lastSlot (state offset low high : Nat) (hoffset : t.offsets[state]? = some offset)
      (hlow : t.bounds[state * 2]? = some low) (hhigh : t.bounds[state * 2 + 1]? = some high)
      (hlt : low < high) (hout : t.transitions.size ≤ offset + (high - low)) :
      Misleading t (.range .offsets state (offset + (high - low)) t.transitions.size)
  /-- A production, in place of a code with it. -/
  | production (index code production : Nat) (hcode : t.codes[index]? = some code)
      (hdecode : Action.decode code = some (.reduce production) ∨
        Action.decode code = some (.shiftReduce production))
      (hout : t.productions.size ≤ production) :
      Misleading t (.range .codes index production t.productions.size)

/-- The error says what the tables hold, or has one of the two other values. -/
def Explains (t : Tables) (e : TableError Part) : Prop :=
  e.Accurate t.inventory ∨ t.Misleading e

variable {t : Tables} {e : TableError Part}

lemma Misleading.not_accurate (h : t.Misleading e) : ¬ e.Accurate t.inventory := by
  cases h with
  | lastSlot state offset low high hoffset _ _ hlt _ =>
    intro haccurate
    have hvalue := haccurate.1
    simp only [inventory, Inventory.within_of_getElem? hoffset, Option.some.injEq] at hvalue
    omega
  | production index code production hcode hdecode _ =>
    intro haccurate
    have hvalue := haccurate.1
    have hlt := Action.lt_of_decode hdecode
    simp only [inventory, Inventory.within_of_getElem? hcode, Option.some.injEq] at hvalue
    omega

lemma explains_of_accurate {check : Check Part Unit}
    (h : FailsWith (TableError.Accurate t.inventory) check) : FailsWith t.Explains check :=
  h.mono fun _ => .inl

lemma accurate_ends {part : Part} {entries : Array Nat} {start : Nat}
    (h : t.inventory.size part = entries.size) :
    FailsWith (TableError.Accurate t.inventory) (checkEnds part entries start) := by
  intro e he
  unfold checkEnds at he
  split at he
  · cases he
  · obtain rfl := Except.error.inj he
    exact ⟨h.symm, Nat.lt_succ_self _⟩

/-- The value told for the offset of a state is that of its last slot. -/
lemma explains_state {state : Nat} (hstate : state < t.states)
    (hbounds : t.states * 2 ≤ t.bounds.size) (hoffsets : t.states ≤ t.offsets.size)
    (hregions : t.states ≤ t.regionStarts.size) : FailsWith t.Explains (t.checkState state) := by
  have hoffset : t.offsets[state]? = some (t.offsets.getD state 0) :=
    getElem?_of_getD (by omega)
  have hlow : t.bounds[state * 2]? = some (t.bounds.getD (state * 2) 0) :=
    getElem?_of_getD (by omega)
  have hhigh : t.bounds[state * 2 + 1]? = some (t.bounds.getD (state * 2 + 1) 0) :=
    getElem?_of_getD (by omega)
  have hstart : t.inventory.number? .regionStarts state =
      some (t.regionStarts.getD state 0 : Int) :=
    Inventory.within_of_getElem? (getElem?_of_getD (by omega))
  have hlast (hle : t.bounds.getD (state * 2) 0 ≤ t.bounds.getD (state * 2 + 1) 0) :
      FailsWith t.Explains (Check.range .offsets state
        (t.offsets.getD state 0 + (t.bounds.getD (state * 2 + 1) 0 - t.bounds.getD (state * 2) 0))
        t.transitions.size) := by
    apply failsWith_range
    intro hout
    rcases Nat.lt_or_eq_of_le hle with hlt | heq
    · exact .inr (.lastSlot _ _ _ _ hoffset hlow hhigh hlt hout)
    · -- A state for one element has one slot, which is the last one too.
      left
      rw [← heq, Nat.sub_self, Nat.add_zero] at hout ⊢
      exact ⟨Inventory.within_of_getElem? hoffset, hout⟩
  have hrest : FailsWith t.Explains (do
      Check.range .regionStarts state (t.regionStarts.getD state 0) t.regions.size
      checkEnds .regions t.regions (t.regionStarts.getD state 0)) :=
    explains_of_accurate ((accurate_range hstart).andThen (accurate_ends rfl))
  unfold checkState
  dsimp only
  split
  · exact (hlast ‹_›).andThen hrest
  · exact hrest

lemma accurate_slot {index : Nat} {slot : Int} (h : t.transitions[index]? = some slot) :
    FailsWith (TableError.Accurate t.inventory) (t.checkSlot index slot) := by
  cases slot with
  | ofNat transition => exact accurate_range h
  | negSucc _ => exact failsWith_ok ()

/-- The value told for a code is the code if it asks for nothing, and else its production. -/
lemma explains_code {index code : Nat} (h : t.codes[index]? = some code) (hne : code ≠ 0) :
    FailsWith t.Explains (t.checkCode index code) := by
  unfold checkCode
  split
  next hdecode =>
    intro e he
    obtain rfl := Except.error.inj he
    exact .inl ⟨Inventory.within_of_getElem? h, Action.four_le_of_decode hdecode hne⟩
  next => exact failsWith_ok ()
  next hdecode =>
    exact failsWith_range fun hout => .inr (.production _ _ _ h (.inl hdecode) hout)
  next hdecode =>
    exact failsWith_range fun hout => .inr (.production _ _ _ h (.inr hdecode) hout)

lemma explains_codes {index start : Nat} (h : t.codeStarts[index]? = some start) :
    FailsWith t.Explains (t.checkCodes index start) := by
  have hstart : t.inventory.number? .codeStarts index = some (start : Int) :=
    Inventory.within_of_getElem? h
  unfold checkCodes
  refine (explains_of_accurate (accurate_range hstart)).andThen ?_
  refine (explains_of_accurate (accurate_ends rfl)).andThen ?_
  apply failsWith_forM
  rintro ⟨code, i⟩ hmem
  obtain ⟨hle, hcode⟩ := List.mk_mem_zipIdx_iff_le_and_getElem?_sub.1 hmem
  have hentry : t.codes[start + (i - start)]? = some code := getElem?_codesFrom hcode
  rw [Nat.add_sub_cancel' hle] at hentry
  have hne : code ≠ 0 := by simpa using List.mem_takeWhile_imp (List.mem_of_getElem? hcode)
  exact explains_code hentry hne

/-- An error about parser tables says what they hold, or has one of the two other values. -/
lemma validate_explains (t : Tables) : FailsWith t.Explains t.validate := by
  have hlength {part : Part} {α : Type} {entries : Array α} {expected : Nat}
      (hsize : t.inventory.size part = entries.size) :
      FailsWith t.Explains (Check.length part entries expected) :=
    explains_of_accurate (accurate_length hsize)
  unfold validate
  -- What is looked up for a state is there, since the first three lengths were enough.
  refine (hlength rfl).bind fun _ hbounds => ?_
  refine (hlength rfl).bind fun _ hoffsets => ?_
  refine (hlength rfl).bind fun _ hregions => ?_
  refine (hlength rfl).andThen <| (hlength rfl).andThen <| (hlength rfl).andThen ?_
  refine (explains_of_accurate (accurate_range rfl)).andThen ?_
  refine (explains_of_accurate (accurate_range rfl)).andThen ?_
  refine (failsWith_below fun state hstate => explains_state hstate
    (length_eq_ok.1 hbounds) (length_eq_ok.1 hoffsets) (length_eq_ok.1 hregions)).andThen ?_
  refine (explains_of_accurate (failsWith_each fun i slot hslot => accurate_slot hslot)).andThen ?_
  refine (explains_of_accurate (accurate_entries fun _ => rfl)).andThen ?_
  refine (failsWith_each fun i start hstart => explains_codes hstart).andThen ?_
  -- The last two tables are told as they are.
  apply explains_of_accurate
  refine (accurate_entries fun _ => rfl).andThen ?_
  apply failsWith_each
  intro i production hproduction
  apply accurate_range
  simp [inventory, hproduction]

end Tables

end Grammar

/-! ## All tables -/

/-- The name in an error tells the table.  An error about scanner tables says what the named table
holds, and that this is too little or too much.  So does an error about parser tables, unless its
value is the last slot of a state with several, or the production that a code names. -/
theorem validate_complains (scanner : Scanner.Tables) (grammar : Grammar.Tables) :
    (Function.Injective Scanner.Part.name ∧ ∀ e, scanner.validate = .error e →
      e.Accurate scanner.inventory) ∧
    Function.Injective Grammar.Part.name ∧ ∀ e, grammar.validate = .error e →
      (e.Accurate grammar.inventory ↔ ¬ grammar.Misleading e) := by
  refine ⟨⟨Scanner.Part.name_injective, scanner.validate_accurate⟩,
    Grammar.Part.name_injective, fun e he => ⟨fun haccurate hmisleading => ?_, fun hfair => ?_⟩⟩
  · exact hmisleading.not_accurate haccurate
  · exact (grammar.validate_explains e he).resolve_right hfair

/-- An action with a mark beyond the last one is told by the mark, and a transition to a state that
does not exist by the state. -/
theorem validate_complains_targets :
    { Scanner.Tables.alnum with dead := 0, actions := #[.mark 40] }.validate =
      .error (.range .actions 0 40 32) ∧
    { Scanner.Tables.alnum with dead := 0, actions := #[.mark 40] }.inventory.number? .actions 0 =
      some 40 ∧
    { Grammar.Tables.packed with targets := #[0, 7] }.validate = .error (.range .targets 1 7 1) ∧
    { Grammar.Tables.packed with targets := #[0, 7] }.inventory.number? .targets 1 = some 7 := by
  have hmark : { Scanner.Tables.alnum with dead := 0, actions := #[.mark 40] }.validate =
      .error (.range .actions 0 40 32) := by decide +kernel
  have htarget : { Grammar.Tables.packed with targets := #[0, 7] }.validate =
      .error (.range .targets 1 7 1) := by decide +kernel
  have hfair : ¬ { Grammar.Tables.packed with targets := #[0, 7] }.Misleading
      (.range .targets 1 7 1) := nofun
  obtain ⟨⟨-, hscanner⟩, -, hgrammar⟩ := validate_complains
    { Scanner.Tables.alnum with dead := 0, actions := #[.mark 40] }
    { Grammar.Tables.packed with targets := #[0, 7] }
  exact ⟨hmark, (hscanner _ hmark).1, htarget, ((hgrammar _ htarget).2 hfair).1⟩

/-- Two errors that do not say what the tables hold: the offset of the state is 5, and the code is
38. -/
theorem validate_misleads :
    { Grammar.Tables.packed with offsets := #[5] }.validate = .error (.range .offsets 0 7 3) ∧
    ¬ (TableError.range .offsets 0 7 3).Accurate
      { Grammar.Tables.packed with offsets := #[5] }.inventory ∧
    { Grammar.Tables.packed with codes := #[1, 0, 2, 38, 0] }.validate =
      .error (.range .codes 3 9 2) ∧
    ¬ (TableError.range .codes 3 9 2).Accurate
      { Grammar.Tables.packed with codes := #[1, 0, 2, 38, 0] }.inventory := by
  refine ⟨by decide +kernel, ?_, by decide +kernel, ?_⟩
  · exact (Grammar.Tables.Misleading.lastSlot 0 5 2 4 (by decide) (by decide) (by decide)
      (by decide) (by decide)).not_accurate
  · exact (Grammar.Tables.Misleading.production 3 38 9 (by decide) (by decide)
      (by decide)).not_accurate

end Rewind
