import Rewind.Proofs.Bounds

/-!
# Scans that look up nothing that is not there

The searches for a key read a table at places that they compute, and what they find there may lead
anywhere: keys need not be sorted.  `transitionProbed` reads every place by `entry`, so that a read
beyond the table is a fault.  In tables that fit together it never is one, and the transition is the
same.

Whatever else a scan can look up in a state is there as well (`Serves`).  So a scan passes only
through states that exist and that serve it, and what is left to go wrong is told by the error
(`validated_scan_served`).
-/

namespace Rewind.Scanner

namespace Tables

/-! ## Searches that check every read -/

/-- `lastAtMost`, which fails where it would read beyond the keys. -/
def lastProbed (keys : Array UInt8) (key : UInt8) (base size : Nat) : Except Fault Nat :=
  if size ≤ 1 then .ok base
  else do
    let half ← entry keys (base + size / 2)
    lastProbed keys key (if half ≤ key then base + size / 2 else base) (size - size / 2)
  termination_by size

/-- `indexOf?`, which fails where it would read beyond the keys. -/
def indexProbed (keys : Array UInt8) (key : UInt8) : Except Fault (Option Nat) :=
  if keys.size = 0 then .ok none
  else do
    let i ← lastProbed keys key 0 keys.size
    let found ← entry keys i
    return if found = key then some i else none

/-- `firstReaching`, which fails where it would read beyond the ends. -/
def firstProbed (ends : Array UInt8) (key : UInt8) (low high : Nat) : Except Fault Nat :=
  if low < high then do
    let middle := (low + high) / 2
    let upper ← entry ends (middle * 2 + 1)
    if upper < key then firstProbed ends key (middle + 1) high
    else firstProbed ends key low middle
  else .ok low
  termination_by high - low

/-- `rangeOf`, which fails where it would read beyond the ends. -/
def rangeProbed (ends : Array UInt8) (ranges : Nat) (key : UInt8) : Except Fault Nat := do
  let i ← firstProbed ends key 0 ranges
  if i < ranges then
    let lower ← entry ends (i * 2)
    return if lower ≤ key then i else ranges
  else
    return ranges

/-- `transition`, which fails where it would read beyond a table. -/
def transitionProbed (t : Tables) (state : StateId) (key : UInt8) : Except Fault Nat := do
  let offset ← entry t.keyOffsets state
  let singles ← entry t.singles state
  let ranges ← entry t.ranges state
  let base ← entry t.transitions state
  match ← indexProbed (← stretch t.keys offset singles) key with
  | some i => return base + i
  | none =>
    let ends ← stretch t.keys (offset + singles) (ranges * 2)
    return base + singles + (← rangeProbed ends ranges key)

section Search

variable {keys ends : Array UInt8} {key : UInt8} {base size low high ranges : Nat}

/-- What is read at a place within a table. -/
lemma entry_getD {table : Array UInt8} {i : Nat} (h : i < table.size) :
    entry table i = .ok (table.getD i 0) :=
  entry_eq_ok_iff.2 (by simp [Array.getD_eq_getD_getElem?, h])

lemma lastProbed_eq (h : base + size ≤ keys.size) :
    lastProbed keys key base size = .ok (lastAtMost keys key base size) := by
  fun_induction lastAtMost keys key base size with
  | case1 base size hsize => rw [lastProbed, if_pos hsize]
  | case2 base size hsize ih =>
    rw [lastProbed, if_neg hsize, entry_getD (by omega), Except.ok_bind]
    exact ih (by split <;> omega)

/-- The last of some keys is one of them. -/
lemma lastAtMost_lt (h : base < keys.size) (hsize : base + size ≤ keys.size) :
    lastAtMost keys key base size < keys.size := by
  fun_induction lastAtMost keys key base size with
  | case1 base size _ => exact h
  | case2 base size hlarge ih => exact ih (by split <;> omega) (by split <;> omega)

lemma indexProbed_eq (keys : Array UInt8) (key : UInt8) :
    indexProbed keys key = .ok (indexOf? keys key) := by
  rw [indexProbed]
  by_cases hempty : keys.size = 0
  · obtain rfl : keys = #[] := Array.eq_empty_of_size_eq_zero hempty
    rw [if_pos hempty]
    rfl
  · have hlast : lastAtMost keys key 0 keys.size < keys.size :=
      lastAtMost_lt (Nat.pos_of_ne_zero hempty) (by omega)
    rw [if_neg hempty, lastProbed_eq (by omega), Except.ok_bind,
      entry_eq_ok_iff.2 (Array.getElem?_eq_getElem hlast), Except.ok_bind]
    simp only [indexOf?, Array.getElem?_eq_getElem hlast, Option.some.injEq]
    rfl

lemma firstProbed_eq (h : high * 2 ≤ ends.size) :
    firstProbed ends key low high = .ok (firstReaching ends key low high) := by
  fun_induction firstReaching ends key low high with
  | case1 low high hlt middle hbelow ih =>
    rw [firstProbed, if_pos hlt]
    dsimp only
    rw [entry_getD (by omega), Except.ok_bind, if_pos hbelow]
    exact ih h
  | case2 low high hlt middle hreaches ih =>
    rw [firstProbed, if_pos hlt]
    dsimp only
    rw [entry_getD (by omega), Except.ok_bind, if_neg hreaches]
    exact ih (by omega)
  | case3 low high hle => rw [firstProbed, if_neg hle]

lemma rangeProbed_eq (h : ranges * 2 ≤ ends.size) :
    rangeProbed ends ranges key = .ok (rangeOf ends ranges key) := by
  rw [rangeProbed, firstProbed_eq h, Except.ok_bind, rangeOf]
  by_cases hlt : firstReaching ends key 0 ranges < ranges
  · rw [if_pos hlt, entry_getD (by omega), Except.ok_bind]
    simp only [hlt, true_and]
    rfl
  · simp only [hlt, if_false, false_and]
    rfl

end Search

variable {t : Tables} {state : StateId}

/-- In tables that fit together, no read for a transition goes beyond its table. -/
lemma Fits.transitionProbed (h : t.Fits) (hstate : state < t.states) (key : UInt8) :
    t.transitionProbed state key = t.transition state key := by
  obtain ⟨offset, hoffset, hentryOffset⟩ := exists_entry (Nat.lt_of_lt_of_le hstate h.keyOffsets)
  obtain ⟨singles, hsingles, hentrySingles⟩ := exists_entry (Nat.lt_of_lt_of_le hstate h.singles)
  obtain ⟨ranges, hranges, hentryRanges⟩ := exists_entry (Nat.lt_of_lt_of_le hstate h.ranges)
  obtain ⟨base, hbase, hentryBase⟩ := exists_entry (Nat.lt_of_lt_of_le hstate h.transitions)
  have hkeys := (h.state state hstate).keys offset singles ranges hoffset hsingles hranges
  obtain ⟨keys, hstretch, -⟩ := @stretch_eq_ok _ t.keys offset singles (by omega)
  obtain ⟨ends, hends, hsize⟩ := @stretch_eq_ok _ t.keys (offset + singles) (ranges * 2) (by omega)
  rw [Tables.transitionProbed, Tables.transition, hentryOffset, hentrySingles, hentryRanges,
    hentryBase]
  simp only [Except.ok_bind, hstretch, indexProbed_eq]
  cases indexOf? keys key with
  | some i => rfl
  | none =>
    simp only [hends, Except.ok_bind]
    rw [rangeProbed_eq (Nat.le_of_eq hsize.symm)]
    rfl

/-! ## What a state has for a scan -/

/-- The actions of a state or a transition, whose list is at the offset that a table tells. -/
def actionsOf (t : Tables) (offsets : Array Nat) (index : Nat) : Except Fault (List Action) :=
  entry offsets index >>= t.actionsAt

/-- The actions of a state or a transition can be looked up, and the marks that they name exist. -/
def Lists (t : Tables) (offsets : Array Nat) (index : Nat) : Prop :=
  ∃ actions, t.actionsOf offsets index = .ok actions ∧ ∀ action ∈ actions, ActionFits action

/-- Whatever a scan may look up in a state is there. -/
structure Serves (t : Tables) (state : StateId) : Prop where
  departure : t.Lists t.onDeparture state
  ending : t.Lists t.onEnd state
  transition : ∀ key, ∃ transition target, t.transitionProbed state key = .ok transition ∧
    t.transition state key = .ok transition ∧ entry t.targets transition = .ok target ∧
    target < t.states ∧ t.Lists t.onTransition transition ∧ t.Lists t.onArrival target

lemma Fits.actionsAt (h : t.Fits) {offset : Nat} (hlist : t.ListFits offset) :
    ∃ actions, t.actionsAt offset = .ok actions ∧ ∀ action ∈ actions, ActionFits action := by
  obtain ⟨indices, hindices, hall⟩ := hlist
  rw [Tables.actionsAt, hindices, Except.ok_bind]
  clear hindices
  induction indices with
  | nil => exact ⟨[], rfl, nofun⟩
  | cons index rest ih =>
    obtain ⟨action, haction, hentry⟩ := exists_entry (hall index List.mem_cons_self)
    obtain ⟨actions, hactions, hfit⟩ := ih fun i hi => hall i (List.mem_cons_of_mem _ hi)
    refine ⟨action :: actions, ?_, ?_⟩
    · rw [List.mapM_cons, hentry, Except.ok_bind, hactions]
      rfl
    · rintro other (_ | ⟨_, hmem⟩)
      · exact h.action index action haction
      · exact hfit other hmem

lemma Fits.lists (h : t.Fits) {offsets : Array Nat} {index : Nat} (hindex : index < offsets.size)
    (hlists : ∀ offset, offsets[index]? = some offset → t.ListFits offset) :
    t.Lists offsets index := by
  obtain ⟨offset, hoffset, hentry⟩ := exists_entry hindex
  rw [Lists, actionsOf, hentry]
  exact h.actionsAt (hlists offset hoffset)

/-- In tables that fit together, a state that exists serves. -/
lemma Fits.serves (h : t.Fits) (hstate : state < t.states) : t.Serves state where
  departure := h.lists (Nat.lt_of_lt_of_le hstate h.departures) (h.onDeparture state)
  ending := h.lists (Nat.lt_of_lt_of_le hstate h.ends) (h.onEnd state)
  transition key := by
    obtain ⟨transition, htransition, hlt⟩ := h.transition hstate key
    obtain ⟨target, htarget, hentry⟩ := exists_entry hlt
    have hexists := h.target transition target htarget
    exact ⟨transition, target, (h.transitionProbed hstate key).trans htransition, htransition,
      hentry, hexists, h.lists (Nat.lt_of_lt_of_le hlt h.passages) (h.onTransition transition),
      h.lists (Nat.lt_of_lt_of_le hexists h.arrivals) (h.onArrival target)⟩

end Tables

/-- What a result leaves behind, be it a scan or a scanner. -/
def left {σ α : Type} : EStateM.Result (Failure Error) σ α → σ
  | .ok _ s => s
  | .error _ s => s

namespace Scan

variable {t : Tables} {s u : Scan}

/-- The scan passes through another one on its way. -/
inductive Passes (t : Tables) : Scan → Scan → Prop
  | here (s : Scan) : Passes t s s
  | step {s u v : Scan} : step t s = .ok none u → Passes t u v → Passes t s v

/-- A scan that begins in a state that exists stays in such states. -/
lemma Passes.state_lt (h : Passes t s u) (hfits : t.Fits) (hstate : s.state < t.states) :
    u.state < t.states := by
  induction h with
  | here => exact hstate
  | step hstep _ ih => exact ih ((Contained.step hfits hstate).1 none _ hstep)

lemma run_left_state (hfits : t.Fits) (hstate : s.state < t.states) :
    (left (run t s)).state < t.states := by
  obtain ⟨hok, herror⟩ := run_contained hfits hstate
  cases hrun : run t s with
  | ok outcome u => exact hok outcome u hrun
  | error x u => exact (herror x u hrun).2

end Scan

/-- If the tables are valid, a scan only comes through states that exist, and ends or fails in one.
Whatever it may look up in a state is there.  A scanner fails because the region has no entry, there
is no stream, a token was to end at a mark that was not set, or the source failed, and for no other
reason, whatever it has scanned before. -/
theorem validated_scan_served {t : Tables} (hvalid : t.validate = .ok ()) (region : RegionId)
    (s : Scanner) :
    (∀ state stream, t.entries[region]? = some state → s.stream = some stream →
      (∀ u, Scan.Passes t { stream, state } u → u.state < t.states ∧ t.Serves u.state) ∧
      (left (Scan.run t { stream, state })).state < t.states) ∧
    ∀ x u, run t region s = .error x u →
      x = .error (.badRegion region) ∧ t.entries.size ≤ region ∨
      x = .error .notAttached ∧ s.stream = none ∨
      (∃ slot, x = .error (.unsetMark slot)) ∨
      ∃ message, x = .error (.unreadable message) := by
  have hfits := Tables.fits_of_validate hvalid
  refine ⟨fun state stream hentry _ => ⟨fun u hu => ?_, ?_⟩, fun x u hrun => ?_⟩
  · have hstate := hu.state_lt hfits (hfits.entry region state hentry)
    exact ⟨hstate, hfits.serves hstate⟩
  · exact Scan.run_left_state hfits (hfits.entry region state hentry)
  · unfold run at hrun
    split at hrun
    · rename_i hentry
      cases hrun
      exact .inl ⟨rfl, Array.getElem?_eq_none_iff.1 hentry⟩
    · rename_i hstream
      cases hrun
      exact .inr (.inl ⟨rfl, hstream⟩)
    · rename_i state stream hentry _
      split at hrun
      · cases hrun
      · rename_i scan hscan
        cases hrun
        obtain ⟨hexcused, -⟩ :=
          (Scan.run_contained hfits (hfits.entry region state hentry)).2 _ _ hscan
        cases hexcused with
        | unsetMark slot => exact .inr (.inr (.inl ⟨slot, rfl⟩))
        | unreadable message => exact .inr (.inr (.inr ⟨message, rfl⟩))

/-- A scanner for a run of letters `a` in front of a digit, whose last letter is left to the digit.
Its single keys are in no order, and a digit alone asks for a mark that is not set. -/
def trailingScanner : Tables where
  lists := #[0, 1, 0, 1, 1]
  keyOffsets := #[0, 0, 0]
  keys := #[98, 97, 48, 57]
  singles := #[0, 2, 0]
  ranges := #[0, 1, 0]
  transitions := #[0, 1, 5]
  targets := #[0, 1, 1, 2, 0, 0]
  onTransition := #[0, 0, 1, 3, 0, 0]
  onArrival := #[0, 0, 0]
  onDeparture := #[0, 0, 0]
  onEnd := #[0, 0, 0]
  entries := #[1]
  actions := #[.mark 0, .acceptAtMark 0 7]
  states := 3
  start := 1
  firstFinal := 2
  dead := 0

/-- The scanner comes through its state between the letters, and fails at a digit alone. -/
theorem validated_scan_served_trailing :
    (∃ u, Scan.Passes trailingScanner { stream := Stream.ofBytes [97, 48], state := 1 } u ∧
      u.offset = 1 ∧ trailingScanner.Serves u.state) ∧
    ∃ x u, run trailingScanner 0 { stream := some (Stream.ofBytes [48]) } = .error x u ∧
      ((∃ slot, x = .error (.unsetMark slot)) ∨ ∃ message, x = .error (.unreadable message)) := by
  have hvalid : trailingScanner.validate = .ok () := by decide +kernel
  constructor
  · have hgoes : (match Scan.step trailingScanner
          { stream := Stream.ofBytes [97, 48], state := 1 } with
        | .ok none u => u.offset
        | _ => 0) = 1 := by decide +kernel
    split at hgoes
    · rename_i u hstep
      obtain ⟨hpasses, -⟩ := (validated_scan_served hvalid 0
        { stream := some (Stream.ofBytes [97, 48]) }).1 1 _ rfl rfl
      have hu := Scan.Passes.step hstep (.here u)
      exact ⟨u, hu, hgoes, (hpasses u hu).2⟩
    · cases hgoes
  · have hfails : (match run trailingScanner 0 { stream := some (Stream.ofBytes [48]) } with
        | .error _ _ => true
        | .ok _ _ => false) = true := by decide +kernel
    split at hfails
    · rename_i x u hrun
      refine ⟨x, u, hrun, ?_⟩
      rcases (validated_scan_served hvalid 0 _).2 x u hrun with ⟨-, hle⟩ | ⟨-, hnone⟩ | hexcused
      · exact absurd hle (by decide)
      · cases hnone
      · exact hexcused
    · cases hfails

end Rewind.Scanner
