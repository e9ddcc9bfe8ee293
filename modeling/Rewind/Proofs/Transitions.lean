import Rewind.Proofs.Bounds

/-!
# What the packed keys of a state say

Finding the transition of a byte takes two searches, each of which halves what is left: one among
the single keys of the state, and one among the upper ends of its ranges.  The tables describe the
answer without any search: a single key has the transition of its own, a byte that lies in a range
the one of the range, and any other byte the last one.

The two searches have different invariants.  The one for a single key keeps the key within the
window.  The one for a range looks for the end of the ranges that lie below the byte, whether or not
there is a range behind it that holds the byte; only the comparison that comes after the search
tells a range from a gap.

Keys out of order lead to some transition of the state all the same.
-/

namespace Rewind.Scanner.Tables

/-! ## The keys of a state -/

/-- Where the keys of a state begin, how many there are, and which transition is its first. -/
structure KeyLayout where
  offset : Nat
  singles : Nat
  ranges : Nat
  base : Nat
  deriving DecidableEq, Repr

namespace KeyLayout

/-- The single key `i`. -/
def single (l : KeyLayout) (t : Tables) (i : Nat) : UInt8 :=
  t.keys.getD (l.offset + i) 0

/-- The lower end of range `j`. -/
def lower (l : KeyLayout) (t : Tables) (j : Nat) : UInt8 :=
  t.keys.getD (l.offset + l.singles + j * 2) 0

/-- The upper end of range `j`. -/
def upper (l : KeyLayout) (t : Tables) (j : Nat) : UInt8 :=
  t.keys.getD (l.offset + l.singles + (j * 2 + 1)) 0

/-- The byte is one of the single keys. -/
def IsSingle (l : KeyLayout) (t : Tables) (key : UInt8) : Prop :=
  ∃ i < l.singles, l.single t i = key

/-- The byte lies in range `j`. -/
def InRange (l : KeyLayout) (t : Tables) (key : UInt8) (j : Nat) : Prop :=
  j < l.ranges ∧ l.lower t j ≤ key ∧ key ≤ l.upper t j

/-- The layout is the one that the tables give the state, and all of its keys are there. -/
structure Of (l : KeyLayout) (t : Tables) (state : StateId) : Prop where
  offset : t.keyOffsets[state]? = some l.offset
  singles : t.singles[state]? = some l.singles
  ranges : t.ranges[state]? = some l.ranges
  base : t.transitions[state]? = some l.base
  within : l.offset + l.singles + l.ranges * 2 ≤ t.keys.size

/-- The single keys increase, and so do the ranges, none of which is empty or meets another one.  A
single key may well lie in a range. -/
structure Ordered (l : KeyLayout) (t : Tables) : Prop where
  singles : ∀ j < l.singles, ∀ i < j, l.single t i < l.single t j
  ends : ∀ j < l.ranges, l.lower t j ≤ l.upper t j
  apart : ∀ j < l.ranges, ∀ i < j, l.upper t i < l.lower t j

end KeyLayout

/-! ## Searching the single keys -/

/-- If the key is in the window and the window is in order, the search ends at the key. -/
lemma lastAtMost_eq {keys : Array UInt8} {key : UInt8} {base size i : Nat}
    (hsorted : ∀ b < base + size, ∀ a < b, keys.getD a 0 < keys.getD b 0)
    (hbase : base ≤ i) (hlt : i < base + size) (hkey : keys.getD i 0 = key) :
    lastAtMost keys key base size = i := by
  induction size using Nat.strongRecOn generalizing base with
  | ind size ih =>
    rw [lastAtMost]
    by_cases hsmall : size ≤ 1
    · rw [if_pos hsmall]
      omega
    · rw [if_neg hsmall]
      -- either way the half that is kept still holds the key
      by_cases hhalf : keys.getD (base + size / 2) 0 ≤ key
      · rw [if_pos hhalf]
        have hle : base + size / 2 ≤ i := by
          by_contra hbelow
          have hless := hsorted (base + size / 2) (by omega) i (by omega)
          rw [hkey] at hless
          exact UInt8.not_lt.2 hhalf hless
        apply ih (size - size / 2) (by omega) _ hle (by omega)
        intro b hb
        exact hsorted b (by omega)
      · rw [if_neg hhalf]
        have hbelow : i < base + size / 2 := by
          by_contra habove
          apply hhalf
          rcases Nat.eq_or_lt_of_le (Nat.le_of_not_lt habove) with heq | hless
          · rw [heq, hkey]
            exact UInt8.le_refl key
          · have := hsorted i hlt (base + size / 2) hless
            rw [hkey] at this
            exact UInt8.le_of_lt this
        apply ih (size - size / 2) (by omega) _ hbase (by omega)
        intro b hb
        exact hsorted b (by omega)

/-- Sorted keys are found where they are. -/
lemma indexOf?_eq_some {keys : Array UInt8} {key : UInt8} {i : Nat}
    (hsorted : ∀ b < keys.size, ∀ a < b, keys.getD a 0 < keys.getD b 0)
    (hlt : i < keys.size) (hkey : keys.getD i 0 = key) : indexOf? keys key = some i := by
  have hlast : lastAtMost keys key 0 keys.size = i := by
    apply lastAtMost_eq _ (Nat.zero_le i) (by omega) hkey
    intro b hb
    exact hsorted b (by omega)
  have hget : keys[i]? = some key := by
    rw [← hkey]
    simp [Array.getD_eq_getD_getElem?, hlt]
  unfold indexOf?
  rw [hlast]
  exact if_pos hget

/-- What is found among the keys is the key, in order or not. -/
lemma getD_of_indexOf? {keys : Array UInt8} {key : UInt8} {i : Nat}
    (h : indexOf? keys key = some i) : keys.getD i 0 = key := by
  unfold indexOf? at h
  dsimp only at h
  split at h
  · rename_i hget
    cases h
    simp [Array.getD_eq_getD_getElem?, hget]
  · cases h

/-! ## Searching the ranges -/

/-- The search ends where the ranges below the key do. -/
lemma firstReaching_eq {ends : Array UInt8} {key : UInt8} {low high j : Nat}
    (hlow : low ≤ j) (hhigh : j ≤ high)
    (hbelow : ∀ i < j, ends.getD (i * 2 + 1) 0 < key)
    (hfrom : ∀ i, j ≤ i → i < high → ¬ ends.getD (i * 2 + 1) 0 < key) :
    firstReaching ends key low high = j := by
  fun_induction firstReaching ends key low high with
  | case1 low high hlt middle hless ih =>
    have hmiddle : middle < j := by
      by_contra hreaches
      exact hfrom middle (by omega) (by omega) hless
    exact ih hmiddle hhigh hfrom
  | case2 low high hlt middle hreaches ih =>
    have hmiddle : j ≤ middle := by
      by_contra hless
      exact hreaches (hbelow middle (by omega))
    apply ih hlow hmiddle
    intro i hji hi
    exact hfrom i hji (by omega)
  | case3 low high hdone => omega

lemma firstReaching_le {ends : Array UInt8} {key : UInt8} {low high : Nat} (h : low ≤ high) :
    firstReaching ends key low high ≤ high := by
  fun_induction firstReaching ends key low high with
  | case1 low high hlt middle hless ih => exact ih (by omega)
  | case2 low high hlt middle hreaches ih =>
    have hmiddle := ih (by omega)
    omega
  | case3 low high hdone => exact h

/-- A range that the search ends at does not lie below the key, in order or not. -/
lemma firstReaching_reaches {ends : Array UInt8} {key : UInt8} {low high : Nat}
    (h : firstReaching ends key low high < high) :
    ¬ ends.getD (firstReaching ends key low high * 2 + 1) 0 < key := by
  fun_induction firstReaching ends key low high with
  | case1 low high hlt middle hless ih => exact ih h
  | case2 low high hlt middle hreaches ih =>
    by_cases hmiddle : firstReaching ends key low middle < middle
    · exact ih hmiddle
    · -- nothing in front of the middle reaches the key, so the search is back at the middle
      have heq : firstReaching ends key low middle = middle := by
        have hle : firstReaching ends key low middle ≤ middle := by
          exact firstReaching_le (by omega)
        omega
      rw [heq]
      exact hreaches
  | case3 low high hdone => omega

lemma rangeOf_of_mem {ends : Array UInt8} {ranges j : Nat} {key : UInt8} (hj : j < ranges)
    (hlower : ends.getD (j * 2) 0 ≤ key) (hupper : key ≤ ends.getD (j * 2 + 1) 0)
    (hends : ∀ i < ranges, ends.getD (i * 2) 0 ≤ ends.getD (i * 2 + 1) 0)
    (hapart : ∀ b < ranges, ∀ a < b, ends.getD (a * 2 + 1) 0 < ends.getD (b * 2) 0) :
    rangeOf ends ranges key = j := by
  have hfirst : firstReaching ends key 0 ranges = j := by
    apply firstReaching_eq (Nat.zero_le j) (Nat.le_of_lt hj)
    · intro i hi
      exact UInt8.lt_of_lt_of_le (hapart j hj i hi) hlower
    · intro i hji hi hless
      rcases Nat.eq_or_lt_of_le hji with rfl | hlt
      · exact UInt8.not_lt.2 hupper hless
      · have hbehind := UInt8.lt_of_le_of_lt hupper (hapart i hi j hlt)
        have hreach := UInt8.lt_of_lt_of_le hbehind (hends i hi)
        exact UInt8.lt_irrefl key (UInt8.lt_trans hreach hless)
  unfold rangeOf
  rw [hfirst]
  exact if_pos ⟨hj, hlower⟩

/-- A key that lies in no range is given to none, in order or not. -/
lemma rangeOf_of_gap {ends : Array UInt8} {ranges : Nat} {key : UInt8}
    (hgap : ∀ j < ranges, ends.getD (j * 2) 0 ≤ key → ¬ key ≤ ends.getD (j * 2 + 1) 0) :
    rangeOf ends ranges key = ranges := by
  unfold rangeOf
  apply if_neg
  rintro ⟨hlt, hlower⟩
  exact hgap _ hlt hlower (UInt8.not_lt.1 (firstReaching_reaches hlt))

/-! ## Transitions -/

/-- The part of a table that is cut out of it has the same entries. -/
lemma getD_of_stretch {table part : Array UInt8} {start count i : Nat}
    (h : stretch table start count = .ok part) (hi : i < count) :
    part.getD i 0 = table.getD (start + i) 0 := by
  unfold stretch at h
  by_cases hsize : start + count ≤ table.size
  · rw [if_pos hsize] at h
    cases h
    have hlt : i < min (start + count) table.size - start := by omega
    rw [Array.getD_eq_getD_getElem?, Array.getD_eq_getD_getElem?, Array.getElem?_extract,
      if_pos hlt]
  · rw [if_neg hsize] at h
    cases h

/-- The arrays hold the single keys of the state, and the ends of its ranges. -/
structure KeyLayout.Cut (l : KeyLayout) (t : Tables) (keys ends : Array UInt8) : Prop where
  size : keys.size = l.singles
  single : ∀ i < l.singles, keys.getD i 0 = l.single t i
  lower : ∀ j < l.ranges, ends.getD (j * 2) 0 = l.lower t j
  upper : ∀ j < l.ranges, ends.getD (j * 2 + 1) 0 = l.upper t j

/-- Keys that are in the table are cut out of it, and the two searches among them say which
transition it is. -/
lemma KeyLayout.Of.transition_eq {t : Tables} {state : StateId} {l : KeyLayout}
    (hl : l.Of t state) (key : UInt8) :
    ∃ keys ends, l.Cut t keys ends ∧ t.transition state key =
      .ok ((indexOf? keys key).elim (l.base + l.singles + rangeOf ends l.ranges key)
        (l.base + ·)) := by
  have hwithin := hl.within
  obtain ⟨keys, hkeys, hsize⟩ := @stretch_eq_ok _ t.keys l.offset l.singles (by omega)
  obtain ⟨ends, hends, -⟩ :=
    @stretch_eq_ok _ t.keys (l.offset + l.singles) (l.ranges * 2) (by omega)
  refine ⟨keys, ends, ⟨hsize, ?_, ?_, ?_⟩, ?_⟩
  · intro i hi
    exact getD_of_stretch hkeys hi
  · intro j hj
    exact getD_of_stretch hends (by omega)
  · intro j hj
    exact getD_of_stretch hends (by omega)
  · rw [Tables.transition, entry_eq_ok_iff.2 hl.offset, entry_eq_ok_iff.2 hl.singles,
      entry_eq_ok_iff.2 hl.ranges, entry_eq_ok_iff.2 hl.base]
    simp only [Except.ok_bind, hkeys]
    cases indexOf? keys key with
    | some i => rfl
    | none =>
      simp only [hends, Except.ok_bind]
      rfl

namespace KeyLayout.Cut

variable {l : KeyLayout} {t : Tables} {keys ends : Array UInt8} {key : UInt8}

lemma indexOf?_eq (h : l.Cut t keys ends) (hordered : l.Ordered t) {i : Nat}
    (hi : i < l.singles) (hkey : l.single t i = key) : indexOf? keys key = some i := by
  have hsize := h.size
  apply indexOf?_eq_some _ (by omega) (by rw [h.single i hi, hkey])
  intro b hb a hab
  rw [h.single a (by omega), h.single b (by omega)]
  exact hordered.singles b (by omega) a hab

lemma isSingle (h : l.Cut t keys ends) {i : Nat} (hindex : indexOf? keys key = some i) :
    i < l.singles ∧ l.IsSingle t key := by
  have hi : i < l.singles := h.size ▸ lt_of_indexOf? hindex
  refine ⟨hi, i, hi, ?_⟩
  rw [← h.single i hi, getD_of_indexOf? hindex]

lemma rangeOf_eq (h : l.Cut t keys ends) (hordered : l.Ordered t) {j : Nat}
    (hrange : l.InRange t key j) : rangeOf ends l.ranges key = j := by
  obtain ⟨hj, hle, hge⟩ := hrange
  apply rangeOf_of_mem hj
  · rwa [h.lower j hj]
  · rwa [h.upper j hj]
  · intro i hi
    rw [h.lower i hi, h.upper i hi]
    exact hordered.ends i hi
  · intro b hb a hab
    rw [h.upper a (by omega), h.lower b hb]
    exact hordered.apart b hb a hab

lemma rangeOf_eq_ranges (h : l.Cut t keys ends) (hgap : ∀ j, ¬ l.InRange t key j) :
    rangeOf ends l.ranges key = l.ranges := by
  apply rangeOf_of_gap
  intro j hj hle hge
  rw [h.lower j hj] at hle
  rw [h.upper j hj] at hge
  exact hgap j ⟨hj, hle, hge⟩

end KeyLayout.Cut

/-- A state with its keys in the table has a transition on every byte, one of its own whatever the
keys are.  If they are in order, it is the transition of the single key that the byte is, or else of
the range that the byte lies in, or else the last one. -/
theorem transition_of_layout {t : Tables} {state : StateId} {l : KeyLayout} (hl : l.Of t state)
    (key : UInt8) :
    ∃ n, t.transition state key = .ok n ∧ l.base ≤ n ∧ n ≤ l.base + l.singles + l.ranges ∧
      (l.Ordered t →
        (∀ i < l.singles, l.single t i = key → n = l.base + i) ∧
        (¬ l.IsSingle t key → ∀ j, l.InRange t key j → n = l.base + l.singles + j) ∧
        (¬ l.IsSingle t key → (∀ j, ¬ l.InRange t key j) →
          n = l.base + l.singles + l.ranges)) := by
  obtain ⟨keys, ends, hcut, htransition⟩ := hl.transition_eq key
  refine ⟨_, htransition, ?_⟩
  cases hindex : indexOf? keys key with
  | some i =>
    obtain ⟨hi, hsingle⟩ := hcut.isSingle hindex
    dsimp only [Option.elim]
    refine ⟨by omega, by omega, fun hordered => ⟨fun k hk hkey => ?_, ?_, ?_⟩⟩
    · have hk := hcut.indexOf?_eq hordered hk hkey
      rw [hindex] at hk
      rw [Option.some.inj hk]
    · exact fun hnot => absurd hsingle hnot
    · exact fun hnot => absurd hsingle hnot
  | none =>
    have hrange := rangeOf_le ends l.ranges key
    dsimp only [Option.elim]
    refine ⟨by omega, by omega, fun hordered => ⟨fun k hk hkey => ?_, ?_, ?_⟩⟩
    · have hk := hcut.indexOf?_eq hordered hk hkey
      rw [hindex] at hk
      cases hk
    · intro _ j hj
      rw [hcut.rangeOf_eq hordered hj]
    · intro _ hgap
      rw [hcut.rangeOf_eq_ranges hgap]

/-- A state with one single key, the digit five, and two ranges, the digits and the letters. -/
def alnum : Tables where
  lists := #[]
  keyOffsets := #[0]
  keys := #[53, 48, 57, 97, 122]
  singles := #[1]
  ranges := #[2]
  transitions := #[0]
  targets := #[0, 0, 0, 0]
  onTransition := #[0, 0, 0, 0]
  onArrival := #[0]
  onDeparture := #[0]
  onEnd := #[0]
  entries := #[0]
  actions := #[]
  states := 1
  start := 0
  firstFinal := 1
  dead := 1

/-- The layout of its keys. -/
def alnumLayout : KeyLayout := ⟨0, 1, 2, 0⟩

/-- The single key comes before the range it lies in, a digit beside it has the range, and a byte
between the ranges the last transition. -/
theorem transition_of_layout_alnum :
    alnumLayout.Of alnum 0 ∧ alnumLayout.Ordered alnum ∧ alnum.transition 0 53 = .ok 0 ∧
      alnum.transition 0 57 = .ok 1 ∧ alnum.transition 0 64 = .ok 3 := by
  have hlayout : alnumLayout.Of alnum 0 := ⟨rfl, rfl, rfl, rfl, by decide⟩
  have hordered : alnumLayout.Ordered alnum := ⟨by decide, by decide, by decide⟩
  refine ⟨hlayout, hordered, ?_, ?_, ?_⟩
  · obtain ⟨n, hn, -, -, h⟩ := transition_of_layout hlayout 53
    rw [hn, (h hordered).1 0 (by decide) rfl]
    rfl
  · obtain ⟨n, hn, -, -, h⟩ := transition_of_layout hlayout 57
    have hsingle : ¬ alnumLayout.IsSingle alnum 57 := by
      rw [KeyLayout.IsSingle]
      decide
    rw [hn, (h hordered).2.1 hsingle 0 ⟨by decide, by decide, by decide⟩]
    rfl
  · obtain ⟨n, hn, -, -, h⟩ := transition_of_layout hlayout 64
    have hsingle : ¬ alnumLayout.IsSingle alnum 64 := by
      rw [KeyLayout.IsSingle]
      decide
    have hgap : ∀ j < alnumLayout.ranges, ¬ alnumLayout.InRange alnum 64 j := by
      simp only [KeyLayout.InRange]
      decide
    rw [hn, (h hordered).2.2 hsingle fun j hj => hgap j hj.1 hj]
    rfl

end Rewind.Scanner.Tables
