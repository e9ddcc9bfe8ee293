import Mathlib.Data.List.Nodup
import Mathlib.Data.List.Perm.Subperm
import Mathlib.Logic.Function.Basic
import Rewind.Forest

/-!
# Pools as finite maps

What a pool holds is told by `Pool.get?` alone.  Storing, allocating and releasing each change it at
one slot and nowhere else, which the lemmas here state as `Function.update`.  Allocation depends on
the released slots being what their name says; a pool of which that is true is `Sound`.
-/

namespace Rewind

namespace Pool

variable {α : Type} {p q : Pool α} {id : SlotId} {a b : α}

/-- The released slots are distinct, were opened, and hold nothing. -/
structure Sound (p : Pool α) : Prop where
  nodup : p.released.Nodup
  vacant : ∀ id ∈ p.released, id < p.slots.size ∧ p.get? id = none

lemma sound_empty (blockLength blockLimit : Nat) :
    (empty blockLength blockLimit : Pool α).Sound :=
  ⟨List.nodup_nil, by simp [empty]⟩

/-- Two pools opened the same slots and released the same ones. -/
structure SameSlots (p q : Pool α) : Prop where
  blockLength : q.blockLength = p.blockLength
  blockLimit : q.blockLimit = p.blockLimit
  size : q.slots.size = p.slots.size
  released : q.released = p.released

lemma SameSlots.refl (p : Pool α) : SameSlots p p :=
  ⟨rfl, rfl, rfl, rfl⟩

lemma SameSlots.trans {p' : Pool α} (h : SameSlots p q) (h' : SameSlots q p') :
    SameSlots p p' :=
  ⟨h'.blockLength.trans h.blockLength, h'.blockLimit.trans h.blockLimit, h'.size.trans h.size,
    h'.released.trans h.released⟩

/-! ## Storing -/

lemma get?_put (h : p.get? id = some b) :
    (p.put id a).get? = Function.update p.get? id (some a) := by
  have hlt := lt_size_of_get? h
  funext j
  by_cases hj : j = id
  · subst hj
    simp [get?, put, hlt]
  · simp [get?, put, hj, Ne.symm hj, Array.getElem?_setIfInBounds_ne]

lemma Sound.put (hp : p.Sound) (h : p.get? id = some b) : (p.put id a).Sound := by
  refine ⟨hp.nodup, fun j hj => ?_⟩
  obtain ⟨hlt, hnone⟩ := hp.vacant j hj
  have hne : j ≠ id := by
    rintro rfl
    simp [h] at hnone
  refine ⟨by simpa [Pool.put] using hlt, ?_⟩
  rw [get?_put h, Function.update_of_ne hne]
  exact hnone

@[simp] lemma size_put : (p.put id a).slots.size = p.slots.size := by
  simp [put]

lemma sameSlots_put (p : Pool α) (id : SlotId) (a : α) : SameSlots p (p.put id a) :=
  ⟨rfl, rfl, size_put, rfl⟩

lemma get?_put_self (h : p.get? id = some b) : (p.put id a).get? id = some a := by
  rw [get?_put h, Function.update_self]

lemma get?_put_of_ne {j : SlotId} (hj : j ≠ id) : (p.put id a).get? j = p.get? j := by
  simp [get?, put, Ne.symm hj, Array.getElem?_setIfInBounds_ne]

@[simp] lemma put_put : (p.put id a).put id b = p.put id b := by
  simp [put]

/-! ## Releasing -/

lemma get?_vacate : (p.vacate id).get? = Function.update p.get? id none := by
  funext j
  by_cases hj : j = id
  · subst hj
    by_cases hlt : j < p.slots.size
    · simp [get?, vacate, hlt]
    · simp [get?, vacate, hlt]
  · simp [get?, vacate, hj, Ne.symm hj, Array.getElem?_setIfInBounds_ne]

lemma sameSlots_vacate (p : Pool α) (id : SlotId) :
    SameSlots { p with released := id :: p.released } (p.vacate id) :=
  ⟨rfl, rfl, Array.size_setIfInBounds, rfl⟩

lemma get?_vacate_self : (p.vacate id).get? id = none := by
  rw [get?_vacate, Function.update_self]

lemma get?_vacate_of_ne {j : SlotId} (hj : j ≠ id) : (p.vacate id).get? j = p.get? j := by
  rw [get?_vacate, Function.update_of_ne hj]

lemma Sound.vacate (hp : p.Sound) (h : p.get? id = some a) : (p.vacate id).Sound := by
  have hnot : id ∉ p.released := fun hmem => by
    have hnone := (hp.vacant id hmem).2
    simp [h] at hnone
  refine ⟨List.nodup_cons.2 ⟨hnot, hp.nodup⟩, fun j hj => ?_⟩
  rw [get?_vacate]
  rcases List.mem_cons.1 hj with rfl | hj
  · exact ⟨by simpa [Pool.vacate] using lt_size_of_get? h, by simp⟩
  · obtain ⟨hlt, hnone⟩ := hp.vacant j hj
    refine ⟨by simpa [Pool.vacate] using hlt, ?_⟩
    by_cases hji : j = id
    · simp [hji]
    · rw [Function.update_of_ne hji]
      exact hnone

/-- Releases slots one after the other. -/
def vacateAll (p : Pool α) (ids : List SlotId) : Pool α :=
  ids.foldl vacate p

lemma get?_vacateAll (p : Pool α) (ids : List SlotId) (j : SlotId) :
    (p.vacateAll ids).get? j = if j ∈ ids then none else p.get? j := by
  induction ids generalizing p with
  | nil => simp [vacateAll]
  | cons id ids ih =>
    have hrest := ih (p.vacate id)
    rw [get?_vacate] at hrest
    rw [vacateAll, List.foldl_cons, ← vacateAll, hrest]
    by_cases hj : j = id
    · simp [hj]
    · simp [hj]

/-- Slots wait to be used again, the last one released first. -/
lemma released_vacateAll (p : Pool α) (ids : List SlotId) :
    (p.vacateAll ids).released = ids.reverse ++ p.released := by
  induction ids generalizing p with
  | nil => simp [vacateAll]
  | cons id ids ih =>
    rw [vacateAll, List.foldl_cons, ← vacateAll, ih]
    simp [vacate]

/-- Distinct slots are still live when their turn comes. -/
lemma isSome_vacate {ids : List SlotId} (hid : id ∉ ids) (hlive : ∀ j ∈ ids, (p.get? j).isSome) :
    ∀ j ∈ ids, ((p.vacate id).get? j).isSome := by
  intro j hj
  have hne : j ≠ id := by
    rintro rfl
    exact hid hj
  rw [get?_vacate_of_ne hne]
  exact hlive j hj

lemma Sound.vacateAll {ids : List SlotId} (hp : p.Sound) (hnodup : ids.Nodup)
    (hlive : ∀ id ∈ ids, (p.get? id).isSome) : (p.vacateAll ids).Sound := by
  induction ids generalizing p with
  | nil => exact hp
  | cons id ids ih =>
    obtain ⟨hid, hnodup⟩ := List.nodup_cons.1 hnodup
    obtain ⟨a, ha⟩ := Option.isSome_iff_exists.1 (hlive id List.mem_cons_self)
    apply ih (hp.vacate ha) hnodup
    exact isSome_vacate hid fun j hj => hlive j (List.mem_cons_of_mem _ hj)

/-- Every slot released is one live slot less. -/
lemma live_vacateAll {ids : List SlotId} (hnodup : ids.Nodup)
    (hlive : ∀ id ∈ ids, (p.get? id).isSome) : (p.vacateAll ids).live + ids.length = p.live := by
  induction ids generalizing p with
  | nil => simp [vacateAll]
  | cons id ids ih =>
    obtain ⟨hid, hnodup⟩ := List.nodup_cons.1 hnodup
    obtain ⟨a, ha⟩ := Option.isSome_iff_exists.1 (hlive id List.mem_cons_self)
    have hrest := ih hnodup (isSome_vacate hid fun j hj => hlive j (List.mem_cons_of_mem _ hj))
    have hfirst := live_vacate ha
    rw [vacateAll, List.foldl_cons, ← vacateAll, List.length_cons]
    omega

/-! ## Allocating -/

lemma alloc_eq_ok (h : p.alloc a = (.ok id, q)) : p.place a = (id, q) := by
  unfold alloc at h
  split at h
  · cases h
  · cases h
    rfl

/-- A value is placed in a slot that held none. -/
lemma get?_of_place (hp : p.Sound) (h : p.place a = (id, q)) :
    p.get? id = none ∧ q.get? = Function.update p.get? id (some a) := by
  unfold place at h
  split at h
  · rename_i rest hreleased
    cases h
    obtain ⟨hlt, hnone⟩ := hp.vacant id (by simp [hreleased])
    refine ⟨hnone, funext fun j => ?_⟩
    by_cases hj : j = id
    · subst hj
      simp [get?, hlt]
    · simp [get?, hj, Ne.symm hj, Array.getElem?_setIfInBounds_ne]
  · cases h
    refine ⟨by simp [get?], funext fun j => ?_⟩
    by_cases hj : j = p.slots.size
    · subst hj
      simp [get?]
    · simp only [get?, Array.getElem?_push, hj, if_false, ne_eq, not_false_eq_true,
        Function.update_of_ne]

lemma sound_of_place (hp : p.Sound) (h : p.place a = (id, q)) : q.Sound := by
  obtain ⟨-, hq⟩ := get?_of_place hp h
  unfold place at h
  split at h
  · rename_i rest hreleased
    cases h
    have hnodup := hp.nodup
    rw [hreleased, List.nodup_cons] at hnodup
    refine ⟨hnodup.2, fun j hj => ?_⟩
    obtain ⟨hlt, hnone⟩ := hp.vacant j (by simp [hreleased, show j ∈ rest from hj])
    have hne : j ≠ id := by
      rintro rfl
      exact hnodup.1 hj
    refine ⟨by simpa using hlt, ?_⟩
    rw [hq, Function.update_of_ne hne]
    exact hnone
  · rename_i hreleased
    cases h
    exact ⟨hp.nodup, by simp [hreleased]⟩

lemma get?_of_alloc (hp : p.Sound) (h : p.alloc a = (.ok id, q)) :
    p.get? id = none ∧ q.get? = Function.update p.get? id (some a) :=
  get?_of_place hp (alloc_eq_ok h)

lemma sound_of_alloc (hp : p.Sound) (h : p.alloc a = (.ok id, q)) : q.Sound :=
  sound_of_place hp (alloc_eq_ok h)

/-! ## Counting -/

/-- The number of live slots, counted among slots that need not all have been opened. -/
lemma live_eq_countP {n : Nat} (hn : p.slots.size ≤ n) :
    p.live = (List.range n).countP fun id => (p.get? id).isSome := by
  obtain ⟨k, rfl⟩ := Nat.exists_eq_add_of_le hn
  have hbeyond : ((List.range k).map (p.slots.size + ·)).countP
      (fun id => (p.get? id).isSome) = 0 := by
    rw [List.countP_eq_zero]
    intro j hj
    obtain ⟨i, -, rfl⟩ := List.mem_map.1 hj
    simp [get?]
  have hslots : p.slots.toList = (List.range p.slots.size).map p.get? := by
    apply List.ext_getElem
    · simp
    · intro i hi _
      rw [List.getElem_map, List.getElem_range]
      simp [get?, Array.getElem?_eq_getElem (show i < p.slots.size by simpa using hi)]
  rw [List.range_add, List.countP_append, hbeyond, live, ← Array.countP_toList, hslots,
    List.countP_map]
  rfl

/-- Pools that hold the same values have the same number of live slots. -/
lemma live_congr (h : p.get? = q.get?) : p.live = q.live := by
  rw [live_eq_countP (Nat.le_max_left p.slots.size q.slots.size),
    live_eq_countP (Nat.le_max_right p.slots.size q.slots.size), h]

/-- Distinct live slots are not more than were opened. -/
lemma length_le_size {ids : List SlotId} (hnodup : ids.Nodup)
    (hlive : ∀ id ∈ ids, (p.get? id).isSome) : ids.length ≤ p.slots.size := by
  have hsub : ids ⊆ List.range p.slots.size := by
    intro id hid
    obtain ⟨a, ha⟩ := Option.isSome_iff_exists.1 (hlive id hid)
    exact List.mem_range.2 (lt_size_of_get? ha)
  simpa using (List.Nodup.subperm hnodup hsub).length_le

end Pool

end Rewind
