import Mathlib.Data.Finmap
import Mathlib.Data.Nat.Count
import Rewind.Proofs.Layout

/-!
# A pool as a ledger

What a pool answers can be told from a finite map of values, a list of the slots that were returned
and are not in use again, and the number of the next slot.  None of it knows of blocks: only how
many values there can be depends on their length and their number.  A `Ledger` answers requests from
these alone.

`Store` is what a pool, its blocks in memory and a ledger have in common, and two stores answer
alike if a relation between them is kept by the four things that a store can do.
-/

namespace Rewind

/-- What a store of values can do. -/
structure Store (α σ : Type) where
  alloc : σ → α → Option (Except AllocError SlotId × σ)
  free? : σ → SlotId → Option (α × σ)
  get? : σ → SlotId → Option α
  change? : σ → SlotId → (α → α) → Option (α × σ)

namespace Store

/-- What a store can be asked for. -/
inductive Request (α : Type) where
  | alloc (a : α)
  | free (id : SlotId)
  | get (id : SlotId)
  /-- Changes a value if there is one. -/
  | change (id : SlotId) (f : α → α)
  /-- Reads a slot that has to hold a value. -/
  | read (id : SlotId)
  /-- Changes the value in a slot that has to hold one. -/
  | modify (id : SlotId) (f : α → α)

/-- What a store answers.  A change is answered with what was there before. -/
inductive Reply (α : Type) where
  | slot (x : Except AllocError SlotId)
  | value (a : Option α)
  | must (x : Except Fault α)
  deriving DecidableEq, Repr

/-- The value in a slot that has to hold one. -/
def held {α : Type} (id : SlotId) : Option α → Except Fault α
  | some a => .ok a
  | none => .error (.deadSlot id)

variable {α σ τ : Type}

/-- What was done to a store is answered with the value it was done to, and what could not be done
leaves the store as it is. -/
def answer (s : σ) (reply : Option α → Reply α) : Option (α × σ) → Reply α × σ
  | some (a, s') => (reply (some a), s')
  | none => (reply none, s)

/-- Serves a request. -/
def serve (m : Store α σ) (s : σ) : Request α → Option (Reply α × σ)
  | .alloc a => (m.alloc s a).map fun x => (.slot x.1, x.2)
  | .free id => some (answer s .value (m.free? s id))
  | .get id => some (.value (m.get? s id), s)
  | .change id f => some (answer s .value (m.change? s id f))
  | .read id => some (.must (held id (m.get? s id)), s)
  | .modify id f => some (answer s (fun a => .must (held id a)) (m.change? s id f))

/-- Serves requests one after another, as long as there are answers. -/
def serveAll (m : Store α σ) : σ → List (Request α) → Option (List (Reply α) × σ)
  | s, [] => some ([], s)
  | s, r :: rs =>
    (m.serve s r).bind fun x => (m.serveAll x.2 rs).map fun xs => (x.1 :: xs.1, xs.2)

/-! ## Stores that answer alike -/

/-- The answer to a request that found no memory for a block. -/
def Reply.refused : Reply α → Bool
  | .slot (.error (.refused _)) => true
  | _ => false

/-- The answer to a request for a slot when there was none. -/
def Reply.failed : Reply α → Bool
  | .slot (.error _) => true
  | _ => false

/-- A store follows another if what it does comes to the same, as long as memory is not refused. -/
structure Follows (m : Store α σ) (n : Store α τ) (R : σ → τ → Prop) : Prop where
  alloc : ∀ {s t a x s'}, R s t → m.alloc s a = some (x, s') → ¬(Reply.slot x : Reply α).refused →
    ∃ t', n.alloc t a = some (x, t') ∧ R s' t'
  free : ∀ {s t} id, R s t → Option.Rel (fun x y => x.1 = y.1 ∧ R x.2 y.2) (m.free? s id)
    (n.free? t id)
  get : ∀ {s t} id, R s t → m.get? s id = n.get? t id
  change : ∀ {s t} id f, R s t →
    Option.Rel (fun x y => x.1 = y.1 ∧ R x.2 y.2) (m.change? s id f) (n.change? t id f)

variable {m : Store α σ} {n : Store α τ} {R : σ → τ → Prop} {s s' : σ} {t : τ}

lemma answer_alike {x : Option (α × σ)} {y : Option (α × τ)} (reply : Option α → Reply α)
    (hst : R s t) (h : Option.Rel (fun x y => x.1 = y.1 ∧ R x.2 y.2) x y) :
    (answer s reply x).1 = (answer t reply y).1 ∧ R (answer s reply x).2 (answer t reply y).2 := by
  cases h with
  | none => exact ⟨rfl, hst⟩
  | some h =>
    obtain ⟨ha, hR⟩ := h
    exact ⟨congrArg (fun a => reply (some a)) ha, hR⟩

lemma Follows.serve (h : Follows m n R) (hst : R s t) {r : Request α} {x : Reply α}
    (hserve : m.serve s r = some (x, s')) (hx : ¬x.refused) :
    ∃ t', n.serve t r = some (x, t') ∧ R s' t' := by
  have hanswer : ∀ {y : Option (α × σ)} {z : Option (α × τ)} (reply : Option α → Reply α),
      Option.Rel (fun x y => x.1 = y.1 ∧ R x.2 y.2) y z → some (answer s reply y) = some (x, s') →
      ∃ t', some (answer t reply z) = some (x, t') ∧ R s' t' := by
    intro y z reply hrel heq
    obtain ⟨hreply, hR⟩ := answer_alike reply hst hrel
    rw [Option.some.inj heq] at hreply hR
    exact ⟨_, congrArg some (Prod.ext hreply.symm rfl), hR⟩
  cases r with
  | alloc a =>
    obtain ⟨⟨y, s''⟩, halloc, hy⟩ := Option.map_eq_some_iff.1 hserve
    cases hy
    obtain ⟨t', hn, hR⟩ := h.alloc hst halloc hx
    exact ⟨t', by rw [Store.serve, hn]; rfl, hR⟩
  | free id => exact hanswer .value (h.free id hst) hserve
  | get id =>
    cases hserve
    exact ⟨t, by rw [Store.serve, h.get id hst], hst⟩
  | change id f => exact hanswer .value (h.change id f hst) hserve
  | read id =>
    cases hserve
    exact ⟨t, by rw [Store.serve, h.get id hst], hst⟩
  | modify id f => exact hanswer _ (h.change id f hst) hserve

lemma Follows.serveAll (h : Follows m n R) {rs : List (Request α)} :
    ∀ {s : σ} {t : τ} {xs : List (Reply α)}, R s t → m.serveAll s rs = some (xs, s') →
      (∀ x ∈ xs, ¬x.refused) → ∃ t', n.serveAll t rs = some (xs, t') ∧ R s' t' := by
  induction rs with
  | nil =>
    intro s t xs hst hserve _
    cases hserve
    exact ⟨t, rfl, hst⟩
  | cons r rs ih =>
    intro s t xs hst hserve hxs
    obtain ⟨⟨x, s₁⟩, hone, hrest⟩ := Option.bind_eq_some_iff.1 hserve
    obtain ⟨⟨ys, s₂⟩, hall, hy⟩ := Option.map_eq_some_iff.1 hrest
    cases hy
    obtain ⟨t₁, hone', hR⟩ := h.serve hst hone (hxs x List.mem_cons_self)
    obtain ⟨t₂, hall', hR⟩ := ih hR hall fun y hy => hxs y (List.mem_cons_of_mem _ hy)
    exact ⟨t₂, by rw [Store.serveAll, hone', Option.bind_some, hall']; rfl, hR⟩

end Store

/-! ## Pools, blocks and ledgers as stores -/

/-- Changes the value in a slot, and tells what it was. -/
def Pool.change? {α : Type} (p : Pool α) (id : SlotId) (f : α → α) : Option (α × Pool α) :=
  match p.read id, p.modify id f with
  | .ok a, .ok q => some (a, q)
  | _, _ => none

lemma Pool.change?_eq {α : Type} (p : Pool α) (id : SlotId) (f : α → α) :
    p.change? id f = (p.get? id).map fun a => (a, p.put id (f a)) := by
  rw [change?, read, modify]
  cases p.get? id <;> rfl

def Pool.store {α : Type} : Store α (Pool α) :=
  ⟨fun p a => some (p.alloc a), Pool.free?, Pool.get?, Pool.change?⟩

/-- There is no answer where the list of released slots leads astray. -/
def Blocks.store {α : Type} : Store α (Blocks α) :=
  ⟨Blocks.alloc, Blocks.free?, Blocks.get?, Blocks.change?⟩

/-- Values by their slots, the slots that were returned, the last one first, and the next slot. -/
structure Ledger (α : Type) where
  values : Finmap fun _ : SlotId => α := ∅
  returned : List SlotId := []
  next : SlotId := 0

namespace Ledger

variable {α : Type} {l : Ledger α} {p : Pool α} {room limit : Nat}

/-- Enters a value under the slot returned last, or else under the next one. -/
def enter (l : Ledger α) (a : α) : SlotId × Ledger α :=
  match l.returned with
  | id :: rest => (id, { l with values := l.values.insert id a, returned := rest })
  | [] => (l.next, { l with values := l.values.insert l.next a, next := l.next + 1 })

/-- Gives a value a slot, if there is room for it. -/
def alloc (room limit : Nat) (l : Ledger α) (a : α) : Except AllocError SlotId × Ledger α :=
  if l.values.keys.card = room then (.error (.blockLimit limit), l)
  else
    let (id, l) := l.enter a
    (.ok id, l)

def free? (l : Ledger α) (id : SlotId) : Option (α × Ledger α) :=
  (l.values.lookup id).map fun a =>
    (a, { l with values := l.values.erase id, returned := id :: l.returned })

def change? (l : Ledger α) (id : SlotId) (f : α → α) : Option (α × Ledger α) :=
  (l.values.lookup id).map fun a => (a, { l with values := l.values.insert id (f a) })

def store (room limit : Nat) : Store α (Ledger α) :=
  ⟨fun l a => some (l.alloc room limit a), free?, fun l id => l.values.lookup id, change?⟩

/-- Every slot before the next one either has a value or was returned, and no other has or was. -/
structure Sound (l : Ledger α) : Prop where
  nodup : l.returned.Nodup
  apart : ∀ id ∈ l.returned, id ∉ l.values
  used : ∀ id, id < l.next ↔ id ∈ l.values ∨ id ∈ l.returned

lemma sound_empty : ({} : Ledger α).Sound :=
  ⟨List.nodup_nil, nofun, fun id => by simp [Finmap.notMem_empty]⟩

/-- The values and the slots returned are as many as were opened. -/
lemma Sound.card_add (h : l.Sound) : l.values.keys.card + l.returned.length = l.next := by
  have hdisjoint : Disjoint l.values.keys l.returned.toFinset := by
    rw [Finset.disjoint_right]
    intro id hid hkey
    exact h.apart id (List.mem_toFinset.1 hid) (Finmap.mem_keys.1 hkey)
  have hall : l.values.keys ∪ l.returned.toFinset = Finset.range l.next := by
    ext id
    rw [Finset.mem_union, Finmap.mem_keys, List.mem_toFinset, Finset.mem_range, h.used]
  rw [← List.toFinset_card_of_nodup h.nodup, ← Finset.card_union_of_disjoint hdisjoint, hall,
    Finset.card_range]

lemma Sound.enter (h : l.Sound) (a : α) : (l.enter a).2.Sound := by
  unfold Ledger.enter
  split
  · rename_i id rest hreturned
    have hnodup := h.nodup
    have happart := h.apart
    have hused := h.used
    simp only [hreturned, List.nodup_cons, List.mem_cons] at hnodup happart hused
    refine ⟨hnodup.2, fun j hj => ?_, fun j => ?_⟩
    · rw [Finmap.mem_insert, not_or]
      exact ⟨ne_of_mem_of_not_mem hj hnodup.1, happart j (.inr hj)⟩
    · rw [hused, Finmap.mem_insert]
      tauto
  · rename_i hreturned
    have hused := h.used
    simp only [hreturned, List.not_mem_nil, or_false] at hused
    refine ⟨by rw [hreturned]; exact List.nodup_nil, by simp [hreturned], fun j => ?_⟩
    rw [Nat.lt_succ_iff_lt_or_eq, hused, Finmap.mem_insert, hreturned]
    simp [or_comm]

lemma Sound.free? (h : l.Sound) {id : SlotId} {x : α × Ledger α} (hfree : l.free? id = some x) :
    x.2.Sound := by
  obtain ⟨a, ha, rfl⟩ := Option.map_eq_some_iff.1 hfree
  have hmem : id ∈ l.values := Finmap.mem_iff.2 ⟨a, ha⟩
  refine ⟨List.nodup_cons.2 ⟨fun hid => h.apart id hid hmem, h.nodup⟩, fun j hj => ?_, fun j => ?_⟩
  · rw [Finmap.mem_erase]
    rintro ⟨hne, hvalue⟩
    rcases List.mem_cons.1 hj with rfl | hj
    · exact hne rfl
    · exact h.apart j hj hvalue
  · rw [h.used, Finmap.mem_erase, List.mem_cons]
    by_cases hj : j = id
    · simp [hj, hmem]
    · simp [hj]

lemma Sound.change? (h : l.Sound) {id : SlotId} {f : α → α} {x : α × Ledger α}
    (hchange : l.change? id f = some x) : x.2.Sound := by
  obtain ⟨a, ha, rfl⟩ := Option.map_eq_some_iff.1 hchange
  have hmem : ∀ j, j ∈ l.values.insert id (f a) ↔ j ∈ l.values := by
    intro j
    rw [Finmap.mem_insert, or_iff_right_of_imp]
    rintro rfl
    exact Finmap.mem_iff.2 ⟨a, ha⟩
  refine ⟨h.nodup, fun j hj => ?_, fun j => ?_⟩
  · rw [hmem]
    exact h.apart j hj
  · rw [hmem]
    exact h.used j

/-! ## A ledger tells what a pool does -/

/-- The ledger is kept of the pool. -/
structure Keeps (room limit : Nat) (p : Pool α) (l : Ledger α) : Prop where
  sound : l.Sound
  values : ∀ id, p.get? id = l.values.lookup id
  released : p.released = l.returned
  size : p.slots.size = l.next
  limit_eq : p.blockLimit = limit
  room_eq : p.blockLength * p.blockLimit = room
  within : p.slots.size ≤ room

namespace Keeps

variable (h : Keeps room limit p l)
include h

/-- The slots of the pool are sound because those of the ledger are. -/
lemma pool_sound : p.Sound := by
  refine ⟨h.released ▸ h.sound.nodup, fun id hid => ?_⟩
  rw [h.released] at hid
  rw [h.size, h.values]
  exact ⟨(h.sound.used id).2 (.inr hid), Finmap.lookup_eq_none.2 (h.sound.apart id hid)⟩

lemma live_eq : p.live = l.values.keys.card := by
  have hkeys : l.values.keys =
      (Finset.range p.slots.size).filter fun id => (p.get? id).isSome = true := by
    ext id
    rw [Finset.mem_filter, Finset.mem_range, h.values, Finmap.lookup_isSome, Finmap.mem_keys,
      h.size, h.sound.used]
    tauto
  rw [hkeys, ← Nat.count_eq_card_filter_range, Nat.count, Pool.live_eq_countP le_rfl]
  simp

/-- There is no room if all slots that there can be were opened, and none was returned. -/
lemma card_eq_iff : l.values.keys.card = room ↔
    p.released = [] ∧ p.slots.size % p.blockLength = 0 ∧ p.blockLimit ≤ p.blocks := by
  have hcard := h.sound.card_add
  have hwithin := h.within
  rw [← h.size] at hcard
  rw [h.released, ← List.length_eq_zero_iff, Pool.blocks_eq, ← h.room_eq] at *
  constructor
  · intro hfull
    have hsize : p.slots.size = p.blockLength * p.blockLimit := by omega
    have hmod : p.slots.size % p.blockLength = 0 := by rw [hsize, Nat.mul_mod_right]
    refine ⟨by omega, hmod, ?_⟩
    rw [if_pos hmod, hsize, Nat.mul_div_cancel_left _ p.blockLength_pos]
    exact le_rfl
  · rintro ⟨hreturned, hmod, hlimit⟩
    rw [if_pos hmod, Nat.add_zero] at hlimit
    have hle := Nat.mul_le_mul_left p.blockLength hlimit
    rw [Nat.mul_div_cancel' (Nat.dvd_of_mod_eq_zero hmod)] at hle
    omega

/-- A pool is full when the ledger says so. -/
lemma full?_eq (hrefused : ∀ n, p.full? ≠ some (.refused n)) :
    p.full? = if l.values.keys.card = room then some (.blockLimit limit) else none := by
  rw [if_congr h.card_eq_iff rfl rfl, ← h.limit_eq]
  unfold Pool.full? at hrefused ⊢
  by_cases hroom : p.released ≠ [] ∨ p.slots.size % p.blockLength ≠ 0
  · rw [if_pos hroom, if_neg fun hfull => by tauto]
  · rw [if_neg hroom] at hrefused ⊢
    push Not at hroom
    by_cases hlimit : p.blockLimit ≤ p.blocks
    · rw [if_pos hlimit, if_pos ⟨hroom.1, hroom.2, hlimit⟩]
    · rw [if_neg hlimit] at hrefused ⊢
      have hbound : ¬Pool.blockLengthBound ≤ p.blockLength := fun hbound =>
        hrefused _ (if_pos hbound)
      rw [if_neg hbound, if_neg fun hfull => hlimit hfull.2.2]

/-- The pool places a value as the ledger enters it. -/
lemma place (hcard : l.values.keys.card ≠ room) (a : α) :
    (p.place a).1 = (l.enter a).1 ∧ Keeps room limit (p.place a).2 (l.enter a).2 := by
  have hsound := h.sound.enter a
  have hcount := h.sound.card_add
  have hwithin := h.within
  have hsize := h.size
  obtain ⟨id, q, hplace⟩ : ∃ id q, p.place a = (id, q) := ⟨_, _, rfl⟩
  have hvalues := (Pool.get?_of_place h.pool_sound hplace).2
  have hlookup : ∀ j, q.get? j = (l.values.insert id a).lookup j := by
    intro j
    rw [hvalues]
    by_cases hj : j = id
    · rw [hj, Function.update_self, Finmap.lookup_insert]
    · rw [Function.update_of_ne hj, h.values, Finmap.lookup_insert_of_ne _ hj]
  rw [hplace]
  unfold Pool.place at hplace
  unfold enter at hsound ⊢
  rw [h.released] at hplace
  cases hreturned : l.returned with
  | cons first rest =>
    simp only [hreturned] at hsound hplace ⊢
    cases hplace
    exact ⟨rfl, hsound, hlookup, rfl, Array.size_setIfInBounds.trans hsize, h.limit_eq, h.room_eq,
      Array.size_setIfInBounds.trans_le hwithin⟩
  | nil =>
    simp only [hreturned] at hsound hplace ⊢
    rw [hreturned, List.length_nil] at hcount
    cases hplace
    refine ⟨hsize, hsound, hsize ▸ hlookup, rfl, ?_, h.limit_eq, h.room_eq,
      ?_⟩
    · rw [Array.size_push, hsize]
    · rw [Array.size_push]
      omega

lemma alloc (a : α) (hrefused : ∀ n, (p.alloc a).1 ≠ .error (.refused n)) :
    (p.alloc a).1 = (l.alloc room limit a).1 ∧
      Keeps room limit (p.alloc a).2 (l.alloc room limit a).2 := by
  have hfull := h.full?_eq fun n hn => hrefused n (by rw [Pool.alloc, hn])
  rw [Pool.alloc, hfull, Ledger.alloc]
  by_cases hcard : l.values.keys.card = room
  · rw [if_pos hcard, if_pos hcard]
    exact ⟨rfl, h⟩
  · rw [if_neg hcard, if_neg hcard]
    obtain ⟨hid, hkeeps⟩ := h.place hcard a
    exact ⟨congrArg Except.ok hid, hkeeps⟩

lemma free? (id : SlotId) :
    Option.Rel (fun x y => x.1 = y.1 ∧ Keeps room limit x.2 y.2) (p.free? id) (l.free? id) := by
  have hlookup := h.values id
  cases hvalue : l.values.lookup id with
  | none =>
    rw [Pool.free?, hlookup, hvalue, Ledger.free?, hvalue]
    exact .none
  | some a =>
    have hfree : l.free? id = some (a, { l with
        values := l.values.erase id, returned := id :: l.returned }) := by
      rw [Ledger.free?, hvalue]
      rfl
    rw [Pool.free?, hlookup, hvalue, hfree]
    refine .some ⟨rfl, h.sound.free? hfree, fun j => ?_, congrArg (id :: ·) h.released,
      Array.size_setIfInBounds.trans h.size, h.limit_eq, h.room_eq,
      Array.size_setIfInBounds.trans_le h.within⟩
    rw [Pool.get?_vacate]
    by_cases hj : j = id
    · rw [hj, Function.update_self, Finmap.lookup_erase]
    · rw [Function.update_of_ne hj, h.values, Finmap.lookup_erase_ne hj]

lemma change? (id : SlotId) (f : α → α) :
    Option.Rel (fun x y => x.1 = y.1 ∧ Keeps room limit x.2 y.2) (p.change? id f)
      (l.change? id f) := by
  have hlookup := h.values id
  cases hvalue : l.values.lookup id with
  | none =>
    rw [Pool.change?_eq, hlookup, hvalue, Ledger.change?, hvalue]
    exact .none
  | some a =>
    have hchange : l.change? id f = some (a, { l with values := l.values.insert id (f a) }) := by
      rw [Ledger.change?, hvalue]
      rfl
    have hget : p.get? id = some a := hlookup.trans hvalue
    rw [Pool.change?_eq, hget, hchange]
    refine .some ⟨rfl, h.sound.change? hchange, fun j => ?_, h.released,
      Pool.size_put.trans h.size, h.limit_eq, h.room_eq, Pool.size_put.trans_le h.within⟩
    rw [Pool.get?_put hget]
    by_cases hj : j = id
    · rw [hj, Function.update_self, Finmap.lookup_insert]
    · rw [Function.update_of_ne hj, h.values, Finmap.lookup_insert_of_ne _ hj]

end Keeps

lemma keeps_empty (blockLength blockLimit : Nat) :
    Keeps (max blockLength 1 * blockLimit) blockLimit (Pool.empty blockLength blockLimit)
      ({} : Ledger α) :=
  ⟨sound_empty, fun _ => rfl, rfl, rfl, rfl, rfl, Nat.zero_le _⟩

/-- A pool does what its ledger says. -/
lemma follows_pool (room limit : Nat) :
    Pool.store.Follows (store room limit : Store α (Ledger α)) (Keeps room limit) where
  alloc {p l a x q} h halloc hrefused := by
    have halloc : p.alloc a = (x, q) := Option.some.inj halloc
    obtain ⟨hx, hkeeps⟩ := h.alloc a fun n hn => hrefused (by
      rw [show x = _ from halloc ▸ hn]
      rfl)
    rw [halloc] at hx hkeeps
    exact ⟨_, congrArg some (Prod.ext hx.symm rfl), hkeeps⟩
  free id h := h.free? id
  get id h := h.values id
  change id f h := h.change? id f

end Ledger

/-- Blocks do what their pool does. -/
lemma Blocks.follows_pool {α : Type} :
    Pool.store.Follows (Blocks.store : Store α (Blocks α)) fun p b => b.Lays p ∧ p.Sound where
  alloc {p b a x q} h halloc _ := by
    have halloc : p.alloc a = (x, q) := Option.some.inj halloc
    obtain ⟨b', hb', hlays⟩ := h.1.alloc h.2 a
    rw [halloc] at hb' hlays
    refine ⟨b', hb', hlays, ?_⟩
    cases x with
    | ok id => exact Pool.sound_of_alloc h.2 halloc
    | error e =>
      unfold Pool.alloc at halloc
      split at halloc
      · cases halloc
        exact h.2
      · cases halloc
  free {p b} id h := by
    obtain ⟨hlays, hp⟩ := h
    change Option.Rel _ (p.free? id) (b.free? id)
    cases hget : p.get? id with
    | none =>
      rw [Pool.free?, hget, hlays.free?_none hget]
      exact .none
    | some a =>
      obtain ⟨b', hb', hlays'⟩ := hlays.free? hp hget
      rw [Pool.free?, hget, hb']
      exact .some ⟨rfl, hlays', hp.vacate hget⟩
  get id h := (congrFun h.1.values id).symm
  change {p b} id f h := by
    obtain ⟨hlays, hp⟩ := h
    change Option.Rel _ (p.change? id f) (b.change? id f)
    rw [Pool.change?_eq]
    cases hget : p.get? id with
    | none =>
      rw [hlays.change?_none f hget]
      exact .none
    | some a =>
      obtain ⟨b', hb', hlays'⟩ := hlays.change? hp f hget
      rw [hb']
      exact .some ⟨rfl, hlays', hp.put hget⟩

/-! ## When there is no room -/

namespace Pool

variable {α : Type} {p q : Pool α} {a : α} {e : AllocError}

lemma full?_of_alloc_error (h : p.alloc a = (.error e, q)) : p.full? = some e := by
  unfold alloc at h
  split at h
  · rename_i hfull
    cases h
    exact hfull
  · cases h

/-- A pool has no slot for another value if and only if as many are in use as there can be. -/
lemma alloc_eq_blockLimit_iff {room limit : Nat} {l : Ledger α} (h : l.Keeps room limit p)
    (a : α) : p.alloc a = (.error (.blockLimit limit), p) ↔ p.live = room := by
  rw [h.live_eq, h.card_eq_iff]
  constructor
  · intro halloc
    have hfull := full?_of_alloc_error halloc
    unfold full? at hfull
    split_ifs at hfull with hroom hlimit
    · push Not at hroom
      exact ⟨hroom.1, hroom.2, hlimit⟩
    · cases hfull
  · rintro ⟨hreleased, hmod, hlimit⟩
    have hroom : ¬(p.released ≠ [] ∨ p.slots.size % p.blockLength ≠ 0) := by tauto
    rw [alloc, full?, if_neg hroom, if_pos hlimit, h.limit_eq]

end Pool

namespace Store

variable {α : Type}

/-- A pool always answers. -/
lemma serveAll_pool (rs : List (Request α)) :
    ∀ p : Pool α, ∃ xs q, Pool.store.serveAll p rs = some (xs, q) := by
  induction rs with
  | nil => exact fun p => ⟨[], p, rfl⟩
  | cons r rs ih =>
    intro p
    obtain ⟨⟨x, q⟩, hone⟩ : ∃ x, Pool.store.serve p r = some x := by
      cases r <;> exact ⟨_, rfl⟩
    obtain ⟨xs, q', hrest⟩ := ih q
    exact ⟨x :: xs, q', by rw [serveAll, hone, Option.bind_some, hrest]; rfl⟩

/-- As long as there is room, a ledger answers without regard to how much there is. -/
lemma serve_of_room {room room' limit limit' : Nat} {l l₁ l₂ : Ledger α} {r : Request α}
    {x y : Reply α} (h₁ : (Ledger.store room limit).serve l r = some (x, l₁))
    (h₂ : (Ledger.store room' limit').serve l r = some (y, l₂)) (hx : ¬x.failed) (hy : ¬y.failed) :
    x = y ∧ l₁ = l₂ := by
  cases r with
  | alloc a =>
    simp only [serve, Ledger.store, Ledger.alloc, Option.map_some, Option.some.injEq] at h₁ h₂
    split at h₁
    · cases h₁
      exact absurd rfl hx
    · split at h₂
      · cases h₂
        exact absurd rfl hy
      · cases h₁
        cases h₂
        exact ⟨rfl, rfl⟩
  | _ => exact Prod.mk.inj (Option.some.inj (h₁.symm.trans h₂))

lemma serveAll_of_room {room room' limit limit' : Nat} {rs : List (Request α)} :
    ∀ {l l₁ l₂ : Ledger α} {xs ys : List (Reply α)},
      (Ledger.store room limit).serveAll l rs = some (xs, l₁) →
      (Ledger.store room' limit').serveAll l rs = some (ys, l₂) →
      (∀ x ∈ xs, ¬x.failed) → (∀ y ∈ ys, ¬y.failed) → xs = ys := by
  induction rs with
  | nil =>
    intro l l₁ l₂ xs ys h₁ h₂ _ _
    cases h₁
    cases h₂
    rfl
  | cons r rs ih =>
    intro l l₁ l₂ xs ys h₁ h₂ hxs hys
    obtain ⟨⟨x, l'⟩, hone₁, hrest₁⟩ := Option.bind_eq_some_iff.1 h₁
    obtain ⟨⟨xs, _⟩, hall₁, hx⟩ := Option.map_eq_some_iff.1 hrest₁
    obtain ⟨⟨y, l''⟩, hone₂, hrest₂⟩ := Option.bind_eq_some_iff.1 h₂
    obtain ⟨⟨ys, _⟩, hall₂, hy⟩ := Option.map_eq_some_iff.1 hrest₂
    cases hx
    cases hy
    obtain ⟨rfl, rfl⟩ := serve_of_room hone₁ hone₂ (hxs x List.mem_cons_self)
      (hys y List.mem_cons_self)
    rw [ih hall₁ hall₂ (fun z hz => hxs z (List.mem_cons_of_mem _ hz))
      fun z hz => hys z (List.mem_cons_of_mem _ hz)]

lemma Reply.not_refused {x : Reply α} (h : ¬x.failed) : ¬x.refused := by
  unfold Reply.failed at h
  split at h
  · exact absurd rfl h
  · rename_i hslot
    unfold Reply.refused
    split
    · exact absurd rfl (hslot _)
    · exact Bool.false_ne_true

end Store

/-- **A pool is a ledger.**  Whatever requests a pool is given, and of whatever length and number
its blocks are: as long as memory for them is not refused, it answers as a finite map from slots to
values does, with a list of the slots that were returned and the number of the next one.  The blocks
in memory answer the same, and their list of released slots never leads to one that is in use. There
is no slot for another value if and only if all that the blocks can hold are in use, and until then
the length of the blocks does not matter. -/
theorem Pool.serves_as_ledger {α : Type} (blockLength blockLimit : Nat)
    (requests : List (Store.Request α)) :
    ∃ replies p,
      Pool.store.serveAll (Pool.empty blockLength blockLimit) requests = some (replies, p) ∧
      ((∀ x ∈ replies, ¬x.refused) → ∃ l b,
        (Ledger.store (max blockLength 1 * blockLimit) blockLimit).serveAll {} requests =
          some (replies, l) ∧
        Blocks.store.serveAll (Blocks.empty blockLength blockLimit) requests = some (replies, b) ∧
        l.Sound ∧
        (∀ id, p.get? id = l.values.lookup id ∧ b.get? id = l.values.lookup id) ∧
        p.live = l.values.keys.card ∧ b.live = l.values.keys.card ∧
        (∀ a, p.alloc a = (.error (.blockLimit blockLimit), p) ↔
          p.live = max blockLength 1 * blockLimit) ∧
        (∀ a, b.alloc a = some (.error (.blockLimit blockLimit), b) ↔
          b.live = max blockLength 1 * blockLimit) ∧
        ∀ blockLength' blockLimit' replies' p',
          Pool.store.serveAll (Pool.empty blockLength' blockLimit') requests = some (replies', p') →
          (∀ x ∈ replies, ¬x.failed) → (∀ x ∈ replies', ¬x.failed) → replies' = replies) := by
  obtain ⟨replies, p, hserve⟩ := Store.serveAll_pool requests (Pool.empty blockLength blockLimit)
  refine ⟨replies, p, hserve, fun hrefused => ?_⟩
  obtain ⟨l, hledger, hkeeps⟩ := (Ledger.follows_pool _ _).serveAll
    (Ledger.keeps_empty blockLength blockLimit) hserve hrefused
  obtain ⟨b, hblocks, hlays, hp⟩ := Blocks.follows_pool.serveAll
    ⟨Blocks.lays_empty blockLength blockLimit, sound_empty blockLength blockLimit⟩ hserve hrefused
  have hlive : b.live = p.live := hlays.live
  refine ⟨l, b, hledger, hblocks, hkeeps.sound, fun id => ?_, hkeeps.live_eq,
    hlive.trans hkeeps.live_eq, alloc_eq_blockLimit_iff hkeeps, fun a => ?_, ?_⟩
  · rw [hlays.values, hkeeps.values]
    exact ⟨rfl, rfl⟩
  · rw [hlive, ← alloc_eq_blockLimit_iff hkeeps a, hlays.alloc_error_iff hp]
  · intro blockLength' blockLimit' replies' p' hserve' hreplies hreplies'
    obtain ⟨l', hledger', -⟩ := (Ledger.follows_pool _ _).serveAll
      (Ledger.keeps_empty blockLength' blockLimit') hserve' fun x hx =>
        Store.Reply.not_refused (hreplies' x hx)
    exact Store.serveAll_of_room hledger' hledger hreplies' hreplies

/-- A slot that is released twice is used again once. -/
example : (Blocks.store.serveAll (Blocks.empty 2 1)
    [.alloc 'a', .free 0, .free 0, .alloc 'b', .alloc 'c', .alloc 'd']).map Prod.fst =
    some [.slot (.ok 0), .value (some 'a'), .value none, .slot (.ok 0), .slot (.ok 1),
      .slot (.error (.blockLimit 1))] := by
  decide

end Rewind
