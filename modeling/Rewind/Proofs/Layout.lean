import Rewind.Pool.Blocks
import Rewind.Proofs.Pool

/-!
# How a pool lies in memory

Blocks that are used like a pool are a pool.  `Lays` says what a slot of a pool is in memory, and
that the released slots lead from one to the next in the order in which the pool will use them
again.  Every operation keeps it so, and comes to the same on both sides; in particular the list of
released slots never leads to one that holds a value.
-/

namespace Rewind

namespace Pool

variable {α : Type} {p q : Pool α} {id : Nat} {a : α}

/-! ## Values and blocks counted -/

/-- A value takes the place of another, and the pool holds as many as before. -/
lemma live_put {c : α} (hget : p.get? id = some c) : (p.put id a).live = p.live := by
  have hlt := lt_size_of_get? hget
  have hpos := live_vacate hget
  have hput := live_vacate (get?_put_self (a := a) hget)
  have hsame : ((p.put id a).vacate id).live = (p.vacate id).live :=
    live_congr (by
      rw [get?_vacate, get?_vacate, get?_put hget, Function.update_idem])
  omega

/-- One value more. -/
lemma live_place (hp : p.Sound) (hplace : p.place a = (id, q)) :
    q.live = p.live + 1 := by
  obtain ⟨hnone, hq⟩ := get?_of_place hp hplace
  have hvacate := live_vacate (show q.get? id = some a by rw [hq, Function.update_self])
  have hsame : (q.vacate id).live = p.live :=
    live_congr (by
      rw [get?_vacate, hq, Function.update_idem, ← hnone, Function.update_eq_self])
  omega

lemma Sound.not_mem_released (hp : p.Sound) (hget : p.get? id = some a) : id ∉ p.released := by
  intro hid
  cases hget.symm.trans (hp.vacant id hid).2

/-- A pool that fails to allocate stays as it is. -/
lemma eq_of_alloc_error {e : AllocError} (h : (p.alloc a).1 = .error e) : (p.alloc a).2 = p := by
  unfold alloc at h ⊢
  split at h
  · rfl
  · cases h

/-- There are just as many blocks as the slots need. -/
lemma lt_blocks_iff {i : Nat} : i < p.blocks ↔ i * p.blockLength < p.slots.size := by
  have hpos := p.blockLength_pos
  rw [blocks, Nat.lt_div_iff_mul_lt hpos]
  omega

/-- The last block is full, and every block is, when the slots opened fill their blocks. -/
lemma blocks_eq (p : Pool α) :
    p.blocks =
      p.slots.size / p.blockLength + if p.slots.size % p.blockLength = 0 then 0 else 1 := by
  have hpos := p.blockLength_pos
  have hmod := Nat.mod_lt p.slots.size hpos
  conv_lhs => rw [blocks, ← Nat.div_add_mod p.slots.size p.blockLength, Nat.add_assoc,
    Nat.mul_add_div hpos]
  congr 1
  split
  · exact Nat.div_eq_of_lt (by omega)
  · exact Nat.div_eq_of_lt_le (by omega) (by omega)

end Pool

namespace Blocks

variable {α : Type} {b : Blocks α} {p q : Pool α} {id j : Nat} {a : α} {cell : Cell α}

/-! ## Slots in blocks -/

lemma get?_eq_some_iff : b.get? id = some a ↔ b.cell? id = some (.live a) := by
  rw [get?, Option.bind_eq_some_iff]
  constructor
  · rintro ⟨_ | _, hcell, hvalue⟩
    · rw [hcell, Option.some.inj hvalue]
    · cases hvalue
  · exact fun hcell => ⟨_, hcell, rfl⟩

/-- Two slots in one block, at one place of it, are the same slot. -/
lemma eq_of_div_mod {length : Nat} (hdiv : j / length = id / length)
    (hmod : j % length = id % length) : j = id := by
  rw [← Nat.div_add_mod j length, ← Nat.div_add_mod id length, hdiv, hmod]

/-- Something else at a slot is found there, and nowhere else. -/
lemma cell?_setCell (h : (b.cell? id).isSome) :
    (b.setCell id cell).cell? = Function.update b.cell? id (some cell) := by
  funext j
  simp only [cell?, setCell, Array.getElem?_modify]
  by_cases hj : j = id
  · subst hj
    obtain ⟨found, hfound⟩ := Option.isSome_iff_exists.1 h
    obtain ⟨block, hblock, hplace⟩ := Option.bind_eq_some_iff.1 hfound
    have hlt : j % b.blockLength < block.size := (Array.getElem?_eq_some_iff.1 hplace).1
    rw [Function.update_self, if_pos rfl, hblock, Option.map_some, Option.bind_some,
      Array.getElem?_setIfInBounds_self_of_lt hlt]
  · rw [Function.update_of_ne hj]
    split
    · rename_i hdiv
      have hmod : id % b.blockLength ≠ j % b.blockLength := fun hmod =>
        hj (eq_of_div_mod hdiv.symm hmod.symm)
      cases hblock : b.blocks[j / b.blockLength]? with
      | none => rw [cell?, hblock]; rfl
      | some block =>
        rw [Option.map_some, Option.bind_some, cell?, hblock, Option.bind_some,
          Array.getElem?_setIfInBounds_ne hmod]
    · rfl

/-- Blocks keep their sizes when something else is at a slot. -/
lemma map_size_setCell (i : Nat) :
    (b.setCell id cell).blocks[i]?.map Array.size = b.blocks[i]?.map Array.size := by
  rw [setCell, Array.getElem?_modify]
  split
  · rw [Option.map_map]
    exact congrArg (Option.map · _) (funext fun block => Array.size_setIfInBounds)
  · rfl

/-! ## The list of released slots -/

/-- The released slots lead from one to the next. -/
inductive Threaded (cells : SlotId → Option (Cell α)) : Option SlotId → List SlotId → Prop
  | nil : Threaded cells none []
  | cons {id : SlotId} {next : Option SlotId} {ids : List SlotId} :
    cells id = some (.free next) → Threaded cells next ids → Threaded cells (some id) (id :: ids)

/-- A slot that is not released has nothing to do with the list. -/
lemma Threaded.congr {cells cells' : SlotId → Option (Cell α)} {head : Option SlotId}
    {ids : List SlotId} (h : Threaded cells head ids) (hsame : ∀ id ∈ ids, cells' id = cells id) :
    Threaded cells' head ids := by
  induction h with
  | nil => exact .nil
  | cons hcell _ ih =>
    exact .cons ((hsame _ List.mem_cons_self).trans hcell)
      (ih fun id hid => hsame id (List.mem_cons_of_mem _ hid))

lemma Threaded.update {cells : SlotId → Option (Cell α)} {head : Option SlotId}
    {ids : List SlotId} (h : Threaded cells head ids) (hid : id ∉ ids) (cell : Cell α) :
    Threaded (Function.update cells id (some cell)) head ids :=
  h.congr fun _ hj => Function.update_of_ne (ne_of_mem_of_not_mem hj hid) ..

lemma Threaded.head_nil {cells : SlotId → Option (Cell α)} {head : Option SlotId}
    (h : Threaded cells head []) : head = none := by
  cases h
  rfl

lemma Threaded.head_cons {cells : SlotId → Option (Cell α)} {head : Option SlotId} {id : SlotId}
    {ids : List SlotId} (h : Threaded cells head (id :: ids)) :
    ∃ next, head = some id ∧ cells id = some (.free next) ∧ Threaded cells next ids := by
  cases h with
  | cons hcell hrest => exact ⟨_, rfl, hcell, hrest⟩

/-! ## A pool in blocks -/

/-- The blocks are the pool as it lies in memory. -/
structure Lays (b : Blocks α) (p : Pool α) : Prop where
  blockLength : b.blockLength = p.blockLength
  blockLimit : b.blockLimit = p.blockLimit
  blocks : b.blocks.size = p.blocks
  /-- All blocks are full but the last one, which holds what is left. -/
  sizes : ∀ i < p.blocks, b.blocks[i]?.map Array.size =
    some (min p.blockLength (p.slots.size - i * p.blockLength))
  values : b.get? = p.get?
  threaded : Threaded b.cell? b.free p.released
  live : b.live = p.live

lemma lays_empty (blockLength blockLimit : Nat) :
    Lays (empty blockLength blockLimit : Blocks α) (Pool.empty blockLength blockLimit) := by
  have hnone : (Pool.empty blockLength blockLimit : Pool α).blocks = 0 :=
    Nat.div_eq_of_lt (by simp only [Pool.empty, List.size_toArray, List.length_nil]; omega)
  exact ⟨rfl, rfl, hnone.symm, fun i hi => absurd (hnone ▸ hi) (Nat.not_lt_zero i), rfl, .nil, rfl⟩

namespace Lays

variable (h : Lays b p)
include h

/-- What is in memory are the slots opened. -/
lemma isSome_cell? : (b.cell? id).isSome ↔ id < p.slots.size := by
  have hdiv := Nat.div_add_mod id p.blockLength
  have hmod := Nat.mod_lt id p.blockLength_pos
  rw [Nat.mul_comm] at hdiv
  rw [cell?, h.blockLength]
  by_cases hlt : id / p.blockLength < p.blocks
  · obtain ⟨block, hblock, hsize⟩ := Option.map_eq_some_iff.1 (h.sizes _ hlt)
    rw [hblock, Option.bind_some, isSome_getElem?, hsize]
    rw [Pool.lt_blocks_iff] at hlt
    generalize id / p.blockLength * p.blockLength = base at hdiv hlt ⊢
    generalize id % p.blockLength = place at hdiv hmod ⊢
    omega
  · rw [Array.getElem?_eq_none (h.blocks ▸ Nat.le_of_not_lt hlt), Option.bind_none]
    rw [Pool.lt_blocks_iff] at hlt
    generalize id / p.blockLength * p.blockLength = base at hdiv hlt
    generalize id % p.blockLength = place at hdiv hmod
    exact ⟨nofun, fun hid => by omega⟩

lemma cell?_eq_live_iff : b.cell? id = some (.live a) ↔ p.get? id = some a := by
  rw [← get?_eq_some_iff, h.values]

/-- Blocks and pool differ from those before at one slot, and in the slots that are released. -/
lemma setCell (hlt : id < p.slots.size) (hblockLength : q.blockLength = p.blockLength)
    (hblockLimit : q.blockLimit = p.blockLimit) (hslots : q.slots.size = p.slots.size)
    {free : Option SlotId} {live : Nat} (hvalues : q.get? = Function.update p.get? id cell.value?)
    (hthreaded : Threaded (Function.update b.cell? id (some cell)) free q.released)
    (hlive : live = q.live) :
    Lays { b.setCell id cell with free, live } q := by
  have hcells : (b.setCell id cell).cell? = Function.update b.cell? id (some cell) :=
    cell?_setCell (h.isSome_cell?.2 hlt)
  have hblocks : q.blocks = p.blocks := by rw [Pool.blocks, Pool.blocks, hslots, hblockLength]
  refine ⟨h.blockLength.trans hblockLength.symm, h.blockLimit.trans hblockLimit.symm, ?_, ?_, ?_,
    hcells ▸ hthreaded, hlive⟩
  · rw [hblocks, ← h.blocks]
    exact Array.size_modify
  · intro i hi
    rw [hslots, hblockLength]
    exact (map_size_setCell i).trans (h.sizes i (hblocks ▸ hi))
  · funext j
    rw [hvalues, ← h.values]
    refine (congrArg (Option.bind · Cell.value?) (congrFun hcells j)).trans ?_
    by_cases hj : j = id
    · subst hj
      rw [Function.update_self, Function.update_self]
      rfl
    · rw [Function.update_of_ne hj, Function.update_of_ne hj]
      rfl

/-! ## Releasing and changing -/

lemma cell?_ne_live (hget : p.get? id = none) : b.cell? id ≠ some (.live a) := by
  rw [Ne, h.cell?_eq_live_iff, hget]
  exact nofun

/-- A slot is released, and leads to the one that was released before it. -/
lemma free? (hp : p.Sound) (hget : p.get? id = some a) :
    ∃ b', b.free? id = some (a, b') ∧ Lays b' (p.vacate id) := by
  have hid := hp.not_mem_released hget
  have hlive := Pool.live_vacate hget
  refine ⟨_, by rw [Blocks.free?, h.cell?_eq_live_iff.2 hget], ?_⟩
  refine h.setCell (q := p.vacate id) (Pool.lt_size_of_get? hget) rfl rfl
    Array.size_setIfInBounds Pool.get?_vacate
    (.cons (Function.update_self ..) (h.threaded.update hid _)) ?_
  rw [h.live]
  omega

lemma free?_none (hget : p.get? id = none) : b.free? id = none := by
  rw [Blocks.free?]
  split
  · rename_i a hcell
    exact absurd hcell (h.cell?_ne_live hget)
  · rfl

/-- A value is changed in place. -/
lemma change? (hp : p.Sound) (f : α → α) (hget : p.get? id = some a) :
    ∃ b', b.change? id f = some (a, b') ∧ Lays b' (p.put id (f a)) := by
  have hid := hp.not_mem_released hget
  refine ⟨_, by rw [Blocks.change?, h.cell?_eq_live_iff.2 hget], ?_⟩
  refine h.setCell (q := p.put id (f a)) (Pool.lt_size_of_get? hget) rfl rfl Pool.size_put
    (Pool.get?_put hget) (h.threaded.update hid _) ?_
  rw [h.live, Pool.live_put hget]

lemma change?_none (f : α → α) (hget : p.get? id = none) : b.change? id f = none := by
  rw [Blocks.change?]
  split
  · rename_i a hcell
    exact absurd hcell (h.cell?_ne_live hget)
  · rfl

end Lays

/-! ## Opening another slot -/

/-- Blocks of which the last has room: `n` of them are full, and `used` slots of the last are used.
-/
structure Roomy (b : Blocks α) (n used : Nat) : Prop where
  size : b.blocks.size = n + 1
  full : ∀ i < n, b.blocks[i]?.map Array.size = some b.blockLength
  last : b.blocks[n]?.map Array.size = some used

/-- The last block takes another slot, behind all that are in use. -/
lemma Roomy.cell?_push {n used : Nat} (h : Roomy b n used) (hused : used < b.blockLength)
    (cell : Cell α) :
    (b.push cell).cell? = Function.update b.cell? (n * b.blockLength + used) (some cell) := by
  obtain ⟨last, hlast, hlastSize⟩ := Option.map_eq_some_iff.1 h.last
  funext j
  simp only [cell?, push, h.size, Nat.add_sub_cancel, Array.getElem?_modify]
  by_cases hj : j = n * b.blockLength + used
  · have hdiv : j / b.blockLength = n := by
      rw [hj, Nat.mul_comm, Nat.mul_add_div (by omega), Nat.div_eq_of_lt hused, Nat.add_zero]
    have hmod : j % b.blockLength = used := by
      rw [hj, Nat.mul_comm, Nat.mul_add_mod, Nat.mod_eq_of_lt hused]
    rw [hdiv, hmod, if_pos rfl, hlast, hj, Function.update_self, Option.map_some,
      Option.bind_some, ← hlastSize, Array.getElem?_push_size]
  · rw [Function.update_of_ne hj]
    split
    · rename_i hdiv
      have hmod : j % b.blockLength ≠ last.size := by
        intro hmod
        apply hj
        rw [hdiv, ← hlastSize, ← hmod, Nat.mul_comm, Nat.div_add_mod]
      rw [cell?, ← hdiv, hlast, Option.map_some, Option.bind_some, Option.bind_some,
        Array.getElem?_push, if_neg hmod]
    · rfl

lemma Roomy.nextSlot_eq {n used : Nat} (h : Roomy b n used) :
    b.nextSlot = n * b.blockLength + used := by
  obtain ⟨last, hlast, hlastSize⟩ := Option.map_eq_some_iff.1 h.last
  rw [nextSlot, h.size, Nat.add_sub_cancel, Array.getD_eq_getD_getElem?, hlast, Option.getD_some,
    hlastSize]

lemma Roomy.push {n used : Nat} (h : Roomy b n used) : Roomy (b.push cell) n (used + 1) := by
  obtain ⟨last, hlast, hlastSize⟩ := Option.map_eq_some_iff.1 h.last
  refine ⟨Array.size_modify.trans h.size, fun i hi => ?_, ?_⟩
  · rw [Blocks.push, h.size, Nat.add_sub_cancel, Array.getElem?_modify, if_neg (by omega)]
    exact h.full i hi
  · rw [Blocks.push, h.size, Nat.add_sub_cancel, Array.getElem?_modify, if_pos rfl, hlast,
      Option.map_some, Option.map_some, Array.size_push, hlastSize]

/-- Blocks in which a value finds no slot are left as they are. -/
lemma eq_of_alloc_error {b' : Blocks α} {e : AllocError}
    (h : b.alloc a = some (.error e, b')) : b' = b := by
  unfold alloc at h
  split at h
  · split at h <;> cases h
  · split at h
    · cases h
    · cases h
      rfl

namespace Lays

variable (h : Lays b p)
include h

/-- The size of a block that is full. -/
lemma size_of_lt {i : Nat} (hi : i < p.slots.size / p.blockLength) :
    b.blocks[i]?.map Array.size = some p.blockLength := by
  have hle : (i + 1) * p.blockLength ≤ p.slots.size :=
    (Nat.le_div_iff_mul_le p.blockLength_pos).1 hi
  rw [Nat.add_mul, Nat.one_mul] at hle
  have hpos := p.blockLength_pos
  rw [h.sizes i (Pool.lt_blocks_iff.2 (by omega)), Nat.min_eq_left (by omega)]

/-- The size of the last block, if it is not full. -/
lemma size_of_mod (hmod : p.slots.size % p.blockLength ≠ 0) :
    b.blocks[p.slots.size / p.blockLength]?.map Array.size =
      some (p.slots.size % p.blockLength) := by
  have hlt := Nat.mod_lt p.slots.size p.blockLength_pos
  have hdiv := Nat.div_add_mod p.slots.size p.blockLength
  rw [Nat.mul_comm] at hdiv
  rw [h.sizes _ (by rw [Pool.blocks_eq, if_neg hmod]; omega)]
  congr 1
  omega

lemma isFull_iff : b.isFull ↔ p.slots.size % p.blockLength = 0 := by
  have hsize := h.blocks
  rw [Pool.blocks_eq] at hsize
  rw [isFull, Array.back?]
  by_cases hmod : p.slots.size % p.blockLength = 0
  · rw [if_pos hmod, Nat.add_zero] at hsize
    refine iff_of_true ?_ hmod
    by_cases hnone : p.slots.size / p.blockLength = 0
    · rw [Array.getElem?_eq_none (by omega)]
    · obtain ⟨block, hblock, hblockSize⟩ := Option.map_eq_some_iff.1
        (h.size_of_lt (i := b.blocks.size - 1) (by omega))
      rw [hblock]
      exact decide_eq_true (hblockSize.trans h.blockLength.symm)
  · rw [if_neg hmod] at hsize
    have hlt := Nat.mod_lt p.slots.size p.blockLength_pos
    refine iff_of_false ?_ hmod
    obtain ⟨block, hblock, hblockSize⟩ := Option.map_eq_some_iff.1 (h.size_of_mod hmod)
    have hne : block.size ≠ b.blockLength := by rw [hblockSize, h.blockLength]; omega
    rw [hsize, Nat.add_sub_cancel, hblock]
    simpa using hne

lemma grow_ok {b' : Blocks α} (hgrow : b.grow = .ok b') :
    Roomy b' (p.slots.size / p.blockLength) (p.slots.size % p.blockLength) ∧
      b'.cell? = b.cell? ∧ b' = { b with blocks := b'.blocks } := by
  have hsize := h.blocks
  rw [Pool.blocks_eq] at hsize
  unfold grow at hgrow
  split at hgrow
  · rename_i hfull
    rw [h.isFull_iff] at hfull
    rw [if_pos hfull, Nat.add_zero] at hsize
    split_ifs at hgrow
    cases hgrow
    refine ⟨⟨by rw [Array.size_push, hsize], fun i hi => ?_, ?_⟩, ?_, rfl⟩
    · rw [Array.getElem?_push, if_neg (by omega), h.size_of_lt hi, h.blockLength]
    · rw [Array.getElem?_push, if_pos hsize.symm, hfull]
      rfl
    · funext j
      simp only [cell?, Array.getElem?_push]
      split
      · rename_i hj
        rw [Array.getElem?_eq_none (Nat.le_of_eq hj.symm)]
        rfl
      · rfl
  · rename_i hfull
    rw [h.isFull_iff] at hfull
    cases hgrow
    rw [if_neg hfull] at hsize
    exact ⟨⟨hsize, fun i hi => h.blockLength ▸ h.size_of_lt hi, h.size_of_mod hfull⟩, rfl, rfl⟩

/-- Blocks and pool refuse another slot for the same reasons. -/
lemma grow_eq (hreleased : p.released = []) :
    match p.full? with
    | none => ∃ b', b.grow = .ok b'
    | some e => b.grow = .error e := by
  have hfull := h.isFull_iff
  rw [Pool.full?, grow, h.blocks, h.blockLength, h.blockLimit]
  by_cases hmod : p.slots.size % p.blockLength = 0
  · rw [if_pos (hfull.2 hmod), if_neg (by simp [hreleased, hmod])]
    split_ifs <;> first | rfl | exact ⟨_, rfl⟩
  · rw [if_neg (hmod ∘ hfull.1), if_pos (.inr hmod)]
    exact ⟨b, rfl⟩

/-- A slot is opened in the last block, or in a new one. -/
lemma carve_ok (hp : p.Sound) (hfull : p.full? = none) (hreleased : p.released = []) (a : α) :
    ∃ b', b.carve a = .ok (p.slots.size, b') ∧
      Lays { b' with live := b'.live + 1 } { p with slots := p.slots.push (some a) } := by
  have hgrow := h.grow_eq hreleased
  rw [hfull] at hgrow
  obtain ⟨b', hgrow⟩ := hgrow
  obtain ⟨hroomy, hcells, hb'⟩ := h.grow_ok hgrow
  have hlength : b'.blockLength = p.blockLength := by rw [hb']; exact h.blockLength
  have hpos := p.blockLength_pos
  have hmod := Nat.mod_lt p.slots.size hpos
  have hdiv : p.slots.size / p.blockLength * p.blockLength + p.slots.size % p.blockLength =
      p.slots.size := by rw [Nat.mul_comm, Nat.div_add_mod]
  have hpush := hroomy.cell?_push (hlength ▸ hmod) (.live a)
  rw [hlength, hdiv, hcells] at hpush
  have hplace : p.place a = (p.slots.size, { p with slots := p.slots.push (some a) }) := by
    rw [Pool.place, hreleased]
  have hvalues := (Pool.get?_of_place hp hplace).2
  have hcount : Pool.blocks { p with slots := p.slots.push (some a) } =
      p.slots.size / p.blockLength + 1 := by
    rw [Pool.blocks, Array.size_push, Nat.add_assoc, Nat.add_sub_cancel' hpos,
      Nat.add_div_right _ hpos]
  refine ⟨b'.push (.live a), ?_, hlength, ?_, ?_, fun i hi => ?_, ?_, ?_, ?_⟩
  · rw [carve, hgrow]
    refine congrArg (fun id => Except.ok (id, _)) ?_
    rw [hroomy.nextSlot_eq, hlength, hdiv]
  · rw [← h.blockLimit, hb']
    rfl
  · exact hroomy.push.size.trans hcount.symm
  · rw [hcount] at hi
    change (b'.push _).blocks[i]?.map Array.size =
      some (min p.blockLength ((p.slots.push (some a)).size - i * p.blockLength))
    rw [Array.size_push]
    by_cases hlast : i = p.slots.size / p.blockLength
    · refine (hlast ▸ hroomy.push.last).trans ?_
      rw [hlast]
      congr 1
      omega
    · refine (hroomy.push.full i (by omega)).trans ?_
      have hle : (i + 1) * p.blockLength ≤ p.slots.size :=
        (Nat.le_div_iff_mul_le hpos).1 (by omega)
      rw [Nat.add_mul, Nat.one_mul] at hle
      rw [Nat.min_eq_left (by omega)]
      exact congrArg some hlength
  · funext j
    rw [hvalues, ← h.values]
    refine (congrArg (Option.bind · Cell.value?) (congrFun hpush j)).trans ?_
    by_cases hj : j = p.slots.size
    · rw [hj, Function.update_self, Function.update_self]
      rfl
    · rw [Function.update_of_ne hj, Function.update_of_ne hj]
      rfl
  · have hfree : b'.free = none := by
      rw [hb']
      exact (hreleased ▸ h.threaded).head_nil
    rw [show (Pool.mk _ _ _ _ _ : Pool α).released = [] from hreleased]
    exact hfree ▸ .nil
  · rw [Pool.live_place hp hplace, ← h.live, hb']
    rfl

lemma alloc (hp : p.Sound) (a : α) :
    ∃ b', b.alloc a = some ((p.alloc a).1, b') ∧ Lays b' (p.alloc a).2 := by
  cases hreleased : p.released with
  | cons id rest =>
    have hfull : p.full? = none := by rw [Pool.full?, if_pos (.inl (by simp [hreleased]))]
    have hplace : p.place a = (id, { p with
        slots := p.slots.setIfInBounds id (some a), released := rest }) := by
      rw [Pool.place, hreleased]
    have hnodup := hp.nodup
    rw [hreleased, List.nodup_cons] at hnodup
    obtain ⟨next, hfree, hcell, hrest⟩ := (hreleased ▸ h.threaded).head_cons
    rw [Pool.alloc, hfull, hplace, Blocks.alloc, hfree]
    dsimp only
    rw [hcell]
    refine ⟨_, rfl, h.setCell (q := { p with
      slots := p.slots.setIfInBounds id (some a), released := rest })
        (hp.vacant id (by simp [hreleased])).1 rfl rfl
      Array.size_setIfInBounds (Pool.get?_of_place hp hplace).2 (hrest.update hnodup.1 _) ?_⟩
    rw [Pool.live_place hp hplace, h.live]
  | nil =>
    have hfree : b.free = none := (hreleased ▸ h.threaded).head_nil
    rw [Blocks.alloc, hfree]
    dsimp only
    cases hfull : p.full? with
    | some e =>
      have halloc : p.alloc a = (.error e, p) := by rw [Pool.alloc, hfull]
      have hgrow := h.grow_eq hreleased
      rw [hfull] at hgrow
      rw [carve, hgrow, halloc]
      exact ⟨b, rfl, h⟩
    | none =>
      have halloc : p.alloc a = (.ok p.slots.size, { p with slots := p.slots.push (some a) }) := by
        rw [Pool.alloc, hfull, Pool.place, hreleased]
      obtain ⟨b', hcarve, hb'⟩ := h.carve_ok hp hfull hreleased a
      rw [hcarve, halloc]
      exact ⟨_, rfl, hb'⟩

/-- Blocks in which there is no room are left as they are. -/
lemma alloc_error_iff (hp : p.Sound) {e : AllocError} :
    b.alloc a = some (.error e, b) ↔ p.alloc a = (.error e, p) := by
  obtain ⟨b', hb', hlays⟩ := h.alloc hp a
  rw [hb']
  constructor
  · intro halloc
    have he : (p.alloc a).1 = .error e := congrArg Prod.fst (Option.some.inj halloc)
    exact Prod.ext he (Pool.eq_of_alloc_error he)
  · intro halloc
    rw [halloc] at hb'
    rw [halloc, eq_of_alloc_error hb']

end Lays

end Blocks

end Rewind
