import Rewind.Proofs.Flat
import Rewind.Proofs.Slots
import Rewind.Proofs.Veil

/-!
# What a log can count on

Taking back what a caller pushed removes items from the stream by their number, so they have to be
at hand.  They are, because whatever was taken from the stream after the push has been returned
before: the text of a token with the token's node, which the log knows by its slot.

`Stocked` says what this takes.  The nodes in the slots of the log are live, each slot was used
once, tokens that a caller queued have nothing below them but ignored tokens they were shifted with,
and all that taking back removes is covered by what is at hand and what is returned before.
-/

namespace Rewind

namespace Run

open Attempt Op

/-! ## What taking back removes and returns -/

/-- The number of items that taking the record back removes from the stream. -/
def Record.removed (record : Record) : Nat :=
  record.removes?.getD 0

/-- The number of items that taking the record back returns to the stream. -/
def Record.returned (f : Forest) : Record → Nat
  | .scanned id _ | .setAside id _ => ((Pool.get? f id).map Node.text).elim 0 List.length
  | .treeTaken _ _ => 1
  | .consumed text _ => text.length
  | _ => 0

/-- The token that took ignored tokens when it was put on the stack. -/
def Record.laden? : Record → Option NodeId
  | .shifted id _ (some _) _ _ => some id
  | _ => none

/-- All that taking back removes is at hand by then, if so many items are at hand now. -/
def Provides (f : Forest) : List Record → Nat → Prop
  | [], _ => True
  | record :: older, count => record.removed ≤ count ∧
      Provides f older (count - record.removed + record.returned f)

/-- The token has nothing below it but ignored tokens, which it has if it was shifted with them. -/
def Childless (f : Forest) (newer : List Record) (id : NodeId) : Prop :=
  ∃ n, Pool.get? f id = some n ∧ n.child = none ∧
    (n.ignored = none ∨ ∃ record ∈ newer, record.laden? = some id)

/-- The log can count on the nodes that it tells of, and on so many items at hand. -/
structure Stocked (records : List Record) (f : Forest) (count : Nat) : Prop where
  sound : Pool.Sound f
  nodup : (used records).Nodup
  live : ∀ id ∈ used records, (Pool.get? f id).isSome
  bare : ∀ newer id older, records = newer ++ .sent id :: older → Childless f newer id
  covered : Provides f records count

/-- Nodes in these slots have kept their text and what is below them.  Ignored tokens may have been
given to one of them, or taken from it. -/
def Preserves (ids : List NodeId) (laden : Option NodeId) (f g : Forest) : Prop :=
  ∀ id ∈ ids, ∀ n, Pool.get? f id = some n → ∃ n', Pool.get? g id = some n' ∧
    n'.text = n.text ∧ n'.child = n.child ∧
      (n'.ignored = n.ignored ∨ n'.ignored = none ∨ laden = some id)

variable {f g : Forest} {records older : List Record} {record : Record} {count more : Nat}
  {id : NodeId} {n : Node} {ids : List NodeId} {laden : Option NodeId}

lemma mem_used_of_slot (hmem : record ∈ records) (hslot : record.slot? = some id) :
    id ∈ used records :=
  List.mem_reverse.2 (List.mem_filterMap.2 ⟨record, hmem, hslot⟩)

lemma mem_used_of_sent {newer : List Record} (h : records = newer ++ .sent id :: older) :
    id ∈ used records :=
  mem_used_of_slot (h ▸ List.mem_append_right _ List.mem_cons_self) rfl

/-- A text that is returned is that of a node in a slot of the log. -/
lemma returned_congr (hslot : ∀ id, record.slot? = some id →
    (Pool.get? g id).map Node.text = (Pool.get? f id).map Node.text) :
    record.returned g = record.returned f := by
  cases record with
  | scanned id start => simp only [Record.returned, hslot id rfl]
  | setAside id start => simp only [Record.returned, hslot id rfl]
  | _ => rfl

lemma Provides.mono (h : Provides f records count) (hmore : count ≤ more) :
    Provides f records more := by
  induction records generalizing count more with
  | nil => trivial
  | cons record older ih => exact ⟨Nat.le_trans h.1 hmore, ih h.2 (by omega)⟩

lemma Provides.congr (h : Provides f records count) (hsame : ∀ id ∈ used records,
    (Pool.get? g id).map Node.text = (Pool.get? f id).map Node.text) :
    Provides g records count := by
  induction records generalizing count with
  | nil => trivial
  | cons record older ih =>
    have hrecord : record.returned g = record.returned f := returned_congr fun id hslot =>
      hsame id (mem_used_of_slot List.mem_cons_self hslot)
    refine ⟨h.1, ?_⟩
    rw [hrecord]
    exact ih h.2 fun id hid => hsame id (by rw [used_cons]; exact List.mem_append_left _ hid)

namespace Preserves

lemma refl (ids : List NodeId) (laden : Option NodeId) (f : Forest) : Preserves ids laden f f :=
  fun _ _ n hn => ⟨n, hn, rfl, rfl, .inl rfl⟩

lemma live (h : Preserves ids laden f g) (hid : id ∈ ids) (hlive : (Pool.get? f id).isSome) :
    (Pool.get? g id).isSome := by
  obtain ⟨n, hn⟩ := Option.isSome_iff_exists.1 hlive
  obtain ⟨n', hn', -⟩ := h id hid n hn
  rw [hn']
  rfl

lemma text (h : Preserves ids laden f g) (hid : id ∈ ids) (hlive : (Pool.get? f id).isSome) :
    (Pool.get? g id).map Node.text = (Pool.get? f id).map Node.text := by
  obtain ⟨n, hn⟩ := Option.isSome_iff_exists.1 hlive
  obtain ⟨n', hn', htext, -⟩ := h id hid n hn
  rw [hn, hn', Option.map_some, Option.map_some, htext]

/-- Changing a node leaves all others alone. -/
lemma put {n' : Node} (hn : Pool.get? f id = some n) (htext : n'.text = n.text)
    (hchild : n'.child = n.child)
    (hignored : n'.ignored = n.ignored ∨ n'.ignored = none ∨ laden = some id) :
    Preserves ids laden f (f.put id n') := by
  intro j _ n'' hn''
  by_cases hj : j = id
  · subst hj
    obtain rfl : n = n'' := Option.some.inj (hn.symm.trans hn'')
    exact ⟨n', Pool.get?_put_self hn, htext, hchild, hignored⟩
  · exact ⟨n'', (Pool.get?_put_of_ne hj).trans hn'', rfl, rfl, .inl rfl⟩

/-- Releasing a node leaves all others alone. -/
lemma vacate (hid : id ∉ ids) : Preserves ids laden f (f.vacate id) := by
  intro j hj n hn
  have hne : j ≠ id := by
    rintro rfl
    exact hid hj
  exact ⟨n, (Pool.get?_vacate_of_ne hne).trans hn, rfl, rfl, .inl rfl⟩

lemma trans {f' : Forest} (h : Preserves ids none f g) (h' : Preserves ids none g f') :
    Preserves ids none f f' := by
  intro id hid n hn
  obtain ⟨n₁, hn₁, htext₁, hchild₁, hignored₁⟩ := h id hid n hn
  obtain ⟨n₂, hn₂, htext₂, hchild₂, hignored₂⟩ := h' id hid n₁ hn₁
  refine ⟨n₂, hn₂, htext₂.trans htext₁, hchild₂.trans hchild₁, ?_⟩
  grind

/-- So does giving a node a slot. -/
lemma alloc (hf : Pool.Sound f) (halloc : Pool.alloc f n = (.ok id, g)) :
    Preserves ids laden f g := by
  obtain ⟨hvacant, hget⟩ := Pool.get?_of_alloc hf halloc
  intro j _ n' hn'
  refine ⟨n', ?_, rfl, rfl, .inl rfl⟩
  rw [hget, Function.update_of_ne, hn']
  rintro rfl
  rw [hvacant] at hn'
  cases hn'

end Preserves

namespace Stocked

/-- An empty log counts on nothing. -/
lemma of_nil (hf : Pool.Sound f) (count : Nat) : Stocked [] f count where
  sound := hf
  nodup := List.nodup_nil
  live := by
    intro id hid
    cases hid
  bare := by
    intro newer id older h
    cases newer <;> cases h
  covered := trivial

/-- Nodes may be changed as long as the log can count on them, and more may come to hand. -/
lemma keep (h : Stocked records f count) (hg : Pool.Sound g)
    (hkept : Preserves (used records) none f g) (hmore : count ≤ more) :
    Stocked records g more where
  sound := hg
  nodup := h.nodup
  live id hid := hkept.live hid (h.live id hid)
  bare newer id older hrecords := by
    obtain ⟨n, hn, hchild, hignored⟩ := h.bare newer id older hrecords
    have hid : id ∈ used records := mem_used_of_sent hrecords
    obtain ⟨n', hn', -, hchild', hsame | hnone | hladen⟩ := hkept id hid n hn
    · exact ⟨n', hn', hchild'.trans hchild, hsame ▸ hignored⟩
    · exact ⟨n', hn', hchild'.trans hchild, .inl hnone⟩
    · cases hladen
  covered := (h.covered.congr fun id hid => hkept.text hid (h.live id hid)).mono hmore

/-- A record may be written that tells of a new slot or of none. -/
lemma next (h : Stocked records f count) (hg : Pool.Sound g)
    (hkept : Preserves (used records) record.laden? f g)
    (hslot : ∀ id, record.slot? = some id → Pool.get? f id = none ∧ ∃ n, Pool.get? g id = some n ∧
      (record = .sent id → n.child = none ∧ n.ignored = none))
    (hremoved : record.removed ≤ more)
    (hreturned : count ≤ more - record.removed + record.returned g) :
    Stocked (record :: records) g more where
  sound := hg
  nodup := by
    rw [used_cons]
    refine List.nodup_append.2 ⟨h.nodup, by cases record.slot? <;> simp, ?_⟩
    rintro id hid _ hslot' rfl
    obtain ⟨hvacant, -⟩ := hslot id (by simpa using hslot')
    have hlive := h.live id hid
    rw [hvacant] at hlive
    cases hlive
  live id hid := by
    rw [used_cons] at hid
    rcases List.mem_append.1 hid with hid | hid
    · exact hkept.live hid (h.live id hid)
    · obtain ⟨-, n, hn, -⟩ := hslot id (by simpa using hid)
      rw [hn]
      rfl
  bare newer id older hrecords := by
    rcases newer with _ | ⟨first, newer⟩
    · obtain ⟨rfl, -⟩ := List.cons.inj hrecords
      obtain ⟨-, n, hn, hnew⟩ := hslot id rfl
      exact ⟨n, hn, (hnew rfl).1, .inl (hnew rfl).2⟩
    · obtain ⟨rfl, hrest⟩ := List.cons.inj hrecords
      obtain ⟨n, hn, hchild, hignored⟩ := h.bare newer id older hrest
      have hid : id ∈ used records := mem_used_of_sent hrest
      obtain ⟨n', hn', -, hchild', hsame | hnone | hladen⟩ := hkept id hid n hn
      · refine ⟨n', hn', hchild'.trans hchild, ?_⟩
        rw [hsame]
        exact hignored.imp (fun hnone => hnone) fun ⟨record, hmem, hladen⟩ =>
          ⟨record, .tail _ hmem, hladen⟩
      · exact ⟨n', hn', hchild'.trans hchild, .inl hnone⟩
      · exact ⟨n', hn', hchild'.trans hchild, .inr ⟨record, .head _, hladen⟩⟩
  covered := ⟨hremoved,
    (h.covered.congr fun id hid => hkept.text hid (h.live id hid)).mono hreturned⟩

/-- The newest record may be taken back, if that returns what it should. -/
lemma back (h : Stocked (record :: older) f count) (hg : Pool.Sound g)
    (hkept : Preserves (used older) none f g)
    (hunladen : ∀ id n, record.laden? = some id → Pool.get? g id = some n → n.ignored = none)
    (hmore : count - record.removed + record.returned f ≤ more) : Stocked older g more := by
  have hlive (id : NodeId) (hid : id ∈ used older) : (Pool.get? f id).isSome :=
    h.live id (by rw [used_cons]; exact List.mem_append_left _ hid)
  have hnodup := h.nodup
  rw [used_cons] at hnodup
  refine ⟨hg, (List.nodup_append.1 hnodup).1, fun id hid => hkept.live hid (hlive id hid),
    fun newer id rest hrecords => ?_,
    (h.covered.2.congr fun id hid => hkept.text hid (hlive id hid)).mono hmore⟩
  obtain ⟨n, hn, hchild, hignored⟩ := h.bare (record :: newer) id rest (by rw [hrecords]; rfl)
  have hid : id ∈ used older := mem_used_of_sent hrecords
  obtain ⟨n', hn', -, hchild', hsame | hnone | hladen⟩ := hkept id hid n hn
  · refine ⟨n', hn', hchild'.trans hchild, ?_⟩
    rcases hignored with hignored | ⟨first, hmem, hladen⟩
    · exact .inl (hsame.trans hignored)
    · rcases List.mem_cons.1 hmem with rfl | hmem
      · exact .inl (hunladen id n' hladen hn')
      · exact .inr ⟨first, hmem, hladen⟩
  · exact ⟨n', hn', hchild'.trans hchild, .inl hnone⟩
  · cases hladen

/-- The slot of the newest record is no slot of the others. -/
lemma fresh (h : Stocked (record :: older) f count) (hslot : record.slot? = some id) :
    id ∉ used older := by
  have hnodup := h.nodup
  rw [used_cons, hslot] at hnodup
  exact fun hid => (List.nodup_append.1 hnodup).2.2 id hid id (by simp) rfl

end Stocked

end Run

end Rewind
