import Rewind.Proofs.Climbing
import Rewind.Proofs.Forward

/-!
# Runs and their lineage

A run `Descends` from a base if its log is a lineage that leads to its bare view, whatever became of
its streams.  Moves forward write the lineage down, one record after another.

What is ahead may not be what the lane leads to expect, since streams come and go, but it begins so,
and no tree behind that is one that the log still tells was pushed.
-/

namespace Rewind

/-- What is removed from the front was in front, unless all that is at hand is removed. -/
lemma Stream.removed (n : Nat) (s : Stream) :
    (s.pushback n).2.content = s.content.drop n ∨ trees (s.pushback n).2.content = [] := by
  have hcontent : (s.pushback n).2.content = s.buffered.drop n ++ s.unread.map Item.byte := rfl
  rcases Nat.le_total n s.buffered.length with hn | hn
  · left
    rw [hcontent, content, List.drop_append_of_le_length hn]
  · right
    rw [hcontent, List.drop_eq_nil_of_le hn, ← List.append_nil (_ ++ _), List.nil_append,
      trees_bytes_append]
    rfl

namespace Run

variable {m : Machine} {base : View} {r s t : Run} {loose : List NodeId} {kept lane : List Item}
  {records older : List Record} {record : Record} {content lane' : List Item} {id : NodeId}
  {ignore : Bool} {text : Bytes}

/-! ## Streams and lanes -/

/-- The content begins as the lane does, and behind that there is no tree that the log tells was
pushed. -/
def Fits (records : List Record) (content lane : List Item) : Prop :=
  ∃ front rest beyond, content = front ++ rest ∧ lane = front ++ beyond ∧
    ∀ id ∈ trees rest, .treePushed id ∉ records

namespace Fits

/-- Any lane fits where there are no trees. -/
lemma of_treeless (h : trees content = []) : Fits records content lane :=
  ⟨[], content, lane, rfl, rfl, fun id hid => by simp [h] at hid⟩

lemma write (h : Fits older content lane) (hnew : ∀ id ∈ trees content, record ≠ .treePushed id) :
    Fits (record :: older) content lane := by
  obtain ⟨front, rest, beyond, rfl, rfl, hrest⟩ := h
  refine ⟨front, rest, beyond, rfl, rfl, fun id hid => ?_⟩
  rw [List.mem_cons, not_or]
  refine ⟨fun heq => hnew id ?_ heq.symm, hrest id hid⟩
  rw [trees_append]
  exact List.mem_append_right _ hid

lemma unwrite (h : Fits (record :: older) content lane) : Fits older content lane := by
  obtain ⟨front, rest, beyond, hcontent, hlane, hrest⟩ := h
  exact ⟨front, rest, beyond, hcontent, hlane, fun id hid hmem =>
    hrest id hid (List.mem_cons_of_mem _ hmem)⟩

lemma push (h : Fits records content lane) (items : List Item) :
    Fits records (items ++ content) (items ++ lane) := by
  obtain ⟨front, rest, beyond, rfl, rfl, hrest⟩ := h
  exact ⟨items ++ front, rest, beyond, by rw [List.append_assoc], by rw [List.append_assoc], hrest⟩

/-- Items are taken.  The lane has them in front too, unless it is not of this stream any more. -/
lemma take (items : List Item) (h : Fits records (items ++ content) lane) :
    (∃ lane', lane = items ++ lane' ∧ Fits records content lane') ∨
      Fits records content [] ∧ ∃ front rest, items ++ content = front ++ rest ∧
        front.length < items.length ∧ ∀ id ∈ trees rest, .treePushed id ∉ records := by
  obtain ⟨front, rest, beyond, hcontent, rfl, hrest⟩ := h
  rcases List.append_eq_append_iff.1 hcontent with ⟨more, rfl, rfl⟩ | ⟨more, rfl, rfl⟩
  · exact .inl ⟨more ++ beyond, List.append_assoc .., more, rest, beyond, rfl, rfl, hrest⟩
  · cases more with
    | nil => exact .inl ⟨beyond, by simp, [], content, beyond, rfl, rfl, by simpa using hrest⟩
    | cons item more =>
      refine .inr ⟨⟨[], content, [], rfl, rfl, fun id hid => hrest id ?_⟩, front,
        item :: more ++ content, by simp, by simp, hrest⟩
      rw [trees_append]
      exact List.mem_append_right _ hid

lemma feeds (h : Fits records (text.map .byte ++ content) lane) :
    ∃ lane', Feeds text lane lane' ∧ Fits records content lane' := by
  rcases h.take _ with ⟨lane', hlane, hfits⟩ | ⟨hfits, -⟩
  · exact ⟨lane', .inl hlane, hfits⟩
  · exact ⟨[], .inr rfl, hfits⟩

lemma picks (h : Fits records (.tree id ignore :: content) lane) :
    ∃ lane', Picks records id ignore lane lane' ∧ Fits records content lane' := by
  rcases h.take [.tree id ignore] with
    ⟨lane', hlane, hfits⟩ | ⟨hfits, front, rest, heq, hlength, hrest⟩
  · exact ⟨lane', .inl hlane, hfits⟩
  · obtain rfl : front = [] := List.eq_nil_of_length_eq_zero (by simpa using hlength)
    refine ⟨[], .inr ⟨rfl, hrest id ?_⟩, hfits⟩
    rw [← List.nil_append rest, ← heq]
    exact List.mem_cons_self

/-- Text is put back. -/
lemma unfeeds (h : Fits records content lane') (hfeeds : Feeds text lane lane') :
    Fits records (text.map .byte ++ content) lane := by
  rcases hfeeds with rfl | rfl
  · exact h.push _
  · obtain ⟨front, rest, beyond, rfl, hlane, hrest⟩ := h
    obtain ⟨rfl, rfl⟩ := List.append_eq_nil_iff.1 hlane.symm
    exact ⟨[], text.map .byte ++ rest, lane, rfl, rfl, by simpa using hrest⟩

/-- A tree is put back. -/
lemma unpicks (h : Fits records content lane') (hpicks : Picks records id ignore lane lane') :
    Fits records (.tree id ignore :: content) lane := by
  rcases hpicks with rfl | ⟨rfl, hid⟩
  · exact h.push [.tree id ignore]
  · obtain ⟨front, rest, beyond, rfl, hlane, hrest⟩ := h
    obtain ⟨rfl, rfl⟩ := List.append_eq_nil_iff.1 hlane.symm
    refine ⟨[], .tree id ignore :: rest, lane, rfl, rfl, fun j hj => ?_⟩
    rcases List.mem_cons.1 hj with rfl | hj
    · exact hid
    · exact hrest j hj

/-- What was pushed is removed. -/
lemma drop (items : List Item) (h : Fits records content (items ++ lane)) :
    Fits records (content.drop items.length) lane := by
  obtain ⟨front, rest, beyond, rfl, hlane, hrest⟩ := h
  rcases List.append_eq_append_iff.1 hlane with ⟨more, rfl, rfl⟩ | ⟨more, rfl, rfl⟩
  · exact ⟨more, rest, beyond, by simp, rfl, hrest⟩
  · refine ⟨[], rest.drop more.length, lane, ?_, rfl, fun id hid => hrest id ?_⟩
    · simp
    · rw [← List.take_append_drop more.length rest, trees_append]
      exact List.mem_append_right _ hid

/-- A tree that was pushed is gone once it is removed. -/
lemma removes (h : Fits (.treePushed id :: older) content (.tree id ignore :: lane))
    (hnodup : id ∉ trees lane) : id ∉ trees (content.drop 1) := by
  obtain ⟨front, rest, beyond, rfl, hlane, hrest⟩ := h
  have hgone : id ∉ trees rest := fun hmem => hrest id hmem List.mem_cons_self
  cases front with
  | nil =>
    refine fun hmem => hgone ?_
    rw [← List.take_append_drop 1 rest, trees_append]
    exact List.mem_append_right _ hmem
  | cons item front =>
    obtain ⟨rfl, rfl⟩ := List.cons.inj hlane
    change id ∉ trees (front ++ beyond) at hnodup
    rw [trees_append, List.mem_append, not_or] at hnodup
    change id ∉ trees (front ++ rest)
    rw [trees_append, List.mem_append, not_or]
    exact ⟨hnodup.1, hgone⟩

end Fits

/-! ## Descent -/

/-- The log of a run is a lineage that leads from the base to its bare view, and what is ahead is
what the lane leads to expect.  The trees ahead are loose, each of them once. -/
structure Descends (m : Machine) (base : View) (kept : List Item) (loose : List NodeId)
    (lane : List Item) (r : Run) : Prop where
  pool : Pool.Sound r.forest
  lineage : Lineage m base r.log.records (r.bare loose) lane
  nodup : (trees (r.ahead kept)).Nodup
  loose : ∀ id ∈ trees (r.ahead kept), id ∈ loose
  fits : Fits r.log.records (r.ahead kept) lane

namespace Descends

variable {loose' : List NodeId}

lemma owned (h : Descends m base kept loose lane r) (hbase : Owned [] base) :
    Owned r.log.records (r.bare loose) :=
  h.lineage.owned hbase

lemma orderly (h : Descends m base kept loose lane r) (hbase : Owned [] base) :
    Orderly (r.bare loose) :=
  (h.owned hbase).orderly

lemma tidy (h : Descends m base kept loose lane r) : Tidy False (r.inFront loose) :=
  tidy_inFront h.pool loose

/-- What neither the log tells of nor the bare view shows may change. -/
lemma quiet {kept' : List Item} (h : Descends m base kept loose lane r)
    (hforest : s.forest = r.forest) (hlog : s.log = r.log) (hview : s.bare loose = r.bare loose)
    (hahead : s.ahead kept' = r.ahead kept) : Descends m base kept' loose lane s := by
  refine ⟨hforest ▸ h.pool, ?_, hahead ▸ h.nodup, hahead ▸ h.loose, ?_⟩
  · rw [hlog, hview]
    exact h.lineage
  · rw [hlog, hahead]
    exact h.fits

/-- There may be another stream, if it holds no trees. -/
lemma treeless {kept' : List Item} (h : Descends m base kept loose lane r)
    (hforest : s.forest = r.forest) (hlog : s.log = r.log) (hview : s.bare loose = r.bare loose)
    (htreeless : trees (s.ahead kept') = []) : Descends m base kept' loose lane s := by
  refine ⟨hforest ▸ h.pool, ?_, htreeless.symm ▸ .nil, fun id hid => ?_, .of_treeless htreeless⟩
  · rw [hlog, hview]
    exact h.lineage
  · rw [htreeless] at hid
    cases hid

/-- A change is written down that takes something from the stream. -/
lemma alters {v : View} {lane' : List Item} (h : Descends m base kept loose lane r)
    (halters : Alters m r.log.records record (r.bare loose) lane v lane')
    (hlog : s.log = r.log.append record) (hview : s.bare loose' = v) (hpool : Pool.Sound s.forest)
    (hnodup : (trees (s.ahead kept)).Nodup)
    (hloose : ∀ id ∈ trees (s.ahead kept), id ∈ loose')
    (hfits : Fits (record :: r.log.records) (s.ahead kept) lane') :
    Descends m base kept loose' lane' s := by
  have hrecords : s.log.records = record :: r.log.records := congrArg Journal.records hlog
  refine ⟨hpool, ?_, hnodup, hloose, hrecords ▸ hfits⟩
  rw [hrecords, hview]
  exact .alters h.lineage halters

/-- A change is written down that has nothing to do with the stream. -/
lemma inward {length : Nat} (h : Descends m base kept loose lane r)
    (hchange : Change m False 0 length record (r.bare loose) (s.bare loose))
    (hinward : record.isInward = true) (hlog : s.log = r.log.append record)
    (hpool : Pool.Sound s.forest) (hahead : s.ahead kept = r.ahead kept) :
    Descends m base kept loose lane s := by
  refine h.alters (.inward hinward hchange) hlog rfl hpool ?_ ?_ ?_ <;> rw [hahead]
  · exact h.nodup
  · exact h.loose
  · exact h.fits.write fun id _ heq => by
      subst heq
      cases hinward

lemma writes {v : View} (h : Descends m base kept loose lane r)
    (hwrites : Writes m False record (r.inFront loose) v (s.inFront loose))
    (hinward : record.isInward = true) (hahead : s.ahead kept = r.ahead kept) :
    Descends m base kept loose lane s :=
  h.inward (hwrites.view ▸ hwrites.change) hinward hwrites.log hwrites.tidy.pool hahead

end Descends

end Run

end Rewind
