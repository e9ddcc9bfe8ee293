import Mathlib.Data.List.Basic
import Rewind.Stream.Content

/-!
# What streams keep

Reading ahead brings bytes to hand and changes nothing else (`Extends`).  Every other operation of a
stream adds items to its content or removes them, always at the front, and the operation that takes
it back restores the content.  The one operation that depends on how much is at hand is `pushback`,
which is exact as long as what it removes has been at hand before.
-/

namespace Rewind.Stream

variable {s t u : Stream}

/-- The second stream is the first with more bytes at hand. -/
structure Extends (s t : Stream) : Prop where
  content : t.content = s.content
  position : t.position = s.position
  unread : t.unread.length ≤ s.unread.length
  ended : s.sourceEnded = true → t.sourceEnded = true
  buffered : ∃ more, t.buffered = s.buffered ++ more

namespace Extends

lemma refl (s : Stream) : s.Extends s :=
  ⟨rfl, rfl, Nat.le_refl _, id, [], by simp⟩

lemma trans (h : s.Extends t) (h' : t.Extends u) : s.Extends u := by
  obtain ⟨more, hmore⟩ := h.buffered
  obtain ⟨more', hmore'⟩ := h'.buffered
  exact ⟨h'.content.trans h.content, h'.position.trans h.position, Nat.le_trans h'.unread h.unread,
    fun hended => h'.ended (h.ended hended), more ++ more',
    by rw [hmore', hmore, List.append_assoc]⟩

end Extends

/-- What a source delivered and what it will deliver are what it promised. -/
lemma length_promised_fetch (n : Nat) (source : List Delivery) :
    (if (fetch n source).ended then [] else promised (fetch n source).source).length ≤
      (promised source).length := by
  rw [← promised_fetch n source, List.length_append]
  omega

/-- A source that delivers less than was asked for has failed or ended. -/
lemma le_length_fetch (n : Nat) (source : List Delivery) :
    n ≤ (fetch n source).bytes.length ∨ (fetch n source).ended = true ∨
      (fetch n source).failure.isSome = true := by
  fun_induction fetch n source with
  | case1 source => simp
  | case2 => simp
  | case3 n source ih => exact ih
  | case4 => simp
  | case5 => simp
  | case6 n bytes source hne hle more ih =>
    rcases ih with ih | ih | ih
    · left
      simp only [List.length_append, more]
      omega
    · exact .inr (.inl ih)
    · exact .inr (.inr ih)
  | case7 n bytes source hne hlt =>
    left
    simp only [List.length_take]
    omega

lemma extends_of_pull {n k : Nat} (h : pull n s = .ok k t) :
    s.Extends t ∧ (s.buffered.length + n ≤ t.buffered.length ∨ t.sourceEnded = true) := by
  obtain ⟨hcontent, hposition⟩ := pull_ok h
  unfold pull at h
  split at h
  · rename_i hended
    cases h
    exact ⟨.refl s, .inr hended⟩
  · rename_i hended
    dsimp only at h
    split at h
    · cases h
    · rename_i hfailure
      cases h
      refine ⟨⟨hcontent, hposition, ?_, fun hsource => absurd hsource hended, _, rfl⟩, ?_⟩
      · simpa [unread, hended] using length_promised_fetch n s.source
      · rcases le_length_fetch n s.source with hle | hended' | hfailed
        · left
          simp only [List.length_append, List.length_map]
          omega
        · exact .inr hended'
        · simp [hfailure] at hfailed

/-- The item seen ahead is the one the content has there, and where there is none the source has
ended. -/
lemma extends_of_peek {offset : Nat} {item : Option Item} (h : peek offset s = .ok item t) :
    s.Extends t ∧ t.buffered[offset]? = item ∧ s.content[offset]? = item ∧
      (item = none → t.sourceEnded = true) := by
  have hitem := (peek_ok h).2.2
  unfold peek at h
  split at h
  · rename_i ahead hahead
    cases h
    have hlt := (List.getElem?_eq_some_iff.1 hahead).1
    exact ⟨.refl s, hahead, by rw [content, List.getElem?_append_left hlt, hahead], by simp⟩
  · rename_i hahead
    have hlength := List.getElem?_eq_none_iff.1 hahead
    split at h
    · rename_i k t' hpull
      cases h
      obtain ⟨hextends, hlong | hended⟩ := extends_of_pull hpull
      · have hlt : offset < t.buffered.length := by omega
        refine ⟨hextends, rfl, ?_, fun hnone => ?_⟩
        · rw [← hextends.content, content, List.getElem?_append_left hlt]
        · have hle := List.getElem?_eq_none_iff.1 hnone
          omega
      · refine ⟨hextends, rfl, ?_, fun _ => hended⟩
        have hunread : t.unread = [] := by simp [unread, hended]
        rw [← hextends.content, content, hunread, List.map_nil, List.append_nil]
    · cases h

/-! ## Streams of one content -/

/-- The first stream holds what the second one holds, and has as much of it at hand or more. -/
structure Supplies (s t : Stream) : Prop where
  content : s.content = t.content
  unread : s.unread.length ≤ t.unread.length
  ended : t.sourceEnded = true → s.sourceEnded = true

lemma Supplies.of_extends (h : s.Supplies u) (hextends : t.Extends u) : s.Supplies t :=
  ⟨h.content.trans hextends.content, Nat.le_trans h.unread hextends.unread,
    fun hended => h.ended (hextends.ended hended)⟩

/-- What is at hand in a stream is at hand in one that supplies it. -/
lemma buffered_of_supplies (h : s.Supplies t) : ∃ more, s.buffered = t.buffered ++ more := by
  have hcontent := h.content
  have hunread := h.unread
  have hlength : t.buffered.length ≤ s.buffered.length := by
    have hlengths := congrArg List.length hcontent
    simp only [content, List.length_append, List.length_map] at hlengths
    omega
  refine ⟨s.buffered.drop t.buffered.length, ?_⟩
  have htake := congrArg (List.take t.buffered.length) hcontent
  rw [content, content, List.take_append_of_le_length hlength, List.take_left] at htake
  calc s.buffered
    _ = s.buffered.take t.buffered.length ++ s.buffered.drop t.buffered.length :=
      (List.take_append_drop _ _).symm
    _ = t.buffered ++ s.buffered.drop t.buffered.length := by rw [htake]

/-- What a stream has seen ahead is at hand in one that supplies it. -/
lemma peek_supplied {offset : Nat} {item : Option Item} (h : peek offset s = .ok item t)
    (hsupplies : u.Supplies t) : peek offset u = .ok item u := by
  obtain ⟨-, hitem, -, hended⟩ := extends_of_peek h
  obtain ⟨more, hmore⟩ := buffered_of_supplies hsupplies
  unfold peek
  cases item with
  | some item =>
    have hlt := (List.getElem?_eq_some_iff.1 hitem).1
    rw [hmore, List.getElem?_append_left hlt, hitem]
  | none =>
    have hsource := hended rfl
    have hnone : u.buffered[offset]? = none := by
      have hcontent := hsupplies.content
      rw [content, content, unread, unread, hsupplies.ended hsource, hsource] at hcontent
      simp only [if_true, List.map_nil, List.append_nil] at hcontent
      rw [hcontent, hitem]
    simp only [hnone, pull, hsupplies.ended hsource, if_true]

/-- A stream of the same content, all of it at hand. -/
def atHand (s : Stream) : Stream :=
  { buffered := s.content }

lemma supplies_atHand (h : s.content = t.content) : s.atHand.Supplies t := by
  refine ⟨?_, Nat.zero_le _, fun _ => rfl⟩
  rw [← h]
  exact List.append_nil _

/-! ## Sources that fail -/

/-- The second stream is what reading has left of the first one: it holds the same, and its source
fails only as the first one would. -/
structure Continues (s t : Stream) : Prop where
  content : t.content = s.content
  position : t.position = s.position
  failures : ∀ message, .failure message ∈ t.source → .failure message ∈ s.source

namespace Continues

lemma refl (s : Stream) : s.Continues s :=
  ⟨rfl, rfl, fun _ => id⟩

lemma trans (h : s.Continues t) (h' : t.Continues u) : s.Continues u :=
  ⟨h'.content.trans h.content, h'.position.trans h.position,
    fun message hmem => h.failures message (h'.failures message hmem)⟩

end Continues

/-- A source only fails as it was bound to. -/
lemma fetch_failures (n : Nat) (source : List Delivery) :
    (∀ message, (fetch n source).failure = some message → .failure message ∈ source) ∧
      ∀ message, .failure message ∈ (fetch n source).source → .failure message ∈ source := by
  fun_induction fetch n source with
  | case1 source => simp
  | case2 => simp
  | case3 n source ih =>
    exact ⟨fun message h => .tail _ (ih.1 message h), fun message h => .tail _ (ih.2 message h)⟩
  | case4 n message source => simp_all
  | case5 n source => simp_all
  | case6 n bytes source hne hle more ih =>
    exact ⟨fun message h => .tail _ (ih.1 message h), fun message h => .tail _ (ih.2 message h)⟩
  | case7 n bytes source hne hlt => simp_all

/-- Reading leaves a stream to go on with, and an error was bound to come. -/
lemma pull_continues (n : Nat) (s : Stream) :
    (∃ k t, pull n s = .ok k t ∧ s.Continues t) ∨
      ∃ message t, pull n s = .error message t ∧ s.Continues t ∧ .failure message ∈ s.source := by
  obtain ⟨hfailure, hrest⟩ := fetch_failures n s.source
  cases hpull : pull n s with
  | ok k t =>
    obtain ⟨hcontent, hposition⟩ := pull_ok hpull
    refine .inl ⟨k, t, rfl, hcontent, hposition, ?_⟩
    unfold pull at hpull
    split at hpull
    · cases hpull
      exact fun _ => id
    · dsimp only at hpull
      split at hpull
      · cases hpull
      · cases hpull
        exact hrest
  | error message t =>
    obtain ⟨hcontent, hposition⟩ := pull_error hpull
    unfold pull at hpull
    split at hpull
    · cases hpull
    · dsimp only at hpull
      split at hpull
      · rename_i hfails
        cases hpull
        exact .inr ⟨message, _, rfl, ⟨hcontent, hposition, hrest⟩, hfailure message hfails⟩
      · cases hpull

/-- Looking ahead shows what the stream holds there, unless its source fails. -/
lemma peek_cases (offset : Nat) (s : Stream) :
    (∃ t, peek offset s = .ok s.content[offset]? t ∧ s.Continues t) ∨
      ∃ message t, peek offset s = .error message t ∧ s.Continues t ∧
        .failure message ∈ s.source := by
  obtain ⟨item, t, hpeek, hcontinues⟩ | herror :
      (∃ item t, peek offset s = .ok item t ∧ s.Continues t) ∨
        ∃ message t, peek offset s = .error message t ∧ s.Continues t ∧
          .failure message ∈ s.source := by
    unfold peek
    cases s.buffered[offset]? with
    | some item => exact .inl ⟨_, s, rfl, .refl s⟩
    | none =>
      rcases pull_continues (offset + 1 - s.buffered.length) s with
        ⟨k, t, hpull, hcontinues⟩ | ⟨message, t, hpull, hcontinues, hmem⟩
      · simp only [hpull]
        exact .inl ⟨_, t, rfl, hcontinues⟩
      · simp only [hpull]
        exact .inr ⟨message, t, rfl, hcontinues, hmem⟩
  · obtain ⟨-, -, hitem, -⟩ := extends_of_peek hpeek
    exact .inl ⟨t, hitem ▸ hpeek, hcontinues⟩
  · exact .inr herror

/-! ## The bytes at the front -/

lemma leading_append (items more : List Item) : leading items ≤ leading (items ++ more) := by
  fun_induction leading items with
  | case1 b items ih => simpa [leading] using ih
  | case2 => omega

lemma succ_le_leading {items : List Item} {n : Nat} {b : UInt8} (hn : n ≤ leading items)
    (hb : items[n]? = some (.byte b)) : n + 1 ≤ leading items := by
  induction items generalizing n with
  | nil => simp at hb
  | cons item items ih =>
    obtain _ | n := n
    · obtain rfl : item = .byte b := by simpa using hb
      simp [leading]
    · cases item with
      | byte c =>
        have hrest := ih (n := n) (by simpa [leading] using hn) (by simpa using hb)
        simpa [leading] using hrest
      | tree node ignore => simp [leading] at hn

lemma splitText_eq {n : Nat} {items rest : List Item} {text : Bytes}
    (h : splitText n items = (text, rest)) :
    items = text.map .byte ++ rest ∧ text.length = min n (leading items) := by
  fun_induction splitText n items generalizing text rest with
  | case1 n b items text' rest' hsplit ih =>
    cases h
    obtain ⟨hitems, hlength⟩ := ih hsplit
    refine ⟨by rw [hitems]; rfl, ?_⟩
    simp only [List.length_cons, hlength, leading]
    omega
  | case2 n items hne =>
    cases h
    refine ⟨rfl, ?_⟩
    unfold leading
    split
    · rename_i b items'
      obtain _ | n := n
      · simp
      · exact absurd rfl (hne n b items' rfl)
    · simp

/-- What is at hand of the text at the front is part of it. -/
lemma leading_buffered_le (s : Stream) : leading s.buffered ≤ leading s.content :=
  leading_append _ _

/-! ## Taking and putting back -/

theorem content_extract {n : Nat} {text : Bytes} (h : extract n s = (text, t)) :
    s.content = text.map .byte ++ t.content ∧ t.position = s.position.advance text ∧
      t.unread = s.unread ∧ text.length = min n (leading s.buffered) := by
  unfold extract at h
  rcases hsplit : splitText n s.buffered with ⟨text', rest⟩
  rw [hsplit] at h
  cases h
  obtain ⟨hitems, hlength⟩ := splitText_eq hsplit
  refine ⟨?_, rfl, rfl, hlength⟩
  simp only [content]
  rw [hitems, List.append_assoc]
  rfl

lemma content_putBack (text : Bytes) (position : Position) (s : Stream) :
    (putBack text position s).content = text.map .byte ++ s.content :=
  List.append_assoc _ _ _

lemma content_pushText (text : Bytes) (s : Stream) :
    (pushText text s).content = text.map .byte ++ s.content :=
  List.append_assoc _ _ _

lemma content_pushTree (node : NodeId) (ignore : Bool) (s : Stream) :
    (pushTree node ignore s).content = .tree node ignore :: s.content :=
  rfl

lemma takeTree?_eq_some {node : NodeId} {ignore : Bool}
    (h : s.buffered.head? = some (.tree node ignore)) :
    ∃ t, s.takeTree? = some ((node, ignore), t) ∧ s.content = .tree node ignore :: t.content ∧
      t.position = s.position ∧ t.unread = s.unread := by
  obtain ⟨rest, hrest⟩ := List.head?_eq_some_iff.1 h
  refine ⟨{ s with buffered := rest }, ?_, ?_, rfl, rfl⟩
  · simp [takeTree?, hrest]
  · simp [content, hrest, unread]

/-- What is removed from the front has to be at hand. -/
theorem content_pushback {n : Nat} {items : List Item} (hitems : s.content = items)
    (hn : n + s.unread.length ≤ items.length) :
    (s.pushback n).2.content = items.drop n := by
  have hlength : n ≤ s.buffered.length := by
    have := congrArg List.length hitems
    simp only [content, List.length_append, List.length_map] at this
    omega
  calc (s.pushback n).2.content = s.buffered.drop n ++ s.unread.map Item.byte := rfl
    _ = (s.buffered ++ s.unread.map Item.byte).drop n :=
      (List.drop_append_of_le_length hlength).symm
    _ = items.drop n := by rw [← hitems, content]

end Rewind.Stream
