import Rewind.Stream

/-!
# The content of a stream

How much of a stream is at hand is nobody's business but the stream's.  What a stream holds is its
`content`: the items at hand followed by the bytes its source will deliver before it ends.  Reading
moves bytes from one part to the other and changes nothing else, so the content is the same after
`pull` and `peek`, whether they succeed or fail.
-/

namespace Rewind.Stream

/-- The bytes a source delivers before it ends. -/
def promised : List Delivery → Bytes
  | [] => []
  | .data [] :: _ => []
  | .data (b :: bytes) :: source => b :: bytes ++ promised source
  | .interrupted :: source => promised source
  | .failure _ :: source => promised source

/-- The bytes still to be read. -/
def unread (s : Stream) : Bytes :=
  if s.sourceEnded then [] else promised s.source

/-- All items of a stream, at hand or not. -/
def content (s : Stream) : List Item :=
  s.buffered ++ s.unread.map .byte

/-- The number of bytes before the first tree. -/
def leading : List Item → Nat
  | .byte _ :: items => leading items + 1
  | _ => 0

theorem promised_fetch (n : Nat) (source : List Delivery) :
    (fetch n source).bytes ++
      (if (fetch n source).ended then [] else promised (fetch n source).source) =
      promised source := by
  fun_induction fetch n source with
  | case1 source => simp
  | case2 => simp [promised]
  | case3 n source ih => simpa [promised] using ih
  | case4 => simp [promised]
  | case5 => simp [promised]
  | case6 n bytes source hne hle more ih =>
    obtain _ | ⟨b, rest⟩ := bytes
    · exact absurd rfl hne
    · simpa [promised, more] using ih
  | case7 n bytes source hne hlt =>
    obtain _ | ⟨b, rest⟩ := bytes
    · exact absurd rfl hne
    · have hdrop : (b :: rest).drop (max readLength (n + 1)) ≠ [] := by
        intro h
        rw [List.drop_eq_nil_iff] at h
        omega
      obtain ⟨c, more, hc⟩ := List.exists_cons_of_ne_nil hdrop
      have htake := List.take_append_drop (max readLength (n + 1)) (b :: rest)
      rw [hc] at htake
      simp only [hc, promised, Bool.false_eq_true, if_false]
      rw [← List.append_assoc, htake]

/-- What is behind `pull`, as one statement about both of its outcomes. -/
private theorem content_of_fetch {s : Stream} (n : Nat) (h : s.sourceEnded = false) :
    content { s with
      buffered := s.buffered ++ (fetch n s.source).bytes.map .byte
      source := (fetch n s.source).source
      sourceEnded := (fetch n s.source).ended } = s.content := by
  have hf := promised_fetch n s.source
  simp only [content, unread, h, Bool.false_eq_true, if_false, List.append_assoc,
    ← List.map_append]
  rw [hf]

theorem pull_ok {n k : Nat} {s t : Stream} (h : pull n s = .ok k t) :
    t.content = s.content ∧ t.position = s.position := by
  unfold pull at h
  split at h
  · cases h
    exact ⟨rfl, rfl⟩
  · rename_i hs
    dsimp only at h
    split at h
    · cases h
    · cases h
      exact ⟨content_of_fetch n (by simpa using hs), rfl⟩

theorem pull_error {n : Nat} {message : String} {s t : Stream}
    (h : pull n s = .error message t) :
    t.content = s.content ∧ t.position = s.position := by
  unfold pull at h
  split at h
  · cases h
  · rename_i hs
    dsimp only at h
    split at h
    · cases h
      exact ⟨content_of_fetch n (by simpa using hs), rfl⟩
    · cases h

theorem peek_ok {offset : Nat} {item : Option Item} {s t : Stream}
    (h : peek offset s = .ok item t) :
    t.content = s.content ∧ t.position = s.position ∧ t.buffered[offset]? = item := by
  unfold peek at h
  split at h
  · rename_i hs
    cases h
    exact ⟨rfl, rfl, hs⟩
  · split at h
    · rename_i hp
      cases h
      exact ⟨(pull_ok hp).1, (pull_ok hp).2, rfl⟩
    · cases h

theorem peek_error {offset : Nat} {message : String} {s t : Stream}
    (h : peek offset s = .error message t) :
    t.content = s.content ∧ t.position = s.position := by
  unfold peek at h
  split at h
  · cases h
  · split at h
    · cases h
    · rename_i hp
      cases h
      exact pull_error hp

/-- An item that can be seen ahead is an item of the content. -/
theorem lt_length_content_of_peek {offset : Nat} {item : Item} {s t : Stream}
    (h : peek offset s = .ok (some item) t) : offset < s.content.length := by
  obtain ⟨hc, _, hi⟩ := peek_ok h
  have hlt : offset < t.buffered.length := (List.getElem?_eq_some_iff.1 hi).1
  rw [← hc, content, List.length_append]
  omega

end Rewind.Stream
