import Mathlib.Data.List.Basic
import Rewind.Position.Words
import Rewind.Proofs.Buffering
import Rewind.Proofs.Spans

/-!
# Texts cut anywhere

A position moves over a text as it would over its bytes one at a time (`advance_eq_foldl`).  So it
makes no difference where the text is cut: a stream from which the same bytes were taken is at the
same position, whatever was read, pushed and taken in between (`position_performAll`), and taking a
number of bytes in pieces is taking them at once (`extract_add`).

In words the same is true, because what exceeds them can be dropped before or after a text is added
(`words_advance`).  Words tell the position itself as long as it fits.
-/

namespace Rewind

/-! ## Searching for a byte -/

/-- The search finds the last index of a byte, and all of its indices. -/
structure ByteSearch.Lawful (search : ByteSearch) : Prop where
  of_none : ∀ {b text}, search.last? b text = none → b ∉ text
  of_some : ∀ {b text i}, search.last? b text = some i →
    text[i]? = some b ∧ ∀ j, i < j → text[j]? ≠ some b
  sorted : ∀ b text, (search.indices b text).Pairwise (· < ·)
  mem_indices : ∀ {b text i}, i ∈ search.indices b text ↔ text[i]? = some b

lemma mem_idxsOf_iff {b : UInt8} {text : Bytes} {i : Nat} :
    i ∈ text.idxsOf b ↔ text[i]? = some b := by
  simp [List.getElem?_eq_some_iff]

/-- A byte has as many indices as it has occurrences. -/
lemma ByteSearch.Lawful.length_indices {search : ByteSearch} (h : search.Lawful) (b : UInt8)
    (text : Bytes) : (search.indices b text).length = text.count b := by
  have hnodup : (search.indices b text).Nodup := (h.sorted b text).imp Nat.ne_of_lt
  have hperm : (search.indices b text).Perm (text.idxsOf b) := by
    rw [List.perm_ext_iff_of_nodup hnodup List.nodup_idxsOf]
    intro i
    rw [h.mem_indices, mem_idxsOf_iff]
  rw [hperm.length_eq, List.length_idxsOf]

/-- Searching byte by byte. -/
def ByteSearch.bytewise : ByteSearch where
  last? b text := (text.idxsOf b).getLast?
  indices b text := text.idxsOf b

lemma ByteSearch.lawful_bytewise : bytewise.Lawful where
  of_none {b text} h := by
    rw [bytewise, List.getLast?_eq_none_iff, List.idxsOf_eq_nil_iff] at h
    intro hmem
    simpa using h b hmem
  of_some {b text i} h := by
    have hsorted : (text.idxsOf b).Pairwise (· < ·) := List.pairwise_idxsOf
    obtain ⟨before, hindices⟩ := List.getLast?_eq_some_iff.1 h
    refine ⟨mem_idxsOf_iff.1 (by simp [hindices]), fun j hlt hj => ?_⟩
    -- an index behind the last one would stand in front of it
    have hmem : j ∈ before ++ [i] := hindices ▸ mem_idxsOf_iff.2 hj
    rw [hindices, List.pairwise_append] at hsorted
    rcases List.mem_append.1 hmem with hbefore | hself
    · have hless := hsorted.2.2 j hbefore i (List.mem_singleton_self i)
      omega
    · rw [List.mem_singleton] at hself
      omega
  sorted b text := List.pairwise_idxsOf
  mem_indices := mem_idxsOf_iff

namespace Position

variable {p : Position} {search : ByteSearch}

/-! ## Byte by byte -/

/-- The position behind one byte. -/
def next (p : Position) (b : UInt8) : Position :=
  if b = newline then ⟨p.offset + 1, p.line + 1, 1⟩ else ⟨p.offset + 1, p.line, p.column + 1⟩

lemma advance_singleton (p : Position) (b : UInt8) : p.advance [b] = p.next b := by
  by_cases h : b = newline
  · simp [advance, next, h]
  · simp [advance, next, h, Ne.symm h]

/-- Moving over a text is moving over its bytes. -/
lemma advance_eq_foldl (p : Position) (text : Bytes) : p.advance text = text.foldl next p := by
  induction text generalizing p with
  | nil => rfl
  | cons b text ih =>
    calc p.advance (b :: text)
      _ = (p.advance [b]).advance text := advance_append p [b] text
      _ = (p.next b).advance text := by rw [advance_singleton]
      _ = text.foldl next (p.next b) := ih _

lemma advance_flatten (p : Position) (texts : List Bytes) :
    p.advance texts.flatten = texts.foldl advance p := by
  induction texts generalizing p with
  | nil => rfl
  | cons text texts ih => rw [List.flatten_cons, advance_append, ih, List.foldl_cons]

/-- The column behind a text is told by where its last newline is. -/
lemma advance_of_last {text : Bytes} {i : Nat} (hi : text[i]? = some newline)
    (hlast : ∀ j, i < j → text[j]? ≠ some newline) :
    p.advance text =
      ⟨p.offset + text.length, p.line + text.count newline, text.length - i⟩ := by
  obtain ⟨hlt, hnewline⟩ := List.getElem?_eq_some_iff.1 hi
  have hrest : ∀ b ∈ (text.drop (i + 1)).reverse, decide (b ≠ newline) = true := by
    intro b hb
    obtain ⟨j, hj⟩ := List.mem_iff_getElem?.1 (List.mem_reverse.1 hb)
    rw [List.getElem?_drop] at hj
    apply decide_eq_true
    rintro rfl
    exact hlast _ (by omega) hj
  have hline : text.reverse.takeWhile (· ≠ newline) = (text.drop (i + 1)).reverse := by
    conv_lhs => rw [← List.take_append_drop i text, List.drop_eq_getElem_cons hlt, hnewline]
    rw [List.reverse_append, List.reverse_cons, List.append_assoc,
      List.takeWhile_append_of_pos hrest]
    simp
  rw [advance_of_mem (List.mem_of_getElem? hi), hline, List.length_reverse, List.length_drop,
    Nat.sub_add_eq, Nat.sub_add_cancel (by omega)]

/-! ## In words -/

/-- The position can be written in words. -/
def InWords (p : Position) : Prop :=
  p.offset < UInt64.size ∧ p.Fits

lemma words_position (w : Words) : w.position.words = w := by
  simp [words, Words.position]

lemma position_words (h : p.InWords) : p.words.position = p := by
  obtain ⟨hoffset, hline, hcolumn⟩ := h
  simp only [words, Words.position, UInt64.toNat_ofNat_of_lt' hoffset,
    UInt32.toNat_ofNat_of_lt' hline, UInt32.toNat_ofNat_of_lt' hcolumn]

/-- What exceeds the words may be dropped before a text is added. -/
lemma words_advance (h : search.Lawful) (p : Position) (text : Bytes) :
    (p.advance text).words = p.words.advance search text := by
  unfold Words.advance
  cases hsearch : search.last? newline text with
  | none =>
    rw [advance_of_not_mem (h.of_none hsearch)]
    simp only [words, UInt64.ofNat_add, UInt32.ofNat_add]
  | some i =>
    obtain ⟨hi, hlast⟩ := h.of_some hsearch
    rw [advance_of_last hi hlast]
    simp only [words, UInt64.ofNat_add, UInt32.ofNat_add, h.length_indices]

namespace Words

/-- The words behind one byte. -/
def next (w : Words) (b : UInt8) : Words :=
  if b = newline then ⟨w.offset + 1, w.line + 1, 1⟩ else ⟨w.offset + 1, w.line, w.column + 1⟩

lemma next_words (p : Position) (b : UInt8) : p.words.next b = (p.next b).words := by
  by_cases h : b = newline
  · simp [next, Position.next, words, h, UInt64.ofNat_add, UInt32.ofNat_add]
  · simp [next, Position.next, words, h, UInt64.ofNat_add, UInt32.ofNat_add]

variable (h : search.Lawful)
include h

/-- Words move as the position does that they tell. -/
lemma advance_eq (w : Words) (text : Bytes) :
    w.advance search text = (w.position.advance text).words := by
  rw [words_advance h, words_position]

lemma advance_append (w : Words) (text more : Bytes) :
    (w.advance search text).advance search more = w.advance search (text ++ more) := by
  rw [advance_eq h w text, ← words_advance h, ← Position.advance_append, ← advance_eq h]

lemma advance_eq_foldl (w : Words) (text : Bytes) :
    w.advance search text = text.foldl next w := by
  rw [advance_eq h, Position.advance_eq_foldl, ← List.foldl_hom words next_words, words_position]

lemma position_advance (w : Words) {text : Bytes} (hfits : (w.position.advance text).InWords) :
    (w.advance search text).position = w.position.advance text := by
  rw [advance_eq h, position_words hfits]

lemma words_advance_flatten (p : Position) (texts : List Bytes) :
    (p.advance texts.flatten).words = texts.foldl (advance search) p.words := by
  rw [advance_flatten, List.foldl_hom words fun p text => (words_advance h p text).symm]

end Words

end Position

/-! ## Taking text from a stream -/

namespace Tape

/-- The text that a record tells of, if text was taken. -/
def Record.text? : Record → Option Bytes
  | .text bytes _ => some bytes
  | _ => none

/-- The texts that were taken, the first one first. -/
def taken (records : List Record) : List Bytes :=
  (records.filterMap Record.text?).reverse

@[simp] lemma taken_nil : taken [] = [] :=
  rfl

@[simp] lemma taken_text (text : Bytes) (start : Position) :
    taken [.text text start] = [text] :=
  rfl

@[simp] lemma taken_tree (node : NodeId) (ignore : Bool) : taken [.tree node ignore] = [] :=
  rfl

@[simp] lemma taken_pushed (units : Nat) : taken [.pushed units] = [] :=
  rfl

lemma taken_append (newer older : List Record) :
    taken (newer ++ older) = taken older ++ taken newer := by
  simp [taken]

end Tape

namespace Stream

open Tape (taken)

variable {search : ByteSearch}

lemma position_of_takeTree? {s t : Stream} {tree : NodeId × Bool}
    (h : s.takeTree? = some (tree, t)) : t.position = s.position := by
  unfold takeTree? at h
  split at h
  · cases h
    rfl
  · cases h

/-- Only text that is taken moves a stream. -/
theorem position_perform (s : Stream) (op : Tape.Op) :
    (tape.perform s op).2.position = s.position.advance (taken (tape.perform s op).1).flatten := by
  cases op with
  | extract n => simp [Tape.perform, tape, extract]
  | takeTree =>
    rw [Tape.perform]
    cases htree : s.takeTree? with
    | none => simp [tape, htree]
    | some x =>
      obtain ⟨tree, t⟩ := x
      simp [tape, htree, position_of_takeTree? htree]
  | pushText text => simp [Tape.perform, tape, pushText]
  | pushTree node ignore => simp [Tape.perform, tape, pushTree]
  | pull n => exact (alike_pull n s).position
  | peek offset => exact (alike_peek offset s).position

/-- A stream is behind all text that was taken from it. -/
lemma position_performAll (s : Stream) (ops : List Tape.Op) :
    (tape.performAll s ops).2.position =
      s.position.advance (taken (tape.performAll s ops).1).flatten := by
  induction ops using List.reverseRecOn with
  | nil => rfl
  | append_singleton ops op ih =>
    rw [Tape.performAll_concat, position_perform, ih, Tape.taken_append, List.flatten_append,
      Position.advance_append]

/-! ## Taking it in pieces -/

/-- No text is taken where there is no byte in front. -/
lemma splitText_of_no_byte {items : List Item} (h : ∀ b rest, items ≠ .byte b :: rest) (n : Nat) :
    splitText n items = ([], items) := by
  cases items with
  | nil => simp [splitText]
  | cons item items =>
    cases item with
    | byte b => exact absurd rfl (h b items)
    | tree node ignore => simp [splitText]

lemma splitText_add (m n : Nat) (items : List Item) :
    splitText (m + n) items =
      ((splitText m items).1 ++ (splitText n (splitText m items).2).1,
        (splitText n (splitText m items).2).2) := by
  fun_induction splitText m items with
  | case1 m b items text rest hsplit ih =>
    rw [hsplit] at ih
    rw [Nat.succ_add, splitText, ih]
    rfl
  | case2 m items hnot =>
    -- nothing is taken here: nothing is asked for, or there is no byte in front
    cases m with
    | zero =>
      rw [Nat.zero_add]
      rfl
    | succ m => simp [splitText_of_no_byte (hnot m · · rfl)]

lemma extract_add (m n : Nat) (s : Stream) :
    extract (m + n) s =
      ((extract m s).1 ++ (extract n (extract m s).2).1, (extract n (extract m s).2).2) := by
  simp only [extract, splitText_add m n, Position.advance_append]

/-- Taking text in pieces is taking it at once. -/
lemma performAll_extract (s : Stream) (ns : List Nat) :
    (taken (tape.performAll s (ns.map .extract)).1).flatten = (extract ns.sum s).1 ∧
      (tape.performAll s (ns.map .extract)).2 = (extract ns.sum s).2 := by
  induction ns using List.reverseRecOn with
  | nil => simp [Tape.performAll, Tape.taken, extract, splitText]
  | append_singleton ns n ih =>
    obtain ⟨htaken, hleft⟩ := ih
    rw [List.map_append, List.map_singleton, Tape.performAll_concat, Tape.taken_append,
      List.flatten_append, htaken, hleft, List.sum_append, List.sum_singleton, extract_add]
    simp [Tape.perform, tape]

end Stream

namespace Queue

open Position (Words)
open Tape (taken)

variable {q : Queue}

lemma position_performAll (hq : q.Tidy) (ops : List Tape.Op) :
    (tape.performAll q ops).2.position =
      q.position.advance (taken (tape.performAll q ops).1).flatten := by
  have hstream := Stream.position_performAll q.stream ops
  rw [(models_tape.performAll hq ops).1] at hstream
  exact hstream

lemma performAll_extract (hq : q.Tidy) (ns : List Nat) :
    (taken (tape.performAll q (ns.map .extract)).1).flatten = (q.extract ns.sum).1 ∧
      (tape.performAll q (ns.map .extract)).2.stream = (q.extract ns.sum).2.stream := by
  have honce : Stream.extract ns.sum q.stream =
      ((q.extract ns.sum).1, (q.extract ns.sum).2.stream) :=
    (models_tape.extract ns.sum hq).1
  have hstream := Stream.performAll_extract q.stream ns
  rw [(models_tape.performAll hq (ns.map .extract)).1, honce] at hstream
  exact hstream

/-- **A position does not tell how a text was cut.**  Moving over one text and then over another is
moving over both, and over each byte of them: a newline begins a line, and every other byte is a
column.  The same is true in words, and they tell the position as long as it fits.

A queue is behind the bytes that were taken from it since, so it is at the same position whatever
the pieces were in which they were taken, and whatever was done in between.  Pieces taken one after
the other are what is taken at once, and leave the same. -/
theorem position_however_cut :
    (∀ (p : Position) (text more : Bytes),
      (p.advance text).advance more = p.advance (text ++ more)) ∧
    (∀ (p : Position) (text : Bytes), p.advance text = text.foldl Position.next p) ∧
    (∀ search : ByteSearch, search.Lawful →
      (∀ (w : Words) (text more : Bytes),
        (w.advance search text).advance search more = w.advance search (text ++ more)) ∧
      (∀ (w : Words) (text : Bytes), w.advance search text = text.foldl Words.next w) ∧
      (∀ (w : Words) (text : Bytes), (w.position.advance text).InWords →
        (w.advance search text).position = w.position.advance text) ∧
      ∀ (q : Queue) (ops : List Tape.Op), q.Reached →
        (tape.performAll q ops).2.position.words =
          (taken (tape.performAll q ops).1).foldl (Words.advance search) q.position.words) ∧
    (∀ (q : Queue) (ops : List Tape.Op), q.Reached →
      (tape.performAll q ops).2.position =
        q.position.advance (taken (tape.performAll q ops).1).flatten) ∧
    (∀ (q r : Queue) (ops ops' : List Tape.Op), q.Reached → r.Reached →
      q.position = r.position →
      (taken (tape.performAll q ops).1).flatten = (taken (tape.performAll r ops').1).flatten →
      (tape.performAll q ops).2.position = (tape.performAll r ops').2.position) ∧
    (∀ (q : Queue) (ns : List Nat), q.Reached →
      (taken (tape.performAll q (ns.map .extract)).1).flatten = (q.extract ns.sum).1 ∧
      (tape.performAll q (ns.map .extract)).2.stream = (q.extract ns.sum).2.stream) := by
  refine ⟨fun p text more => (Position.advance_append p text more).symm, Position.advance_eq_foldl,
    fun search hsearch => ⟨Words.advance_append hsearch, Words.advance_eq_foldl hsearch,
      fun w text => Words.position_advance hsearch w, fun q ops hq => ?_⟩,
    fun q ops hq => position_performAll hq.tidy ops, fun q r ops ops' hq hr hposition hsame => ?_,
    fun q ns hq => performAll_extract hq.tidy ns⟩
  · rw [position_performAll hq.tidy, Words.words_advance_flatten hsearch]
  · rw [position_performAll hq.tidy, position_performAll hr.tidy, hposition, hsame]

/-- The last column that there are words for, close to the last line and the last offset. -/
def lastColumn : Words :=
  ⟨18446744073709551600, 4294967290, 4294967295⟩

/-- A source that delivers two lines in two pieces. -/
def lineSource : List Delivery :=
  [.data [97, 10], .interrupted, .data [98, 99]]

/-- The lines are read, and taken in two pieces with a tree between them. -/
def linePieces : List Tape.Op :=
  [.peek 3, .extract 1, .pushTree 7 false, .takeTree, .extract 3]

/-- The second line begins in words, although no column is left in the first.  Both lines, read from
a source and taken in pieces, lead where the text leads when its first letter is pushed in front of
it and all is taken at once. -/
theorem position_however_cut_lines :
    ByteSearch.bytewise.Lawful ∧ (ofSource lineSource).Reached ∧ (ofBytes [10, 98, 99]).Reached ∧
      (lastColumn.position.advance [10, 98, 99]).InWords ∧
      ((lastColumn.advance .bytewise [10]).advance .bytewise [98, 99]).position =
        ⟨18446744073709551603, 4294967291, 3⟩ ∧
      (tape.performAll (ofSource lineSource) linePieces).2.position =
        (tape.performAll (ofBytes [10, 98, 99]) [.pushText [97], .extract 4]).2.position ∧
      (tape.performAll (ofSource lineSource) linePieces).2.position = ⟨4, 2, 3⟩ := by
  obtain ⟨-, -, hwords, hposition, hsame, -⟩ := position_however_cut
  obtain ⟨happend, -, hfits, -⟩ := hwords .bytewise ByteSearch.lawful_bytewise
  have hsource : (ofSource lineSource).Reached := .ofSource lineSource
  have hbytes : (ofBytes [10, 98, 99]).Reached := .ofBytes [10, 98, 99]
  have hinside : (lastColumn.position.advance [10, 98, 99]).InWords := by
    simp only [Position.InWords, Position.Fits]
    decide
  refine ⟨ByteSearch.lawful_bytewise, hsource, hbytes, hinside, ?_, ?_, ?_⟩
  · rw [happend, hfits _ ([10] ++ [98, 99]) hinside]
    decide
  · exact hsame _ _ _ _ hsource hbytes rfl (by decide)
  · rw [hposition _ _ hsource]
    decide

end Queue

end Rewind
