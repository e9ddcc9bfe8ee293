import Rewind.Proofs.Inverses
import Rewind.Stream.Queue

/-!
# How a stream lies in memory

The chunks of a queue, one after another, are the items that its stream has at hand, and every
operation comes to the same on both, wherever the chunks have their bounds.  That takes queues in
which no chunk is used up, and operations leave none behind.
-/

namespace Rewind

namespace Chunk

/-- The items in a chunk. -/
def items : Chunk → List Item
  | text data head => (data.drop head).map .byte
  | tree node ignore => [.tree node ignore]

/-- Nothing but chunks with something in them. -/
def Tidy (chunks : List Chunk) : Prop :=
  ∀ chunk ∈ chunks, chunk.items ≠ []

variable {chunks : List Chunk} {chunk : Chunk} {data : Bytes} {head : Nat}

@[simp] lemma length_items (chunk : Chunk) : chunk.items.length = chunk.units := by
  cases chunk with
  | text data head => rw [items, List.length_map, List.length_drop, units]
  | tree node ignore => rfl

lemma tidy_nil : Tidy [] :=
  nofun

lemma tidy_cons_iff : Tidy (chunk :: chunks) ↔ chunk.items ≠ [] ∧ Tidy chunks :=
  List.forall_mem_cons

lemma items_text_ne_nil_iff : (text data head).items ≠ [] ↔ head < data.length := by
  rw [← List.length_pos_iff, length_items, units]
  omega

/-- The item at an offset is found chunk by chunk. -/
lemma at?_eq (offset : Nat) (chunks : List Chunk) :
    at? offset chunks = (chunks.flatMap items)[offset]? := by
  fun_induction at? offset chunks with
  | case1 offset data head chunks hlt =>
    rw [List.flatMap_cons, List.getElem?_append_left (by simpa [items] using hlt), items,
      List.getElem?_map, List.getElem?_drop]
  | case2 offset data head chunks hge ih =>
    have hle : (text data head).items.length ≤ offset := by
      rw [length_items, units]
      omega
    rw [List.flatMap_cons, List.getElem?_append_right hle, length_items, units, ih]
  | case3 => rfl
  | case4 offset node ignore chunks ih => exact ih
  | case5 => rfl

end Chunk

namespace Stream

/-- Text is taken from a text that is longer. -/
lemma splitText_of_le {n : Nat} {text : Bytes} {items : List Item} (h : n ≤ text.length) :
    splitText n (text.map .byte ++ items) = (text.take n, (text.drop n).map .byte ++ items) := by
  induction n generalizing text with
  | zero => simp [splitText]
  | succ n ih =>
    cases text with
    | nil => exact absurd h (Nat.not_succ_le_zero n)
    | cons b text =>
      rw [List.map_cons, List.cons_append, splitText, ih (Nat.le_of_succ_le_succ h)]
      rfl

/-- Text is taken from a text that is shorter, and from what comes behind it. -/
lemma splitText_of_ge {n : Nat} {text : Bytes} {items : List Item} (h : text.length ≤ n) :
    splitText n (text.map .byte ++ items) =
      (text ++ (splitText (n - text.length) items).1, (splitText (n - text.length) items).2) := by
  induction text generalizing n with
  | nil => rfl
  | cons b text ih =>
    obtain ⟨n, rfl⟩ := Nat.exists_eq_add_one_of_ne_zero (Nat.ne_of_gt (Nat.zero_lt_of_lt h))
    rw [List.map_cons, List.cons_append, splitText, ih (Nat.le_of_succ_le_succ h),
      List.length_cons, Nat.add_sub_add_right]
    rfl

end Stream

namespace Chunk

variable {chunks : List Chunk} {n : Nat}

/-- Taking text chunk by chunk is taking it from all their items. -/
lemma takeText_eq (h : Tidy chunks) :
    Stream.splitText n (chunks.flatMap items) =
      ((takeText n chunks).1, (takeText n chunks).2.flatMap items) ∧
      Tidy (takeText n chunks).2 := by
  fun_induction takeText n chunks with
  | case1 n data head chunks used hused more rest htake ih =>
    obtain ⟨hne, hchunks⟩ := tidy_cons_iff.1 h
    obtain ⟨hsplit, htidy⟩ := ih hchunks
    rw [htake] at hsplit htidy
    have hall : used = (data.drop head).length := by
      rw [List.length_drop]
      omega
    rw [List.flatMap_cons, items, Stream.splitText_of_ge (by omega), ← hall, hsplit, hall,
      List.take_length]
    exact ⟨rfl, htidy⟩
  | case2 n data head chunks used hused =>
    obtain ⟨hne, hchunks⟩ := tidy_cons_iff.1 h
    have hlt := items_text_ne_nil_iff.1 hne
    have hn : used = n + 1 := by omega
    rw [List.flatMap_cons, items, Stream.splitText_of_le (by rw [List.length_drop]; omega), hn,
      List.drop_drop]
    refine ⟨rfl, tidy_cons_iff.2 ⟨items_text_ne_nil_iff.2 ?_, hchunks⟩⟩
    omega
  | case3 n chunks hnot =>
    refine ⟨?_, h⟩
    cases n with
    | zero => simp [Stream.splitText]
    | succ n =>
      cases chunks with
      | nil => rfl
      | cons chunk chunks =>
        cases chunk with
        | text data head => exact absurd rfl (hnot n data head chunks rfl)
        | tree node ignore => rfl

/-- Items are removed chunk by chunk. -/
lemma discard_eq (h : Tidy chunks) :
    (discard n chunks).1 = min n (chunks.flatMap items).length ∧
      (discard n chunks).2.flatMap items = (chunks.flatMap items).drop n ∧
      Tidy (discard n chunks).2 := by
  fun_induction discard n chunks with
  | case1 n data head chunks used hused more rest hdiscard ih =>
    obtain ⟨hne, hchunks⟩ := tidy_cons_iff.1 h
    obtain ⟨hmore, hrest, htidy⟩ := ih hchunks
    rw [hdiscard] at hmore hrest htidy
    have hall : (text data head).items.length = used := by
      rw [length_items, units]
      omega
    rw [List.flatMap_cons, List.length_append, List.drop_append, hall,
      List.drop_eq_nil_of_le (by omega), List.nil_append]
    exact ⟨by dsimp only at hmore ⊢; omega, hrest, htidy⟩
  | case2 n data head chunks used hused =>
    obtain ⟨hne, hchunks⟩ := tidy_cons_iff.1 h
    have hlt := items_text_ne_nil_iff.1 hne
    have hn : used = n + 1 := by omega
    have hlength : (text data head).items.length = data.length - head := by
      rw [length_items, units]
    rw [List.flatMap_cons, List.length_append, hlength]
    refine ⟨by dsimp only; omega, ?_, tidy_cons_iff.2 ⟨items_text_ne_nil_iff.2 (by omega), hchunks⟩⟩
    rw [List.drop_append_of_le_length (by omega), List.flatMap_cons, items, items, hn,
      ← List.map_drop, List.drop_drop]
  | case3 n node ignore chunks more rest hdiscard ih =>
    obtain ⟨hmore, hrest, htidy⟩ := ih (tidy_cons_iff.1 h).2
    rw [hdiscard] at hmore hrest htidy
    refine ⟨?_, hrest, htidy⟩
    rw [List.flatMap_cons, List.length_append, length_items, units]
    dsimp only at hmore ⊢
    omega
  | case4 n chunks htext htree =>
    cases n with
    | zero => exact ⟨(Nat.zero_min _).symm, rfl, h⟩
    | succ n =>
      cases chunks with
      | nil => exact ⟨rfl, rfl, h⟩
      | cons chunk chunks =>
        cases chunk with
        | text data head => exact absurd rfl (htext n data head chunks rfl)
        | tree node ignore => exact absurd rfl (htree n node ignore chunks rfl)

end Chunk

/-! ## Tapes that come to the same -/

namespace Tape

variable {σ α : Type} {d : Tape σ} {stream : σ → Stream} {ok : σ → Prop}

/-- What is read from a tape, and what is read from the stream that it comes to. -/
inductive Agree (stream : σ → Stream) (ok : σ → Prop) :
    EStateM.Result String σ α → EStateM.Result String Stream α → Prop
  | ok {a : α} {s : σ} : ok s → Agree stream ok (.ok a s) (.ok a (stream s))
  | error {message : String} {s : σ} : ok s →
    Agree stream ok (.error message s) (.error message (stream s))

lemma Agree.of_eq {a : α} {s : σ} {t : Stream} (hs : ok s) (ht : stream s = t) :
    Agree stream ok (.ok a s) (.ok a t) :=
  ht ▸ .ok hs

lemma Agree.of_eq_error {message : String} {s : σ} {t : Stream} (hs : ok s) (ht : stream s = t) :
    Agree stream ok (.error message s : EStateM.Result String σ α) (.error message t) :=
  ht ▸ .error hs

lemma Agree.left {x : EStateM.Result String σ α} {y : EStateM.Result String Stream α}
    (h : Agree stream ok x y) : stream (left x) = left y ∧ ok (left x) := by
  cases h with
  | ok hs => exact ⟨rfl, hs⟩
  | error hs => exact ⟨rfl, hs⟩

/-- What is taken from a tape and what is left of it, and the same of the stream. -/
def Same (stream : σ → Stream) (ok : σ → Prop) (x : α × σ) (y : α × Stream) : Prop :=
  y = (x.1, stream x.2) ∧ ok x.2

/-- A tape does what its stream does. -/
structure Models (d : Tape σ) (stream : σ → Stream) (ok : σ → Prop) : Prop where
  position : ∀ s, d.position s = (stream s).position
  extract : ∀ {s} n, ok s → Same stream ok (d.extract n s) (Stream.extract n (stream s))
  putBack : ∀ {s} text start, ok s →
    stream (d.putBack text start s) = Stream.putBack text start (stream s) ∧
      ok (d.putBack text start s)
  takeTree : ∀ {s}, ok s →
    Option.Rel (Same stream ok) (d.takeTree? s) (Stream.takeTree? (stream s))
  pushText : ∀ {s} text, ok s →
    stream (d.pushText text s) = Stream.pushText text (stream s) ∧ ok (d.pushText text s)
  pushTree : ∀ {s} node ignore, ok s →
    stream (d.pushTree node ignore s) = Stream.pushTree node ignore (stream s) ∧
      ok (d.pushTree node ignore s)
  pushback : ∀ {s} n, ok s → Same stream ok (d.pushback n s) (Stream.pushback n (stream s))
  pull : ∀ {s} n, ok s → Agree stream ok (d.pull n s) (Stream.pull n (stream s))
  peek : ∀ {s} offset, ok s → Agree stream ok (d.peek offset s) (Stream.peek offset (stream s))

namespace Models

variable (h : d.Models stream ok) {s t u : σ} {ops : List Op} {records rest : List Record}
include h

lemma perform (hs : ok s) (op : Op) :
    Stream.tape.perform (stream s) op = ((d.perform s op).1, stream (d.perform s op).2) ∧
      ok (d.perform s op).2 := by
  cases op with
  | extract n =>
    obtain ⟨hsame, hok⟩ := h.extract n hs
    refine ⟨?_, hok⟩
    have hextract : Stream.tape.extract n (stream s) = _ := hsame
    rw [Tape.perform, hextract, Tape.perform, h.position]
    rfl
  | takeTree =>
    have htree : Option.Rel (Same stream ok) (d.takeTree? s) (Stream.tape.takeTree? (stream s)) :=
      h.takeTree hs
    rw [Tape.perform, Tape.perform]
    generalize d.takeTree? s = x at htree
    generalize Stream.tape.takeTree? (stream s) = y at htree
    cases htree with
    | none => exact ⟨rfl, hs⟩
    | some hsame =>
      obtain ⟨rfl, hok⟩ := hsame
      exact ⟨rfl, hok⟩
  | pushText text => exact ⟨Prod.ext rfl (h.pushText text hs).1.symm, (h.pushText text hs).2⟩
  | pushTree node ignore =>
    exact ⟨Prod.ext rfl (h.pushTree node ignore hs).1.symm, (h.pushTree node ignore hs).2⟩
  | pull n => exact ⟨Prod.ext rfl (h.pull n hs).left.1.symm, (h.pull n hs).left.2⟩
  | peek offset => exact ⟨Prod.ext rfl (h.peek offset hs).left.1.symm, (h.peek offset hs).left.2⟩

lemma performAll (hs : ok s) (ops : List Op) :
    Stream.tape.performAll (stream s) ops =
        ((d.performAll s ops).1, stream (d.performAll s ops).2) ∧
      ok (d.performAll s ops).2 := by
  induction ops using List.reverseRecOn with
  | nil => exact ⟨rfl, hs⟩
  | append_singleton ops op ih =>
    obtain ⟨hops, hok⟩ := ih
    obtain ⟨hop, hok'⟩ := h.perform hok op
    rw [performAll_concat, performAll_concat, hops, hop]
    exact ⟨rfl, hok'⟩

lemma unwinds (hs : ok s) (hunwinds : d.Unwinds records s rest u) :
    Stream.tape.Unwinds records (stream s) rest (stream u) ∧ ok u := by
  induction hunwinds with
  | refl => exact ⟨.refl, hs⟩
  | @text u text start rest _ ih =>
    obtain ⟨hstream, hok⟩ := h.putBack text start ih.2
    exact ⟨hstream ▸ ih.1.text, hok⟩
  | @tree u node ignore rest _ ih =>
    obtain ⟨hstream, hok⟩ := h.pushTree node ignore ih.2
    exact ⟨hstream ▸ ih.1.tree, hok⟩
  | @pushes u ks rest _ ih =>
    obtain ⟨hsame, hok⟩ := h.pushback ks.sum ih.2
    have hstream : (Stream.pushback ks.sum (stream u)).2 = stream (d.pushback ks.sum u).2 :=
      congrArg Prod.snd hsame
    exact ⟨hstream ▸ ih.1.pushes ks, hok⟩
  | pull n _ ih =>
    obtain ⟨hstream, hok⟩ := (h.pull n ih.2).left
    exact ⟨hstream ▸ ih.1.pull n, hok⟩
  | peek offset _ ih =>
    obtain ⟨hstream, hok⟩ := (h.peek offset ih.2).left
    exact ⟨hstream ▸ ih.1.peek offset, hok⟩

/-- What is true of streams is true of the tape. -/
lemma exact_of_stream : d.Exact stream ok := by
  intro s ops records t hs hperform
  refine ⟨exists_unwinds .refl, fun rest u hunwinds => ?_⟩
  obtain ⟨hall, hok⟩ := h.performAll hs ops
  rw [hperform] at hall hok
  obtain ⟨hstream, hu⟩ := h.unwinds hok hunwinds
  obtain ⟨⟨before, later, v, hops, hbefore, hv⟩, hend, hpushes⟩ :=
    (Stream.exact_tape _ _ _ _ trivial hall).2 _ _ hstream
  have hw := (h.performAll hs before).1
  rw [hbefore] at hw
  obtain ⟨hrest, rfl⟩ := Prod.mk.inj hw
  refine ⟨⟨before, later, _, hops, Prod.ext hrest.symm rfl, hv⟩, hend, fun ks older hks => ?_⟩
  have hsame := congrArg Prod.fst (h.pushback ks.sum hu).1
  exact hsame.symm.trans (hpushes ks older hks)

end Models

end Tape

/-! ## Queues -/

namespace Queue

variable {q : Queue}

/-- The stream that a queue is in memory. -/
def stream (q : Queue) : Stream :=
  { buffered := q.chunks.flatMap Chunk.items, source := q.source, sourceEnded := q.sourceEnded,
    position := q.position }

def Tidy (q : Queue) : Prop :=
  Chunk.Tidy q.chunks

def tape : Tape Queue :=
  ⟨position, extract, putBack, takeTree?, pushText, pushTree, pushback, pull, peek⟩

lemma stream_pushText (text : Bytes) (hq : q.Tidy) :
    (q.pushText text).stream = q.stream.pushText text ∧ (q.pushText text).Tidy := by
  unfold pushText
  split
  · rename_i hempty
    rw [List.isEmpty_iff] at hempty
    rw [hempty]
    exact ⟨rfl, hq⟩
  · rename_i hempty
    refine ⟨rfl, Chunk.tidy_cons_iff.2 ⟨?_, hq⟩⟩
    simpa [Chunk.items] using hempty

lemma stream_append (text : Bytes) (hq : q.Tidy) :
    (q.append text).stream =
        { q.stream with buffered := q.stream.buffered ++ text.map .byte } ∧
      (q.append text).Tidy := by
  unfold append
  split
  · rename_i hempty
    rw [List.isEmpty_iff] at hempty
    rw [hempty, List.map_nil, List.append_nil]
    exact ⟨rfl, hq⟩
  · rename_i hempty
    refine ⟨?_, ?_⟩
    · simp [stream, Chunk.items]
    · intro chunk hchunk
      rcases List.mem_append.1 hchunk with hchunk | hchunk
      · exact hq chunk hchunk
      · rw [List.mem_singleton] at hchunk
        simpa [hchunk, Chunk.items] using hempty

lemma length_eq (q : Queue) : q.length = q.stream.buffered.length := by
  simp only [length, stream, List.length_flatMap, Chunk.length_items]

/-- What came of asking a source, as a read reports it. -/
def report (got : Stream.Fetched) (s : Stream) : EStateM.Result String Stream Nat :=
  let t := { s with
    buffered := s.buffered ++ got.bytes.map .byte, source := got.source, sourceEnded := got.ended }
  match got.failure with
  | some message => .error message t
  | none => .ok got.bytes.length t

/-- Text that was delivered before comes before what is delivered then. -/
lemma report_append (bytes : Bytes) (got : Stream.Fetched) (s : Stream) :
    report { got with bytes := bytes ++ got.bytes } s =
      match report got { s with buffered := s.buffered ++ bytes.map .byte } with
      | .ok k t => .ok (bytes.length + k) t
      | .error message t => .error message t := by
  unfold report
  cases got.failure <;> simp

lemma agree_drain (n : Nat) (source : List Delivery) {q : Queue} (hq : q.Tidy)
    (hended : q.sourceEnded = false) :
    Tape.Agree stream Tidy (drain n source q) (report (Stream.fetch n source) q.stream) := by
  -- A chunk is added for each piece of text that the source delivers.
  fun_induction Stream.fetch n source generalizing q with
  | case1 source =>
    rw [drain]
    refine Tape.Agree.of_eq (show Tidy { q with source } from hq) ?_
    simp [stream, hended]
  | case2 =>
    refine Tape.Agree.of_eq (show Tidy { q with source := [], sourceEnded := true } from hq) ?_
    simp [stream]
  | case3 n source ih => exact ih hq hended
  | case4 n message source =>
    refine Tape.Agree.of_eq_error (show Tidy { q with source } from hq) ?_
    simp [stream, hended]
  | case5 n source =>
    refine Tape.Agree.of_eq (show Tidy { q with source, sourceEnded := true } from hq) ?_
    simp [stream]
  | case6 n bytes source hne hle got =>
    rename_i ih
    obtain ⟨hstream, htidy⟩ := stream_append bytes hq
    have hrest := ih htidy (by unfold append; split <;> exact hended)
    rw [report_append, ← hstream, drain, if_pos hle]
    · generalize drain _ source _ = x at hrest ⊢
      generalize report _ _ = y at hrest ⊢
      cases hrest with
      | ok hs => exact .ok hs
      | error hs => exact .error hs
    · exact hne
  | case7 n bytes source hne hlt =>
    obtain ⟨hstream, htidy⟩ := stream_append (q := { q with
      source := .data (bytes.drop (max Stream.readLength (n + 1))) :: source })
      (bytes.take (max Stream.readLength (n + 1))) hq
    have hsize : (bytes.take (max Stream.readLength (n + 1))).length =
        max Stream.readLength (n + 1) := by
      rw [List.length_take]
      omega
    rw [drain, if_neg hlt]
    · dsimp only [report]
      rw [hsize]
      refine Tape.Agree.of_eq htidy (hstream.trans ?_)
      simp [stream, hended]
    · exact hne

lemma agree_pull (n : Nat) (hq : q.Tidy) :
    Tape.Agree stream Tidy (pull n q) (Stream.pull n q.stream) := by
  unfold pull Stream.pull
  by_cases hended : q.sourceEnded
  · rw [if_pos hended, if_pos (show q.stream.sourceEnded from hended)]
    exact .ok hq
  · rw [if_neg hended, if_neg (show ¬q.stream.sourceEnded from hended)]
    exact agree_drain n q.source hq (eq_false_of_ne_true hended)

lemma models_tape : tape.Models stream Tidy where
  position _ := rfl
  extract {q} n hq := by
    obtain ⟨hsplit, htidy⟩ := Chunk.takeText_eq (n := n) hq
    refine ⟨?_, htidy⟩
    rw [Stream.extract, show q.stream.buffered = q.chunks.flatMap Chunk.items from rfl, hsplit]
    rfl
  putBack {q} text start hq := by
    obtain ⟨hstream, htidy⟩ := stream_pushText text hq
    exact ⟨congrArg (fun s : Stream => { s with position := start }) hstream, htidy⟩
  takeTree {q} hq := by
    change Option.Rel _ q.takeTree? q.stream.takeTree?
    rw [takeTree?, Stream.takeTree?, show q.stream.buffered = q.chunks.flatMap Chunk.items from rfl]
    have htidy : Chunk.Tidy q.chunks := hq
    cases hchunks : q.chunks with
    | nil => exact .none
    | cons chunk chunks =>
      rw [hchunks, Chunk.tidy_cons_iff] at htidy
      cases chunk with
      | tree node ignore => exact .some ⟨rfl, htidy.2⟩
      | text data head =>
        obtain ⟨b, rest, hdrop⟩ := List.exists_cons_of_ne_nil
          (show data.drop head ≠ [] by simpa [Chunk.items] using htidy.1)
        rw [List.flatMap_cons, Chunk.items, hdrop]
        exact .none
  pushText text hq := stream_pushText text hq
  pushTree node ignore hq := ⟨rfl, Chunk.tidy_cons_iff.2 ⟨List.cons_ne_nil _ _, hq⟩⟩
  pushback {q} n hq := by
    obtain ⟨hremoved, hrest, htidy⟩ := Chunk.discard_eq (n := n) hq
    exact ⟨Prod.ext hremoved.symm
      (congrArg (fun items => { q.stream with buffered := items }) hrest.symm), htidy⟩
  pull {q} n hq := by
    exact agree_pull n hq
  peek {q} offset hq := by
    change Tape.Agree stream Tidy (peek offset q) (Stream.peek offset q.stream)
    have hpull := agree_pull (offset + 1 - q.length) hq
    rw [peek, Stream.peek, ← length_eq]
    by_cases hlength : q.length ≤ offset
    · rw [if_pos hlength, List.getElem?_eq_none (length_eq q ▸ hlength)]
      dsimp only
      generalize pull _ q = x at hpull ⊢
      generalize Stream.pull _ q.stream = y at hpull ⊢
      cases hpull with
      | ok hs =>
        dsimp only
        rw [Chunk.at?_eq]
        exact .ok hs
      | error hs => exact .error hs
    · have hlt : offset < q.stream.buffered.length := by
        rw [← length_eq]
        omega
      rw [if_neg hlength, Chunk.at?_eq, List.getElem?_eq_getElem hlt,
        show (q.chunks.flatMap Chunk.items)[offset]? = some q.stream.buffered[offset] from
          List.getElem?_eq_getElem hlt]
      exact .ok hq

lemma tidy_ofBytes (text : Bytes) : (ofBytes text).Tidy :=
  (stream_append (q := empty) text Chunk.tidy_nil).2

/-- **Everything done to a stream can be taken back.**  Whatever is done to a stream, one that was
given a text or one that reads from a source: taking it back, the newest first, leads through the
positions and contents that the stream had, back to the first, each time as many items are removed
as had been pushed, and pushes in a row may be removed at once.  It is so for the streams
themselves, and for queues in memory, of which the chunks have their bounds wherever they happen to
be. -/
theorem streams_exact :
    Stream.tape.Exact id (fun _ => True) ∧ tape.Exact stream Tidy ∧
      (∀ text, (ofBytes text).Tidy ∧ (ofBytes text).stream = Stream.ofBytes text) ∧
      (∀ source, (ofSource source).Tidy ∧ (ofSource source).stream = Stream.ofSource source) ∧
      empty.Tidy ∧ empty.stream = Stream.empty := by
  refine ⟨Stream.exact_tape, models_tape.exact_of_stream, fun text => ⟨tidy_ofBytes text, ?_⟩,
    fun source => ⟨Chunk.tidy_nil, rfl⟩, Chunk.tidy_nil, rfl⟩
  exact (stream_append (q := empty) text Chunk.tidy_nil).1

end Queue

end Rewind
