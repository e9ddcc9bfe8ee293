import Mathlib.Algebra.GroupWithZero.Nat
import Mathlib.Data.List.Induction
import Rewind.Proofs.Stream

/-!
# Taking back what was done to a stream

Whatever is taken from a stream or pushed in front of it leaves a record, and the records are enough
to take everything back, the newest first: text is put back with the position it was taken from, a
tree is put back, and what was pushed is removed by its number of items, for one push or for several
in a row at once.  Reading may come in between at any time, before and while things are taken back.
At every point on the way back the stream holds what it held when the records that remain were all
there were.

A `Tape` is whatever offers the operations of a stream.  What is true of streams here is true of
every tape that comes to the same.
-/

namespace Rewind

/-- The operations of a stream. -/
structure Tape (σ : Type) where
  position : σ → Position
  extract : Nat → σ → Bytes × σ
  putBack : Bytes → Position → σ → σ
  takeTree? : σ → Option ((NodeId × Bool) × σ)
  pushText : Bytes → σ → σ
  pushTree : NodeId → Bool → σ → σ
  pushback : Nat → σ → Nat × σ
  pull : Nat → EStateM String σ Nat
  peek : Nat → EStateM String σ (Option Item)

namespace Tape

/-- What is done to a tape. -/
inductive Op where
  | extract (n : Nat)
  | takeTree
  | pushText (text : Bytes)
  | pushTree (node : NodeId) (ignore : Bool)
  | pull (n : Nat)
  | peek (offset : Nat)
  deriving DecidableEq, Repr

/-- What has to be known to take an operation back. -/
inductive Record where
  /-- Text was taken, from this position on. -/
  | text (text : Bytes) (start : Position)
  | tree (node : NodeId) (ignore : Bool)
  /-- So many items were pushed. -/
  | pushed (units : Nat)
  deriving DecidableEq, Repr

/-- What an operation leaves, whether it succeeds or fails. -/
def left {σ α : Type} : EStateM.Result String σ α → σ
  | .ok _ s => s
  | .error _ s => s

variable {σ : Type}

/-- An operation, and the record it leaves.  Reading leaves none, and neither does taking a tree
where there is none. -/
def perform (d : Tape σ) (s : σ) : Op → List Record × σ
  | .extract n => ([.text (d.extract n s).1 (d.position s)], (d.extract n s).2)
  | .takeTree =>
    match d.takeTree? s with
    | some (tree, t) => ([.tree tree.1 tree.2], t)
    | none => ([], s)
  | .pushText text => ([.pushed text.length], d.pushText text s)
  | .pushTree node ignore => ([.pushed 1], d.pushTree node ignore s)
  | .pull n => ([], left (d.pull n s))
  | .peek offset => ([], left (d.peek offset s))

/-- Operations one after another, with all their records, the newest first. -/
def performAll (d : Tape σ) (s : σ) (ops : List Op) : List Record × σ :=
  ops.foldl (fun x op => ((d.perform x.2 op).1 ++ x.1, (d.perform x.2 op).2)) ([], s)

/-- Taking back what the records tell of, the newest first and pushes in a row at once or not, leads
to the records that remain and to the tape then.  Reading may come in between. -/
inductive Unwinds (d : Tape σ) (records : List Record) (s : σ) : List Record → σ → Prop
  | refl : Unwinds d records s records s
  | text {u : σ} {text : Bytes} {start : Position} {rest : List Record} :
    Unwinds d records s (.text text start :: rest) u →
    Unwinds d records s rest (d.putBack text start u)
  | tree {u : σ} {node : NodeId} {ignore : Bool} {rest : List Record} :
    Unwinds d records s (.tree node ignore :: rest) u →
    Unwinds d records s rest (d.pushTree node ignore u)
  | pushes {u : σ} (ks : List Nat) {rest : List Record} :
    Unwinds d records s (ks.map .pushed ++ rest) u →
    Unwinds d records s rest (d.pushback ks.sum u).2
  | pull {u : σ} {rest : List Record} (n : Nat) :
    Unwinds d records s rest u → Unwinds d records s rest (left (d.pull n u))
  | peek {u : σ} {rest : List Record} (offset : Nat) :
    Unwinds d records s rest u → Unwinds d records s rest (left (d.peek offset u))

/-- Everything done to the tape can be taken back, and nothing more is.  What a tape holds is told
by a stream. -/
def Exact (d : Tape σ) (stream : σ → Stream) (ok : σ → Prop) : Prop :=
  ∀ s ops records t, ok s → d.performAll s ops = (records, t) →
    (∃ u, d.Unwinds records t [] u) ∧ ∀ rest u, d.Unwinds records t rest u →
      (∃ before later v, ops = before ++ later ∧ d.performAll s before = (rest, v) ∧
        (stream u).content = (stream v).content ∧ (stream u).position = (stream v).position) ∧
      (rest = [] →
        (stream u).content = (stream s).content ∧ (stream u).position = (stream s).position) ∧
      ∀ (ks : List Nat) (older : List Record), rest = ks.map .pushed ++ older →
        (d.pushback ks.sum u).1 = ks.sum

/-- All records can be used up. -/
lemma exists_unwinds {d : Tape σ} {records : List Record} {s : σ} {rest : List Record} :
    ∀ {u : σ}, d.Unwinds records s rest u → ∃ v, d.Unwinds records s [] v := by
  induction rest with
  | nil => exact fun h => ⟨_, h⟩
  | cons r rest ih =>
    intro u h
    cases r with
    | text text start => exact ih h.text
    | tree node ignore => exact ih h.tree
    | pushed k => exact ih (.pushes [k] h)

lemma performAll_concat (d : Tape σ) (s : σ) (ops : List Op) (op : Op) :
    d.performAll s (ops ++ [op]) =
      ((d.perform (d.performAll s ops).2 op).1 ++ (d.performAll s ops).1,
        (d.perform (d.performAll s ops).2 op).2) := by
  rw [performAll, List.foldl_append]
  rfl

end Tape

namespace Stream

def tape : Tape Stream :=
  ⟨Stream.position, extract, putBack, takeTree?, pushText, pushTree, pushback, pull, peek⟩

/-! ## What a record tells -/

/-- The first stream holds what the second one holds, and has as much of it at hand or more. -/
structure Alike (s t : Stream) : Prop where
  content : s.content = t.content
  position : s.position = t.position
  unread : s.unread.length ≤ t.unread.length

lemma Alike.refl (s : Stream) : Alike s s :=
  ⟨rfl, rfl, Nat.le_refl _⟩

variable {s t u v w : Stream}

lemma Alike.trans (h : Alike s t) (h' : Alike t u) : Alike s u :=
  ⟨h.content.trans h'.content, h.position.trans h'.position, Nat.le_trans h.unread h'.unread⟩

/-- A read leaves a stream alike, also if the source fails. -/
lemma alike_pull (n : Nat) (s : Stream) : Alike (Tape.left (pull n s)) s := by
  cases hpull : pull n s with
  | ok k t =>
    obtain ⟨hextends, -⟩ := extends_of_pull hpull
    exact ⟨hextends.content, hextends.position, hextends.unread⟩
  | error message t =>
    obtain ⟨hcontent, hposition⟩ := pull_error hpull
    refine ⟨hcontent, hposition, ?_⟩
    unfold pull at hpull
    split at hpull
    · cases hpull
    · rename_i hended
      dsimp only at hpull
      split at hpull
      · cases hpull
        rw [show s.unread = promised s.source from if_neg hended]
        exact length_promised_fetch n s.source
      · cases hpull

lemma alike_peek (offset : Nat) (s : Stream) : Alike (Tape.left (peek offset s)) s := by
  have hpull := alike_pull (offset + 1 - s.buffered.length) s
  unfold peek
  split
  · exact Alike.refl s
  · cases hresult : pull (offset + 1 - s.buffered.length) s with
    | ok k t => rwa [hresult] at hpull
    | error message t => rwa [hresult] at hpull

open Tape (Record Op)

/-- What a record tells of the stream before and behind an operation. -/
def Tells (s t : Stream) : Record → Prop
  | .text text start => s.content = text.map .byte ++ t.content ∧ s.position = start
  | .tree node ignore => s.content = .tree node ignore :: t.content ∧ s.position = t.position
  | .pushed k => s.content = t.content.drop k ∧ s.position = t.position ∧
    k + s.unread.length ≤ t.content.length

lemma length_unread_le (s : Stream) : s.unread.length ≤ s.content.length := by
  rw [content, List.length_append, List.length_map]
  omega

/-- An operation leaves the stream alike, or a record that tells what it did. -/
lemma perform_cases (s : Stream) (op : Op) :
    (tape.perform s op).1 = [] ∧ Alike (tape.perform s op).2 s ∨
      ∃ r, (tape.perform s op).1 = [r] ∧ Tells s (tape.perform s op).2 r ∧
        (tape.perform s op).2.unread = s.unread := by
  have hunread := length_unread_le s
  cases op with
  | extract n =>
    right
    obtain ⟨hcontent, -, hunread, -⟩ := content_extract (s := s) (n := n) rfl
    exact ⟨_, rfl, ⟨hcontent, rfl⟩, hunread⟩
  | takeTree =>
    rw [Tape.perform]
    split
    · rename_i tree t htree
      right
      have htree : s.takeTree? = some (tree, t) := htree
      unfold takeTree? at htree
      split at htree
      · rename_i node ignore rest hbuffered
        cases htree
        refine ⟨_, rfl, ⟨?_, rfl⟩, rfl⟩
        rw [content, hbuffered]
        rfl
      · cases htree
    · exact .inl ⟨rfl, .refl s⟩
  | pushText text =>
    right
    have hcontent : (pushText text s).content = text.map .byte ++ s.content :=
      content_pushText text s
    refine ⟨_, rfl, ⟨?_, rfl, ?_⟩, rfl⟩
    · change s.content = (pushText text s).content.drop text.length
      rw [hcontent, List.drop_left' (List.length_map _)]
    · change _ ≤ (pushText text s).content.length
      rw [hcontent, List.length_append, List.length_map]
      omega
  | pushTree node ignore =>
    right
    refine ⟨_, rfl, ⟨rfl, rfl, ?_⟩, rfl⟩
    change _ ≤ (pushTree node ignore s).content.length
    rw [content_pushTree, List.length_cons]
    omega
  | pull n => exact .inl ⟨rfl, alike_pull n s⟩
  | peek offset => exact .inl ⟨rfl, alike_peek offset s⟩

/-! ## Taking back one record, or pushes in a row -/

lemma Tells.putBack {text : Bytes} {start : Position} (h : Tells v w (.text text start))
    (hunread : w.unread = v.unread) (hu : Alike u w) : Alike (putBack text start u) v := by
  obtain ⟨hcontent, hstart⟩ := h
  refine ⟨?_, hstart.symm, hunread ▸ hu.unread⟩
  rw [content_putBack, hu.content, hcontent]

lemma Tells.pushTree {node : NodeId} {ignore : Bool} (h : Tells v w (.tree node ignore))
    (hunread : w.unread = v.unread) (hu : Alike u w) : Alike (pushTree node ignore u) v := by
  obtain ⟨hcontent, hposition⟩ := h
  refine ⟨?_, hu.position.trans hposition.symm, hunread ▸ hu.unread⟩
  rw [content_pushTree, hu.content, hcontent]

lemma Tells.pushback {k : Nat} (h : Tells v w (.pushed k)) (hunread : w.unread = v.unread)
    (hu : Alike u w) : (pushback k u).1 = k ∧ Alike (pushback k u).2 v := by
  obtain ⟨hcontent, hposition, hlong⟩ := h
  have hwv := congrArg List.length hunread
  have hle := hu.unread
  have hlength : k + u.unread.length ≤ w.content.length := by omega
  have hbuffered : k ≤ u.buffered.length := by
    have hparts := congrArg List.length hu.content
    rw [content, List.length_append, List.length_map] at hparts
    omega
  refine ⟨Nat.min_eq_left hbuffered, ?_, hu.position.trans hposition.symm, hunread ▸ hu.unread⟩
  rw [content_pushback hu.content hlength, hcontent]

lemma pushback_add (j k : Nat) (s : Stream) :
    pushback (j + k) s =
      ((pushback j s).1 + (pushback k (pushback j s).2).1, (pushback k (pushback j s).2).2) := by
  simp only [pushback, List.drop_drop, List.length_drop]
  congr 1
  omega

/-! ## The way back -/

variable {ops : List Op} {records rest : List Record} {r : Record}

lemma alike_of_performAll_nil (h : tape.performAll s ops = ([], v)) : Alike v s := by
  induction ops using List.reverseRecOn generalizing v with
  | nil =>
    cases h
    exact .refl s
  | append_singleton ops op ih =>
    rw [Tape.performAll_concat] at h
    obtain ⟨hrecords, hv⟩ := Prod.mk.inj h
    obtain ⟨hnew, hold⟩ := List.append_eq_nil_iff.1 hrecords
    have hops : Alike (tape.performAll s ops).2 s := ih (Prod.ext hold rfl)
    rcases perform_cases (tape.performAll s ops).2 op with ⟨-, halike⟩ | ⟨r, hr, -⟩
    · exact hv ▸ halike.trans hops
    · rw [hr] at hnew
      cases hnew

/-- The newest record was left by an operation, and behind it nothing was done but reading. -/
lemma performAll_cons (h : tape.performAll s ops = (r :: rest, v)) :
    ∃ before later w w', ops = before ++ later ∧ tape.performAll s before = (rest, w) ∧
      Tells w w' r ∧ w'.unread = w.unread ∧ Alike v w' := by
  induction ops using List.reverseRecOn generalizing v with
  | nil => cases h
  | append_singleton ops op ih =>
    rw [Tape.performAll_concat] at h
    obtain ⟨hrecords, hv⟩ := Prod.mk.inj h
    rcases perform_cases (tape.performAll s ops).2 op with
      ⟨hnone, halike⟩ | ⟨r', hr', htells, hunread⟩
    · rw [hnone, List.nil_append] at hrecords
      obtain ⟨before, later, w, w', hops, hbefore, htells, hunread, hw'⟩ :=
        ih (Prod.ext hrecords rfl)
      exact ⟨before, later ++ [op], w, w', by rw [hops, List.append_assoc], hbefore, htells,
        hunread, hv ▸ halike.trans hw'⟩
    · rw [hr'] at hrecords
      obtain ⟨rfl, hrest⟩ := List.cons.inj hrecords
      exact ⟨ops, [op], _, _, rfl, Prod.ext hrest rfl, htells, hunread, hv ▸ .refl _⟩

/-- On the way back the stream is what it was when the records that remain were all there were. -/
def Standing (s : Stream) (ops : List Op) (rest : List Record) (u : Stream) : Prop :=
  ∃ before later v, ops = before ++ later ∧ tape.performAll s before = (rest, v) ∧ Alike u v

/-- What the newest of the records that remain tells of the stream. -/
lemma Standing.cons (h : Standing s ops (r :: rest) u) :
    ∃ before later w w', ops = before ++ later ∧ tape.performAll s before = (rest, w) ∧
      Tells w w' r ∧ w'.unread = w.unread ∧ Alike u w' := by
  obtain ⟨before, later, v, rfl, hbefore, hu⟩ := h
  obtain ⟨before', later', w, w', rfl, hbefore', htells, hunread, hw'⟩ := performAll_cons hbefore
  exact ⟨before', later' ++ later, w, w', List.append_assoc .., hbefore', htells, hunread,
    hu.trans hw'⟩

lemma Standing.pushback {ks : List Nat} (h : Standing s ops (ks.map .pushed ++ rest) u) :
    (pushback ks.sum u).1 = ks.sum ∧ Standing s ops rest (pushback ks.sum u).2 := by
  induction ks generalizing u with
  | nil => exact ⟨Nat.zero_min _, h⟩
  | cons k ks ih =>
    obtain ⟨before, later, w, w', hops, hbefore, htells, hunread, hu⟩ := h.cons
    obtain ⟨hk, hw⟩ := htells.pushback hunread hu
    obtain ⟨hks, hstanding⟩ :=
      ih (u := (Stream.pushback k u).2) ⟨before, later, w, hops, hbefore, hw⟩
    rw [List.sum_cons, pushback_add, hk, hks]
    exact ⟨rfl, hstanding⟩

lemma standing_of_unwinds (hperform : tape.performAll s ops = (records, t))
    (h : tape.Unwinds records t rest u) : Standing s ops rest u := by
  induction h with
  | refl => exact ⟨ops, [], t, (List.append_nil ops).symm, hperform, .refl t⟩
  | text _ ih =>
    obtain ⟨before, later, w, w', hops, hbefore, htells, hunread, hu⟩ := ih.cons
    exact ⟨before, later, w, hops, hbefore, htells.putBack hunread hu⟩
  | tree _ ih =>
    obtain ⟨before, later, w, w', hops, hbefore, htells, hunread, hu⟩ := ih.cons
    exact ⟨before, later, w, hops, hbefore, htells.pushTree hunread hu⟩
  | pushes ks _ ih => exact ih.pushback.2
  | pull n _ ih =>
    obtain ⟨before, later, v, hops, hbefore, hu⟩ := ih
    exact ⟨before, later, v, hops, hbefore, (alike_pull n _).trans hu⟩
  | peek offset _ ih =>
    obtain ⟨before, later, v, hops, hbefore, hu⟩ := ih
    exact ⟨before, later, v, hops, hbefore, (alike_peek offset _).trans hu⟩

/-- Everything done to a stream can be taken back. -/
theorem exact_tape : tape.Exact id fun _ => True := by
  intro s ops records t _ hperform
  refine ⟨Tape.exists_unwinds .refl, fun rest u hunwinds => ?_⟩
  have hstanding : Standing s ops rest u := standing_of_unwinds hperform hunwinds
  obtain ⟨before, later, v, hops, hbefore, hu⟩ := id hstanding
  refine ⟨⟨before, later, v, hops, hbefore, hu.content, hu.position⟩, ?_, ?_⟩
  · rintro rfl
    have hs := hu.trans (alike_of_performAll_nil hbefore)
    exact ⟨hs.content, hs.position⟩
  · rintro ks older rfl
    exact (hstanding.pushback).1

end Stream

end Rewind
