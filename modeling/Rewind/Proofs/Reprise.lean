import Rewind.Proofs.Flat
import Rewind.Proofs.Frontage
import Rewind.Proofs.Requests
import Rewind.Proofs.Slots

/-!
# Runs that repeat others

A run that was taken back to a step and goes on from there is not quite what it was at that step.
Its pool has opened more slots, more of its stream is at hand, its scanner remembers other scans,
and a tree that a caller pushed may have lost its place in a chain and the state it had entered
before.

None of this makes a difference.  A run and one that repeats it, as far as a `Reprise` tells, do the
same, operation by operation, and match again afterwards.  All that has to be known is that the
first one never reads further ahead in its stream than what is at hand in the other.
-/

namespace Rewind

/-- The node with the place in a chain and the state of another one. -/
def Node.placedAs (k n : Node) : Node :=
  { n with next := k.next, state := k.state }

/-- A pool that is ahead is sound where the other one is. -/
lemma Pool.Ahead.sound {α : Type} {opened : Nat} {p q : Pool α} (h : Pool.Ahead opened p q)
    (hp : p.Sound) (hget : ∀ id, p.get? id = none → q.get? id = none) : q.Sound := by
  have hsize : p.slots.size ≤ q.slots.size := by
    rw [h.size]
    exact Nat.le_max_right ..
  refine ⟨?_, fun id hid => ?_⟩
  · rw [h.released]
    refine List.nodup_append.2 ⟨hp.nodup, List.nodup_range', fun id hid j hj heq => ?_⟩
    subst heq
    exact absurd (hp.vacant id hid).1 (Nat.not_lt.2 (List.left_le_of_mem_range' hj))
  · rw [h.released] at hid
    rcases List.mem_append.1 hid with hid | hid
    · obtain ⟨hlt, hnone⟩ := hp.vacant id hid
      exact ⟨Nat.lt_of_lt_of_le hlt hsize, hget id hnone⟩
    · obtain ⟨hle, hlt⟩ := List.mem_range'_1.1 hid
      rw [Nat.add_sub_cancel' hsize] at hlt
      refine ⟨hlt, hget id ?_⟩
      by_contra hlive
      obtain ⟨a, ha⟩ := Option.ne_none_iff_exists'.1 hlive
      exact absurd (Pool.lt_size_of_get? ha) (Nat.not_lt.2 hle)

namespace Run

open Attempt Op

/-- The result is an answer, or an error that does not end the run. -/
inductive Ensues {α : Type} : Result α → Except Error α → Run → Prop
  | ok (a : α) (s : Run) : Ensues (.ok a s) (.ok a) s
  | error {e : Error} (s : Run) : e.isFatal = false → Ensues (.error (.error e) s) (.error e) s

lemma Ensues.eq_ok {α : Type} {x : Result α} {a : α} {s : Run} (h : Ensues x (.ok a) s) :
    x = .ok a s := by
  cases h
  rfl

lemma Ensues.eq_error {α : Type} {x : Result α} {e : Error} {s : Run}
    (h : Ensues x (.error e) s) : x = .error (.error e) s ∧ e.isFatal = false := by
  cases h with
  | error s he => exact ⟨rfl, he⟩

/-- From where a run is repeated. -/
structure Reprise where
  /-- The nodes that the second run begins with. -/
  nodes : Nodes
  /-- The number of slots that its pool has opened. -/
  opened : Nat
  /-- The number of bytes that were not read in advance. -/
  unread : Nat
  /-- Whether the source has said in advance that it ended. -/
  ended : Bool
  /-- What the first run told before. -/
  told : List Event
  /-- What the second run told before. -/
  retold : List Event

namespace Reprise

/-- The second stream holds what the first one does, and was read in advance. -/
structure Reads (p : Reprise) (stream stream' : Stream) : Prop where
  content : stream'.content = stream.content
  position : stream'.position = stream.position
  unread : stream'.unread.length = p.unread
  ended : stream'.sourceEnded = p.ended

/-- The run has not read further ahead than was read in advance. -/
def Supplied (p : Reprise) (r : Run) : Prop :=
  ∃ stream, r.scanner.stream = some stream ∧
    p.unread ≤ stream.unread.length ∧ (stream.sourceEnded = true → p.ended = true)

/-- The second run is the first, but for what is behind its nodes and its stream, and for what it
told before.  A node that waits may still have the place and the state that it had at first. -/
structure Matches (p : Reprise) (r s : Run) : Prop where
  parts : ∃ scanner forest events, s = { r with scanner, forest, events }
  events : ∃ told, r.events = told ++ p.told ∧ s.events = told ++ p.retold
  stream : ∃ stream stream', r.scanner.stream = some stream ∧ s.scanner.stream = some stream' ∧
    p.Reads stream stream'
  forest : Pool.Ahead p.opened r.forest s.forest
  nodes : ∀ id, Pool.get? s.forest id = Pool.get? r.forest id ∨ id ∈ r.waiting ∧
    ∃ k, p.nodes id = some k ∧
      Pool.get? s.forest id = (Pool.get? r.forest id).map (Node.placedAs k)

/-- Whatever the operation comes to on a run, it comes to on any run that matches. -/
def Repeats (p : Reprise) {α : Type} (op : Op α) (r : Run) : Prop :=
  ∀ ⦃out : Except Error α⦄ ⦃r' : Run⦄, Ensues (op r) out r' → p.Supplied r' →
    p.Supplied r ∧ ∀ s, p.Matches r s → ∃ s', Ensues (op s) out s' ∧ p.Matches r' s'

variable {p : Reprise} {m : Machine} {r s : Run} {stream stream' : Stream} {id : NodeId} {n : Node}
  {α β : Type}

/-! ## What matching runs have in common -/

namespace Matches

lemma waiting (h : p.Matches r s) : s.waiting = r.waiting := by
  obtain ⟨stream, stream', hr, hs, hreads⟩ := h.stream
  obtain ⟨scanner, forest, events, hparts⟩ := h.parts
  have hqueue : s.queue = r.queue := by rw [hparts]
  rw [Run.waiting, Run.waiting, hqueue, (content_eq hr).1, (content_eq hs).1, hreads.content]

lemma position (h : p.Matches r s) : s.position = r.position := by
  obtain ⟨stream, stream', hr, hs, hreads⟩ := h.stream
  simp only [Run.position, Scanner.position?, hr, hs, Option.map_some, Option.getD_some,
    hreads.position]

/-- What a node is, but for its place and its state. -/
lemma node (h : p.Matches r s) (hn : Pool.get? r.forest id = some n) :
    ∃ next state, Pool.get? s.forest id = some { n with next, state } := by
  rcases h.nodes id with hsame | ⟨-, k, -, hplaced⟩
  · exact ⟨n.next, n.state, hsame.trans hn⟩
  · rw [hn] at hplaced
    exact ⟨k.next, k.state, hplaced⟩

lemma node_eq (h : p.Matches r s) (hout : id ∉ r.waiting) :
    Pool.get? s.forest id = Pool.get? r.forest id := by
  rcases h.nodes id with hsame | ⟨hin, -⟩
  · exact hsame
  · exact absurd hin hout

lemma vacant (h : p.Matches r s) (hid : Pool.get? r.forest id = none) :
    Pool.get? s.forest id = none := by
  rcases h.nodes id with hsame | ⟨-, k, -, hplaced⟩
  · exact hsame.trans hid
  · rw [hplaced, hid]
    rfl

lemma sound (h : p.Matches r s) (hpool : Pool.Sound r.forest) : Pool.Sound s.forest :=
  h.forest.sound hpool fun _ => h.vacant

/-- Runs that match show the same, and what the first one shows at hand the second one does. -/
lemma supplies (h : p.Matches r s) (hsupplied : p.Supplied r) :
    ∃ stream stream', r.scanner.stream = some stream ∧ s.scanner.stream = some stream' ∧
      p.Reads stream stream' ∧ stream'.Supplies stream := by
  obtain ⟨stream, stream', hr, hs, hreads⟩ := h.stream
  obtain ⟨stream₁, hr₁, hunread, hended⟩ := hsupplied
  obtain rfl : stream = stream₁ := Option.some.inj (hr.symm.trans hr₁)
  refine ⟨stream, stream', hr, hs, hreads, hreads.content, ?_, fun h => ?_⟩
  · rw [hreads.unread]
    exact hunread
  · rw [hreads.ended]
    exact hended h

/-- Both tell the same. -/
lemma tell (h : p.Matches r s) (event : Event) :
    p.Matches { r with events := event :: r.events } { s with events := event :: s.events } := by
  obtain ⟨told, hr, hs⟩ := h.events
  obtain ⟨scanner, forest, events, rfl⟩ := h.parts
  exact ⟨⟨_, _, _, rfl⟩, ⟨event :: told, congrArg (event :: ·) hr, congrArg (event :: ·) hs⟩,
    h.stream, h.forest, h.nodes⟩

end Matches

/-! ## Putting operations together -/

namespace Repeats

lemma pure (a : α) : p.Repeats (pure a) r := by
  intro out r' h hsupplied
  cases h
  exact ⟨hsupplied, fun s hs => ⟨s, .ok a s, hs⟩⟩

lemma fail (e : Error) : p.Repeats (Op.fail e : Op α) r := by
  intro out r' h hsupplied
  cases h with
  | error _ he => exact ⟨hsupplied, fun s hs => ⟨s, .error s he, hs⟩⟩

/-- Where the operation only meets errors that end the run, there is nothing to repeat. -/
lemma of_grave {op : Op α} (hgrave : Grave op) (h : ∀ ⦃a : α⦄ ⦃r' : Run⦄, op r = .ok a r' →
    p.Supplied r' → p.Supplied r ∧ ∀ s, p.Matches r s → ∃ s', op s = .ok a s' ∧ p.Matches r' s') :
    p.Repeats op r := by
  intro out r' hensues hsupplied
  cases hrun : op r with
  | ok a t =>
    rw [hrun] at hensues
    cases hensues
    obtain ⟨hr, hrest⟩ := h hrun hsupplied
    refine ⟨hr, fun s hs => ?_⟩
    obtain ⟨s', hs', hmatches⟩ := hrest s hs
    exact ⟨s', by rw [hs']; exact .ok a s', hmatches⟩
  | error e t =>
    rw [hrun] at hensues
    cases hensues with
    | error _ he =>
      rw [hgrave hrun] at he
      cases he

lemma bind {x : Op α} {f : α → Op β} (hx : p.Repeats x r)
    (hf : ∀ a t, x r = .ok a t → p.Repeats (f a) t) : p.Repeats (x >>= f) r := by
  intro out r' h hsupplied
  cases hrun : x r with
  | ok a t =>
    rw [bind_ok hrun] at h
    obtain ⟨ht, hrest⟩ := hf a t hrun h hsupplied
    obtain ⟨hr, hfirst⟩ := hx (by rw [hrun]; exact .ok a t) ht
    refine ⟨hr, fun s hs => ?_⟩
    obtain ⟨s₁, hs₁, hmatches⟩ := hfirst s hs
    rw [bind_ok hs₁.eq_ok]
    exact hrest s₁ hmatches
  | error e t =>
    rw [bind_error hrun] at h
    cases h with
    | error _ he =>
      obtain ⟨hr, hfirst⟩ := hx (by rw [hrun]; exact .error r' he) hsupplied
      refine ⟨hr, fun s hs => ?_⟩
      obtain ⟨s', hs', hmatches⟩ := hfirst s hs
      rw [bind_error hs'.eq_error.1]
      exact ⟨s', .error s' he, hmatches⟩

/-- Two operations of which the second does not depend on what the first came to. -/
lemma seq {x : Op α} {f : α → Op β} (hx : p.Repeats x r) (hf : ∀ a t, p.Repeats (f a) t) :
    p.Repeats (x >>= f) r :=
  hx.bind fun a t _ => hf a t

/-- An operation that begins by reading what matching runs have in common. -/
lemma look {f : Run → Op α} (hsame : ∀ s, p.Matches r s → f s = f r) (hf : p.Repeats (f r) r) :
    p.Repeats (get >>= f) r := by
  intro out r' h hsupplied
  rw [get_bind] at h
  obtain ⟨hr, hrest⟩ := hf h hsupplied
  refine ⟨hr, fun s hs => ?_⟩
  rw [get_bind, hsame s hs]
  exact hrest s hs

/-- So does one that reads neither nodes nor the stream. -/
lemma glance {f : Run → Op α}
    (hsame : ∀ scanner forest events, f { r with scanner, forest, events } = f r)
    (hf : p.Repeats (f r) r) : p.Repeats (get >>= f) r :=
  look (fun s hs => by
    obtain ⟨scanner, forest, events, rfl⟩ := hs.parts
    exact hsame scanner forest events) hf

lemma lookup (x : Except Fault α) : p.Repeats (Op.lookup x) r := by
  cases x with
  | ok a => exact pure a
  | error f => exact fun _ _ h => nomatch h

/-- What can be looked up in a run can be looked up in all that match. -/
lemma reads {g : Run → Except Fault α} {f : Run → α → Op β}
    (hsame : ∀ a, g r = .ok a → ∀ s, p.Matches r s → g s = .ok a ∧ f s a = f r a)
    (hf : ∀ a, g r = .ok a → p.Repeats (f r a) r) :
    p.Repeats (get >>= fun r => Op.lookup (g r) >>= f r) r := by
  cases hg : g r with
  | ok a =>
    have hrun : (get >>= fun r => Op.lookup (g r) >>= f r) r = f r a r := by
      rw [get_bind, hg]
      rfl
    intro out r' h hsupplied
    rw [hrun] at h
    obtain ⟨hr, hrest⟩ := hf a hg h hsupplied
    refine ⟨hr, fun s hs => ?_⟩
    obtain ⟨hs', hfs⟩ := hsame a hg s hs
    have hrun' : (get >>= fun r => Op.lookup (g r) >>= f r) s = f r a s := by
      rw [get_bind, hs', ← hfs]
      rfl
    rw [hrun']
    exact hrest s hs
  | error e =>
    intro out r' h
    rw [get_bind, hg] at h
    cases h

lemma ite {c : Prop} [Decidable c] {x y : Op α} (hx : c → p.Repeats x r)
    (hy : ¬c → p.Repeats y r) : p.Repeats (if c then x else y) r := by
  split
  · exact hx ‹_›
  · exact hy ‹_›

/-! ## Small operations -/

/-- A change of what matching runs have in common.  No node stops waiting. -/
lemma modify {f : Run → Run}
    (hsame : ∀ scanner forest events, f { r with scanner, forest, events } =
      { f r with scanner, forest, events })
    (hwaiting : ∀ id ∈ r.waiting, id ∈ (f r).waiting) : p.Repeats (modify f) r := by
  have hself : f r = { f r with scanner := r.scanner, forest := r.forest, events := r.events } :=
    hsame r.scanner r.forest r.events
  have hscanner : (f r).scanner = r.scanner := by rw [hself]
  have hforest : (f r).forest = r.forest := by rw [hself]
  have hevents : (f r).events = r.events := by rw [hself]
  intro out r' h hsupplied
  cases h
  refine ⟨by rw [Supplied, ← hscanner]; exact hsupplied, fun s hs => ?_⟩
  refine ⟨f s, .ok () (f s), ?_⟩
  obtain ⟨scanner, forest, events, rfl⟩ := hs.parts
  rw [hsame scanner forest events]
  refine ⟨⟨_, _, _, rfl⟩, ?_, ?_, ?_, fun id => ?_⟩
  · rw [hevents]
    exact hs.events
  · rw [hscanner]
    exact hs.stream
  · rw [hforest]
    exact hs.forest
  · rw [hforest]
    exact (hs.nodes id).imp_right fun h => ⟨hwaiting id h.1, h.2⟩

lemma write (record : Record) : p.Repeats (Op.write record) r :=
  modify (fun _ _ _ => rfl) fun _ => id

lemma tell (event : Event) : p.Repeats (Op.tell event) r := by
  intro out r' h hsupplied
  cases h
  exact ⟨hsupplied, fun s hs => ⟨_, .ok () _, hs.tell event⟩⟩

lemma putBack (id : NodeId) : p.Repeats (Op.putBack id) r :=
  modify (fun _ _ _ => rfl) fun j hj => by
    simp only [waiting, List.mem_append] at hj ⊢
    exact hj.imp_left .inl

lemma putFront (id : NodeId) : p.Repeats (Op.putFront id) r :=
  modify (fun _ _ _ => rfl) fun _ hj => List.mem_cons_of_mem _ hj

/-- Reading a node, of which only what matches is used. -/
lemma node {f : Node → Op α} (hsame : ∀ n next state, f { n with next, state } = f n)
    (hf : ∀ n, Pool.get? r.forest id = some n → p.Repeats (f n) r) :
    p.Repeats (Op.node id >>= f) r := by
  intro out r' h hsupplied
  cases hn : Pool.get? r.forest id with
  | some n =>
    rw [bind_ok (node_ok hn)] at h
    obtain ⟨hr, hrest⟩ := hf n hn h hsupplied
    refine ⟨hr, fun s hs => ?_⟩
    obtain ⟨next, state, hn'⟩ := hs.node hn
    rw [bind_ok (node_ok hn'), hsame]
    exact hrest s hs
  | none =>
    have hread : Op.node id r = .error (.fault (.deadSlot id)) r := by
      simp only [Op.node, get_bind, Pool.read, hn]
      rfl
    rw [bind_error hread] at h
    cases h

/-- A node is changed that does not wait. -/
lemma change (f : Node → Node) (hout : id ∉ r.waiting) : p.Repeats (Op.change id f) r := by
  refine of_grave (Law.grave_rearranges.change id f).grave fun _ r' h hsupplied => ?_
  obtain ⟨n, hn, rfl⟩ := change_eq_ok.1 h
  refine ⟨hsupplied, fun s hs => ?_⟩
  have hn' : Pool.get? s.forest id = some n := (hs.node_eq hout).trans hn
  refine ⟨_, change_ok hn', ?_⟩
  obtain ⟨scanner, forest, events, rfl⟩ := hs.parts
  refine ⟨⟨_, _, _, rfl⟩, hs.events, hs.stream,
    hs.forest.keep (Pool.sameSlots_put ..) (Pool.sameSlots_put ..), fun j => ?_⟩
  by_cases hj : j = id
  · subst hj
    exact .inl ((Pool.get?_put_self hn').trans (Pool.get?_put_self hn).symm)
  · have hnodes := hs.nodes j
    rw [← Pool.get?_put_of_ne (p := r.forest) (a := f n) hj] at hnodes
    rwa [← Pool.get?_put_of_ne (p := forest) (a := f n) hj] at hnodes

/-- Matching runs find the same slot. -/
lemma alloc (n : Node) (hpool : Pool.Sound r.forest) : p.Repeats (Op.alloc n) r := by
  refine of_grave (Law.grave_handles.alloc n).grave fun id r' h hsupplied => ?_
  obtain ⟨made, halloc, rfl⟩ := alloc_eq_ok.1 h
  refine ⟨hsupplied, fun s hs => ?_⟩
  obtain ⟨made', halloc', hahead⟩ := hs.forest.alloc halloc n
  refine ⟨_, alloc_eq_ok.2 ⟨made', halloc', rfl⟩, ?_⟩
  obtain ⟨hvacant, hget⟩ := Pool.get?_of_alloc hpool halloc
  obtain ⟨-, hget'⟩ := Pool.get?_of_alloc (hs.sound hpool) halloc'
  obtain ⟨scanner, forest, events, rfl⟩ := hs.parts
  refine ⟨⟨_, _, _, rfl⟩, hs.events, hs.stream, hahead, fun j => ?_⟩
  dsimp only
  rw [hget, hget']
  by_cases hj : j = id
  · subst hj
    exact .inl (by rw [Function.update_self, Function.update_self])
  · rw [Function.update_of_ne hj, Function.update_of_ne hj]
    exact hs.nodes j

/-! ## The stream -/

/-- What is done in front of a stream is done in front of one that supplies it. -/
lemma onStream {f : Stream → α × Stream}
    (hsource : ∀ s, (f s).2.source = s.source ∧ (f s).2.sourceEnded = s.sourceEnded)
    (hsame : ∀ stream stream', r.scanner.stream = some stream → p.Reads stream stream' →
      stream'.Supplies stream → (f stream').1 = (f stream).1 ∧
        (f stream').2.content = (f stream).2.content ∧
        (f stream').2.position = (f stream).2.position)
    (hwaiting : ∀ stream, r.scanner.stream = some stream →
      ∀ id ∈ trees stream.content, id ∈ trees (f stream).2.content) :
    p.Repeats (Op.onStream f) r := by
  have hunread (s : Stream) : (f s).2.unread = s.unread := by
    rw [Stream.unread, Stream.unread, (hsource s).1, (hsource s).2]
  refine of_grave (Law.grave_onScanner _).grave fun a r' h hsupplied => ?_
  obtain ⟨stream, hr, rfl, rfl⟩ := onStream_eq_ok.1 h
  have hr' : p.Supplied r := by
    obtain ⟨stream₁, hs₁, hsupplied, hended⟩ := hsupplied
    cases hs₁
    rw [(hsource stream).2] at hended
    rw [hunread] at hsupplied
    exact ⟨stream, hr, hsupplied, hended⟩
  refine ⟨hr', fun s hs => ?_⟩
  obtain ⟨stream₁, stream', hr₁, hs', hreads, hsupplies⟩ := hs.supplies hr'
  obtain rfl : stream = stream₁ := Option.some.inj (hr.symm.trans hr₁)
  obtain ⟨hanswer, hcontent, hposition⟩ := hsame stream stream' hr hreads hsupplies
  refine ⟨_, onStream_eq_ok.2 ⟨stream', hs', hanswer.symm, rfl⟩, ?_⟩
  obtain ⟨scanner, forest, events, rfl⟩ := hs.parts
  refine ⟨⟨_, _, _, rfl⟩, hs.events, ⟨_, _, rfl, rfl, hcontent, hposition, ?_, ?_⟩, hs.forest,
    fun id => (hs.nodes id).imp_right fun h => ⟨?_, h.2⟩⟩
  · rw [hunread]
    exact hreads.unread
  · exact (hsource stream').2.trans hreads.ended
  · have hid := h.1
    rw [waiting, (content_eq hr).1, List.mem_append] at hid
    rw [waiting, List.mem_append]
    exact hid.imp_right (hwaiting stream hr id)

/-- Something is put in front of the stream. -/
lemma changeStream {f : Stream → Stream} (front : List Item)
    (hf : ∀ s, (f s).source = s.source ∧ (f s).sourceEnded = s.sourceEnded ∧
      (f s).position = s.position ∧ (f s).content = front ++ s.content) :
    p.Repeats (Op.changeStream f) r := by
  refine onStream (fun s => ⟨(hf s).1, (hf s).2.1⟩) (fun stream stream' _ hreads _ => ?_)
    fun stream _ id hid => ?_
  · refine ⟨rfl, ?_, ?_⟩
    · rw [(hf _).2.2.2, (hf _).2.2.2, hreads.content]
    · rw [(hf _).2.2.1, (hf _).2.2.1, hreads.position]
  · rw [(hf stream).2.2.2, trees_append]
    exact List.mem_append_right _ hid

/-- Text that is at hand is taken. -/
lemma extract {length : Nat} (hlength : ∀ stream, r.scanner.stream = some stream →
    length ≤ Stream.leading stream.buffered) :
    p.Repeats (Op.onStream (·.extract length)) r := by
  refine onStream (fun _ => ⟨rfl, rfl⟩) (fun stream stream' hr hreads hsupplies => ?_)
    fun stream _ id hid => ?_
  · obtain ⟨more, hmore⟩ := Stream.buffered_of_supplies hsupplies
    have htext : (stream'.extract length).1 = (stream.extract length).1 := by
      simp only [Stream.extract, hmore, Stream.splitText_append (hlength stream hr)]
    obtain ⟨hcontent, hposition, -, -⟩ := Stream.content_extract
      (show stream.extract length = ((stream.extract length).1, (stream.extract length).2) from rfl)
    obtain ⟨hcontent', hposition', -, -⟩ := Stream.content_extract
      (show stream'.extract length = ((stream'.extract length).1, (stream'.extract length).2)
        from rfl)
    refine ⟨htext, ?_, ?_⟩
    · rw [htext, hreads.content, hcontent] at hcontent'
      exact (List.append_cancel_left hcontent').symm
    · rw [hposition', hposition, htext, hreads.position]
  · obtain ⟨hcontent, -, -, -⟩ := Stream.content_extract
      (show stream.extract length = ((stream.extract length).1, (stream.extract length).2) from rfl)
    rwa [hcontent, trees_bytes_append] at hid

/-- A scan finds the same, and reads no further. -/
lemma scan (region : RegionId) : p.Repeats (Op.scan m region) r := by
  refine of_grave (Law.grave_onScanner _).grave fun outcome r' h hsupplied => ?_
  obtain ⟨-, ⟨stream, rest, scanner, hr, hrest, hextends, rfl⟩, -, -, -⟩ := scan_ok h
  obtain ⟨rest₁, hrest₁, hunread, hended⟩ := hsupplied
  obtain rfl : rest = rest₁ := Option.some.inj (hrest.symm.trans hrest₁)
  have hrun : Scanner.run m.scanner region r.scanner = .ok outcome scanner := by
    unfold Op.scan Op.onScanner at h
    split at h
    · rename_i hrun
      cases h
      exact hrun
    · cases h
    · cases h
  refine ⟨⟨stream, hr, Nat.le_trans hunread hextends.unread, fun h => hended (hextends.ended h)⟩,
    fun s hs => ?_⟩
  obtain ⟨stream₁, stream', hr₁, hs', hreads⟩ := hs.stream
  obtain rfl : stream = stream₁ := Option.some.inj (hr.symm.trans hr₁)
  have hsupplies : stream'.Supplies rest := by
    refine ⟨hreads.content.trans hextends.content.symm, ?_, fun h => ?_⟩
    · rw [hreads.unread]
      exact hunread
    · rw [hreads.ended]
      exact hended h
  obtain ⟨scanner', hrun', hstream'⟩ := Scanner.run_supplied hrun hrest hsupplies hs'
  refine ⟨{ s with scanner := scanner' }, ?_, ?_⟩
  · rw [Op.scan, Op.onScanner, hrun']
  · obtain ⟨scanner₁, forest, events, rfl⟩ := hs.parts
    refine ⟨⟨_, _, _, rfl⟩, hs.events, ⟨rest, stream', hrest, hstream',
      hreads.content.trans hextends.content.symm, hreads.position.trans hextends.position.symm,
      hreads.unread, hreads.ended⟩, hs.forest, fun id => (hs.nodes id).imp_right fun h => ⟨?_, h.2⟩⟩
    have hid := h.1
    rw [waiting, (content_eq hr).1, ← hextends.content] at hid
    rwa [waiting, (content_eq (r := { r with scanner }) hrest).1]

end Repeats

end Reprise

end Run

end Rewind
