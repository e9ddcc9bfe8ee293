import Rewind.Proofs.Failures
import Rewind.Proofs.Reprise
import Rewind.Proofs.Turns

/-!
# Repeating what goes forward

A run in order finds nothing on its stack that waits, so whatever it does forward it reads nodes
that are the same in every run that matches.  A node stops waiting only when it is put into a chain:
then its place is overwritten, and so is its state if it is put on the stack.  Nothing overwrites
the state of a tree that is set aside, which has to be that of the second run already.
-/

namespace Rewind.Run

open Attempt Op

/-- The pool is sound, and what waits is in it. -/
structure Sheltered (r : Run) : Prop where
  pool : Pool.Sound r.forest
  live : ∀ id ∈ r.waiting, (Pool.get? r.forest id).isSome

/-- A run in order has a stack of nodes that do not wait. -/
structure Ordered (r : Run) : Prop extends Sheltered r where
  stack : ∃ ids, Linked (Pool.get? r.forest) r.stack ids none ∧ ∀ id ∈ ids, id ∉ r.waiting

variable {p : Reprise} {m : Machine} {r s t : Run} {id : NodeId} {n : Node}

lemma Sheltered.keep (h : Sheltered r) (hforest : s.forest = r.forest)
    (hwaiting : ∀ id ∈ s.waiting, id ∈ r.waiting) : Sheltered s := by
  refine ⟨by rw [hforest]; exact h.pool, fun id hid => ?_⟩
  rw [hforest]
  exact h.live id (hwaiting id hid)

/-- A node that finds a slot did not wait before. -/
lemma Sheltered.made (h : Sheltered r) (halloc : Op.alloc n r = .ok id s) :
    id ∉ s.waiting ∧ Pool.Sound s.forest := by
  obtain ⟨forest, hmade, rfl⟩ := alloc_eq_ok.1 halloc
  refine ⟨fun hid => ?_, Pool.sound_of_alloc h.pool hmade⟩
  have hlive := h.live id hid
  rw [(Pool.get?_of_alloc h.pool hmade).1] at hlive
  cases hlive

lemma Ordered.keep (h : Ordered r) (hforest : s.forest = r.forest) (hstack : s.stack = r.stack)
    (hwaiting : ∀ id ∈ s.waiting, id ∈ r.waiting) : Ordered s := by
  obtain ⟨ids, hlinked, hout⟩ := h.stack
  refine ⟨h.toSheltered.keep hforest hwaiting, ids, ?_, fun id hid hmem => ?_⟩
  · rw [hforest, hstack]
    exact hlinked
  · exact hout id hid (hwaiting id hmem)

lemma Ordered.top (h : Ordered r) (hstack : r.stack = some id) : id ∉ r.waiting := by
  obtain ⟨ids, hlinked, hout⟩ := h.stack
  rw [hstack] at hlinked
  cases hlinked with
  | cons _ _ => exact hout id List.mem_cons_self

lemma ordered {strict : Prop} (ht : Tidy strict r) (ho : Orderly r.view) : Ordered r := by
  obtain ⟨ids, hlinked, -, hshown⟩ := stack_shown ho
  refine ⟨⟨ht.pool, fun id hid => ?_⟩, ids, hlinked, fun id hid => (hshown id hid).1⟩
  rw [← isSome_shown]
  exact ho.live id hid

/-- A stack is taken apart the same way wherever its nodes are the same. -/
lemma unstack_congr {f g : Forest} {top : Option NodeId} {ids taken : List NodeId} {needed : Nat}
    (h : Linked (Pool.get? f) top ids none)
    (hsame : ∀ id ∈ ids, Pool.get? g id = Pool.get? f id) :
    unstack g needed top taken = unstack f needed top taken := by
  induction needed generalizing top ids taken with
  | zero => rfl
  | succ needed ih =>
    cases h with
    | nil => rfl
    | cons hn hrest =>
      rw [unstack_cons hn, unstack_cons ((hsame _ List.mem_cons_self).trans hn)]
      exact ih hrest fun id hid => hsame id (List.mem_cons_of_mem _ hid)

/-- Taking a tree, as one equation. -/
lemma takeTree_apply {stream : Stream} {items : List Item} {region : RegionId} {ignore : Bool}
    (hs : r.scanner.stream = some stream) (hbuffered : stream.buffered = .tree id ignore :: items)
    (hn : Pool.get? r.forest id = some n) :
    takeTree region id ignore r = .ok (if ignore then .skipped else .queued) { marked r with
      scanner := { r.scanner with stream := some { stream with buffered := items } }
      events := .token region n.element n.text :: r.events
      log := (marked r).log.append (.treeTaken id ignore)
      forest := if ignore then r.forest.put id { n with next := r.aside } else r.forest
      queue := if ignore then r.queue else r.queue ++ [id]
      aside := if ignore then some id else r.aside } := by
  obtain ⟨-, hforest, hqueue, haside⟩ := sameCourse_marked r
  have hevents : (marked r).events = r.events := by
    unfold marked
    split <;> rfl
  have htake : stream.takeTree? = some ((id, ignore), { stream with buffered := items }) := by
    rw [Stream.takeTree?, hbuffered]
  have hn' : Pool.get? (marked r).forest id = some n := by rwa [hforest]
  rw [takeTree, bind_ok (changeStream_ok hs)]
  simp only [htake]
  rw [bind_ok (tookInput_apply _), marked_scanner, write_bind,
    bind_ok (node_ok (by exact hn')), tell_bind]
  cases ignore with
  | true =>
    simp only [if_true]
    rw [bind_ok (setAside_eq_ok (u := ()) |>.2 ⟨n, by exact hn', rfl⟩)]
    simp only [hforest, haside, hqueue, hevents, pure_apply]
  | false =>
    simp only [Bool.false_eq_true, if_false, putBack, modify_bind, pure_apply, hforest, haside,
      hqueue, hevents]

namespace Reprise

/-- The trees that are to be set aside have entered the same states in the second run. -/
def Concurs (p : Reprise) (r : Run) : Prop :=
  ∀ ⦃id k n⦄, .tree id true ∈ r.content → p.nodes id = some k → Pool.get? r.forest id = some n →
    k.state = n.state

lemma marked_parts (r : Run) (scanner : Scanner) (forest : Forest) (events : List Event) :
    marked { r with scanner, forest, events } = { marked r with scanner, forest, events } := by
  unfold marked
  split <;> simp_all

namespace Repeats

/-! ## Acquiring -/

lemma tookInput : p.Repeats Run.tookInput r :=
  glance (fun _ _ _ => rfl) <| ite
    (fun _ => (write _).seq fun _ _ => modify (fun _ _ _ => rfl) fun _ hid => hid) fun _ => pure _

lemma setAside (hout : id ∉ r.waiting) : p.Repeats (Op.setAside id) r :=
  glance (fun _ _ _ => rfl) <| (change _ hout).seq fun _ _ =>
    modify (fun _ _ _ => rfl) fun _ hid => hid

lemma takeToken {region : RegionId} {element : ElementId} {length : Nat} (h : Sheltered r)
    (hlength : ∀ stream, r.scanner.stream = some stream →
      length ≤ Stream.leading stream.buffered) :
    p.Repeats (Run.takeToken m region element length) r := by
  refine look (fun s hs => by rw [hs.position]) ?_
  refine (extract hlength).bind fun text t htext => ?_
  obtain ⟨stream, hstream, rfl, rfl⟩ := onStream_eq_ok.1 htext
  refine tookInput.bind fun _ t htook => ?_
  rw [tookInput_apply, marked_scanner] at htook
  cases htook
  have hsheltered : Sheltered { marked r with
      scanner := { r.scanner with stream := some (stream.extract length).2 } } := by
    refine h.keep (sameCourse_marked r).2.1 fun id hid => ?_
    obtain ⟨htext, -, -, -⟩ := Stream.content_extract
      (show stream.extract length = ((stream.extract length).1, (stream.extract length).2) from rfl)
    rw [waiting, (content_eq hstream).1, htext, trees_bytes_append, ← (sameCourse_marked r).2.2.1]
    exact hid
  refine ite (fun _ => (write _).seq fun _ _ => (modify (fun _ _ _ => rfl) fun _ hid => hid).seq
    fun _ _ => pure _) fun _ => ?_
  refine (alloc _ hsheltered.pool).bind fun id t halloc => ?_
  obtain ⟨hout, -⟩ := hsheltered.made halloc
  refine (tell _).bind fun _ u htell => ?_
  have hapart : id ∉ u.waiting := by
    cases htell
    exact hout
  exact ite (fun _ => (setAside hapart).seq fun _ _ => (write _).seq fun _ _ => pure _)
    fun _ => (putBack _).seq fun _ _ => (write _).seq fun _ _ => pure _

lemma meetEnd {region : RegionId} (hpool : Pool.Sound r.forest) :
    p.Repeats (Run.meetEnd m region) r := by
  refine look (fun s hs => ?_) ?_
  · obtain ⟨scanner, forest, events, hparts⟩ := hs.parts
    have hran : s.endActionRan = r.endActionRan := by rw [hparts]
    rw [hs.position, hran]
  · refine ite (fun _ => (write _).seq fun _ _ => (modify (fun _ _ _ => rfl) fun _ hid => hid).seq
      fun _ _ => pure _) fun _ => (alloc _ hpool).seq fun _ _ => (tell _).seq fun _ _ =>
      (putBack _).seq fun _ _ => (write _).seq fun _ _ => pure _

/-- A tree that is set aside keeps its state, so that has to match already. -/
lemma takeTree {region : RegionId} {ignore : Bool} {stream : Stream} {items : List Item}
    (h : Sheltered r) (hstream : r.scanner.stream = some stream)
    (hbuffered : stream.buffered = .tree id ignore :: items)
    (hstate : ignore = true → ∀ k n, p.nodes id = some k → Pool.get? r.forest id = some n →
      k.state = n.state) :
    p.Repeats (Run.takeTree region id ignore) r := by
  obtain ⟨n, hn⟩ := Option.isSome_iff_exists.1 (h.live id (by
    rw [waiting, (content_eq hstream).1, Stream.content, hbuffered]
    exact List.mem_append_right _ List.mem_cons_self))
  refine of_grave (grave_takeTree region id ignore) fun a r' hrun hsupplied => ?_
  rw [takeTree_apply hstream hbuffered hn] at hrun
  cases hrun
  have hr : p.Supplied r := by
    obtain ⟨rest, hrest, hunread, hended⟩ := hsupplied
    cases hrest
    exact ⟨stream, hstream, hunread, hended⟩
  refine ⟨hr, fun s hs => ?_⟩
  obtain ⟨stream₁, stream', hr₁, hs', hreads, hsupplies⟩ := hs.supplies hr
  obtain rfl : stream = stream₁ := Option.some.inj (hstream.symm.trans hr₁)
  obtain ⟨more, hmore⟩ := Stream.buffered_of_supplies hsupplies
  rw [hbuffered, List.cons_append] at hmore
  obtain ⟨next, state, hn'⟩ := hs.node hn
  refine ⟨_, takeTree_apply hs' hmore hn', ?_⟩
  obtain ⟨told, htold, htold'⟩ := hs.events
  obtain ⟨scanner, forest, events, rfl⟩ := hs.parts
  simp only [marked_parts]
  refine ⟨⟨_, _, _, rfl⟩, ⟨.token region n.element n.text :: told, congrArg (_ :: ·) htold,
    congrArg (_ :: ·) htold'⟩, ⟨_, _, rfl, rfl, ?_, hreads.position, hreads.unread, hreads.ended⟩,
    ?_, fun j => ?_⟩
  · have hcontent := hreads.content
    rw [Stream.content, Stream.content, hbuffered, hmore] at hcontent
    exact List.cons.inj hcontent |>.2
  · cases ignore with
    | true => exact hs.forest.keep (Pool.sameSlots_put ..) (Pool.sameSlots_put ..)
    | false => exact hs.forest
  · have hwaiting (hj : j ∈ r.waiting) : j = id ∨ j ∈ r.queue ++
        trees (Stream.content { stream with buffered := items }) := by
      rw [waiting, (content_eq hstream).1, Stream.content, hbuffered] at hj
      rcases List.mem_append.1 hj with hj | hj
      · exact .inr (List.mem_append_left _ hj)
      · exact (List.mem_cons.1 hj).imp_right (List.mem_append_right _)
    cases ignore with
    | false =>
      refine (hs.nodes j).imp_right fun h => ⟨?_, h.2⟩
      show j ∈ (r.queue ++ [id]) ++ trees (Stream.content { stream with buffered := items })
      rw [List.append_assoc]
      rcases hwaiting h.1 with rfl | hj
      · exact List.mem_append_right _ List.mem_cons_self
      · exact (List.mem_append.1 hj).elim (List.mem_append_left _)
          fun hj => List.mem_append_right _ (List.mem_cons_of_mem _ hj)
    | true =>
      simp only [if_true]
      by_cases hj : j = id
      · subst hj
        have hsame : state = n.state := by
          rcases hs.nodes j with hsame | ⟨-, k, hk, hplaced⟩
          · rw [hn, hn'] at hsame
            exact congrArg Node.state (Option.some.inj hsame)
          · rw [hn, hn'] at hplaced
            exact (congrArg Node.state (Option.some.inj hplaced)).trans (hstate rfl k n hk hn)
        rw [Pool.get?_put_self hn, Pool.get?_put_self hn', hsame]
        exact .inl rfl
      · rw [Pool.get?_put_of_ne hj, Pool.get?_put_of_ne hj]
        refine (hs.nodes j).imp_right fun h => ⟨?_, h.2⟩
        exact (hwaiting h.1).resolve_left hj

lemma acquireIn {first : RegionId} {regions : List RegionId} (h : Sheltered r)
    (hstate : p.Concurs r) :
    p.Repeats (Run.acquireIn m first regions) r := by
  induction regions generalizing r with
  | nil => exact pure _
  | cons region regions ih =>
    refine (scan region).bind fun outcome t hscan => ?_
    obtain ⟨stream, hrescans, hstream, hvalid, -⟩ := scan_ok hscan
    have ht : t.content = r.content := hrescans.content.1
    have hforest : t.forest = r.forest := by
      obtain ⟨-, -, -, -, -, -, rfl⟩ := hrescans
      rfl
    have hqueue : t.queue = r.queue := by
      obtain ⟨-, -, -, -, -, -, rfl⟩ := hrescans
      rfl
    have hsheltered : Sheltered t := h.keep hforest fun id hid => by
      rwa [waiting, hqueue, ht] at hid
    cases outcome with
    | noToken => exact ih hsheltered (by rw [Concurs, ht, hforest]; exact hstate)
    | eof => exact meetEnd hsheltered.pool
    | tree id ignore =>
      obtain ⟨items, hbuffered⟩ : ∃ items, stream.buffered = .tree id ignore :: items :=
        List.head?_eq_some_iff.1 hvalid
      refine takeTree hsheltered hstream hbuffered fun hignore k n hk hn => ?_
      subst hignore
      refine hstate ?_ hk (hforest ▸ hn)
      rw [← ht, (content_eq hstream).1, Stream.content, hbuffered]
      exact List.mem_append_left _ List.mem_cons_self
    | token element length =>
      refine takeToken hsheltered fun stream' hs' => ?_
      obtain rfl := Option.some.inj (hstream.symm.trans hs')
      exact hvalid.2.2

lemma acquire (h : Sheltered r) (hstate : p.Concurs r) : p.Repeats (Run.acquire m) r :=
  glance (fun _ _ _ => rfl) <| (lookup _).bind fun regions t hlook => by
    obtain ⟨-, rfl⟩ := lookup_eq_ok.1 hlook
    exact acquireIn h hstate

/-! ## Shifting and reducing -/

lemma shift {target : StateId} {alternative : Nat} {more : Bool} :
    p.Repeats (Run.shift m id target alternative more) r := by
  refine of_grave (grave_shift m id target alternative more) fun _ r' hrun hsupplied => ?_
  obtain ⟨rest, n, hqueue, hn, rfl⟩ := shift_ok hrun
  refine ⟨hsupplied, fun s hs => ?_⟩
  obtain ⟨next, state, hn'⟩ := hs.node hn
  obtain ⟨scanner, forest, events, rfl⟩ := hs.parts
  cases hshift : Run.shift m id target alternative more { r with scanner, forest, events } with
  | error e t => exact absurd hshift (shift_ne_error hqueue hn')
  | ok u t =>
    obtain ⟨rest', n', hqueue', hn'', rfl⟩ := shift_ok hshift
    obtain rfl : rest = rest' := (List.cons.inj (hqueue.symm.trans hqueue')).2
    obtain rfl := Option.some.inj (hn'.symm.trans hn'')
    refine ⟨_, rfl, ⟨_, _, _, rfl⟩, hs.events, hs.stream,
      hs.forest.keep (Pool.sameSlots_put ..) (Pool.sameSlots_put ..), fun j => ?_⟩
    by_cases hj : j = id
    · subst hj
      exact .inl ((Pool.get?_put_self hn').trans (Pool.get?_put_self hn).symm)
    · dsimp only
      rw [Pool.get?_put_of_ne hj, Pool.get?_put_of_ne hj]
      refine (hs.nodes j).imp_right fun h => ⟨?_, h.2⟩
      have hwaiting := h.1
      rw [waiting, hqueue] at hwaiting
      exact (List.mem_cons.1 hwaiting).resolve_left hj

lemma linkSiblings {ids : List NodeId} (hout : ∀ id ∈ ids, id ∉ r.waiting) :
    p.Repeats (Run.linkSiblings ids) r := by
  induction ids generalizing r with
  | nil => exact pure _
  | cons id ids ih =>
    refine (change _ (hout id List.mem_cons_self)).bind fun _ t hchange => ?_
    obtain ⟨n, -, rfl⟩ := change_eq_ok.1 hchange
    exact ih fun j hj => hout j (List.mem_cons_of_mem _ hj)

lemma spanOf_congr {f g : Forest} {ids : List NodeId}
    (hsame : ∀ id ∈ ids, Pool.get? g id = Pool.get? f id) : spanOf g ids = spanOf f ids := by
  unfold spanOf
  generalize Span.unknown = first
  induction ids generalizing first with
  | nil => rfl
  | cons id ids ih =>
    have hread : Pool.read g id = Pool.read f id := by
      rw [Pool.read, Pool.read, hsame id List.mem_cons_self]
    rw [List.foldlM_cons, List.foldlM_cons, hread]
    exact congrArg _ (funext fun span => ih (fun j hj => hsame j (List.mem_cons_of_mem _ hj)) span)

lemma stateOf_congr {f g : Forest} {below : Option NodeId}
    (hsame : ∀ id, below = some id → Pool.get? g id = Pool.get? f id) :
    stateOf m g below = stateOf m f below := by
  cases below with
  | none => rfl
  | some id => rw [stateOf, stateOf, Pool.read, Pool.read, hsame id rfl]

lemma reduce {production : ProductionId} {alternative : Nat} {more commits : Bool}
    (h : Ordered r) : p.Repeats (Run.reduce m production alternative more commits) r := by
  obtain ⟨ids, hlinked, hout⟩ := h.stack
  refine (lookup _).bind fun info t hlook => ?_
  obtain ⟨-, rfl⟩ := lookup_eq_ok.1 hlook
  refine glance (fun _ _ _ => rfl) ?_
  refine reads (g := fun q => unstack q.forest info.length q.stack []) (fun found hfound s hs => ?_)
    fun found hfound => ?_
  · obtain ⟨scanner, forest, events, hparts⟩ := hs.parts
    have hstack : s.stack = t.stack := by rw [hparts]
    rw [hstack, unstack_congr hlinked fun id hid => hs.node_eq (hout id hid)]
    exact ⟨hfound, rfl⟩
  cases found with
  | error found => exact fail _
  | ok found =>
    obtain ⟨children, below⟩ := found
    obtain ⟨taken, rfl, -, htaken⟩ := linked_of_unstack hfound
    obtain ⟨rest, rfl, hrest⟩ := htaken.behind hlinked
    rw [List.append_nil]
    have hchildren (id : NodeId) (hid : id ∈ taken.reverse) : id ∉ t.waiting :=
      hout id (List.mem_append_left _ (List.mem_reverse.1 hid))
    have hbelow (id : NodeId) (hid : below = some id) : id ∉ t.waiting := by
      subst hid
      cases hrest with
      | cons _ _ => exact hout id (List.mem_append_right _ List.mem_cons_self)
    refine reads (g := fun q => spanOf q.forest taken.reverse) (fun span hspan s hs => ⟨?_, rfl⟩)
      fun span _ => ?_
    · rw [spanOf_congr fun id hid => hs.node_eq (hchildren id hid)]
      exact hspan
    refine (alloc _ h.pool).bind fun tree u halloc => ?_
    obtain ⟨made, -, rfl⟩ := alloc_eq_ok.1 halloc
    refine (linkSiblings (by exact hchildren)).bind fun _ v hlink => ?_
    obtain ⟨linked, rfl, -⟩ := linkSiblings_forest hlink
    refine reads (g := fun q => stateOf m q.forest below) (fun state hstate s hs => ⟨?_, rfl⟩)
      fun state _ => ?_
    · rw [stateOf_congr fun id hid => hs.node_eq (hbelow id hid)]
      exact hstate
    exact (modify (fun _ _ _ => rfl) fun _ hid => hid).seq fun _ _ => (putFront _).seq fun _ _ =>
      (write _).seq fun _ _ => ite (fun _ => (modify (fun _ _ _ => rfl) fun _ hid => hid).seq
        fun _ _ => pure _) fun _ => pure _

/-! ## Ends of steps -/

/-- Matching runs agree on whether the parse is at its end. -/
lemma atEnd_eq (h : Ordered r) (hs : p.Matches r s) : atEnd m s = atEnd m r := by
  obtain ⟨scanner, forest, events, rfl⟩ := hs.parts
  unfold atEnd
  dsimp only
  cases hstack : r.stack with
  | none => rfl
  | some top =>
    dsimp only
    rw [Pool.read, Pool.read, hs.node_eq (h.top hstack)]

lemma endStep (h : Ordered r) : p.Repeats (Run.endStep m) r := by
  refine (write _).bind fun _ t ht => (modify (fun _ _ _ => rfl) fun _ hid => hid).bind
    fun _ u hu => ?_
  have hordered : Ordered u := by
    cases ht
    cases hu
    exact h.keep rfl rfl fun _ hid => hid
  refine reads (g := atEnd m) (fun b hb s hs => ⟨(atEnd_eq hordered hs).trans hb, ?_⟩) fun b _ => ?_
  · obtain ⟨scanner, forest, events, rfl⟩ := hs.parts
    rfl
  · exact ite (fun _ => (modify (fun _ _ _ => rfl) fun _ hid => hid).seq fun _ _ => pure _)
      fun _ => ite (fun _ => (modify (fun _ _ _ => rfl) fun _ hid => hid).seq fun _ _ => pure _)
        fun _ => ite (fun _ => pure _) fun _ => pure _

lemma completeStep {commits : Bool} (h : Ordered r) :
    p.Repeats (Run.completeStep m commits) r := by
  cases commits with
  | false => exact endStep h
  | true =>
    have hcommit : p.Repeats commit r := glance (fun _ _ _ => rfl) <| (write _).seq fun _ _ =>
      modify (fun _ _ _ => rfl) fun _ hid => hid
    refine hcommit.bind fun _ t ht => endStep ?_
    cases ht
    exact h.keep rfl rfl fun _ hid => hid

lemma turnBack (e : Error) : p.Repeats (Run.turnBack e) r :=
  (tell _).seq fun _ _ => glance (fun _ _ _ => rfl) <| ite
    (fun _ => modify (fun _ _ _ => rfl) fun _ hid => hid)
    fun _ => (modify (fun _ _ _ => rfl) fun _ hid => hid).seq fun _ _ => fail _

/-! ## Going forward -/

lemma act {decision : Grammar.Decision} {target : StateId} {commits : Bool} (h : Ordered r)
    (hshifted : ∀ production u t, decision.action = .shiftReduce production →
      Run.shift m id target decision.alternative decision.more r = .ok u t → Ordered t) :
    p.Repeats (Run.act m id decision target commits) r := by
  unfold Run.act
  cases haction : decision.action with
  | shift => exact shift.seq fun _ _ => pure _
  | reduce production => exact reduce h
  | shiftReduce production =>
    exact shift.bind fun u t ht => reduce (hshifted production u t haction ht)

lemma step (ht : Tidy False r) (ho : Orderly r.view) : p.Repeats (Run.step m id) r := by
  refine node (fun _ _ _ => rfl) fun n hn => glance (fun _ _ _ => rfl) ?_
  refine (lookup _).bind fun found t hlook => ?_
  obtain ⟨hdecide, rfl⟩ := lookup_eq_ok.1 hlook
  cases found with
  | none => exact (turnBack _).seq fun _ _ => pure _
  | some decision =>
    refine (tell _).bind fun _ u hu => (modify (fun _ _ _ => rfl) fun _ hid => hid).bind
      fun _ v hv => ?_
    obtain rfl : decided n.element decision t = v := by
      cases hu
      cases hv
      rfl
    have hordered :=
      (ordered ht ho).keep (s := decided n.element decision t) rfl rfl fun _ hid => hid
    refine (lookup _).bind fun commits w hlook => ?_
    obtain ⟨-, rfl⟩ := lookup_eq_ok.1 hlook
    refine (lookup _).bind fun target w hlook => ?_
    obtain ⟨htarget, rfl⟩ := lookup_eq_ok.1 hlook
    rw [entry_eq_ok_iff] at htarget
    refine (act hordered fun production u w haction hshift => ?_).bind fun a w hact => ?_
    · have hshifts : Shifts m t.state n.element decision.alternative decision.more target := by
        refine ⟨decision, ?_, rfl, htarget, .inr ⟨production, haction⟩⟩
        rw [decide_alternative hdecide]
        exact hdecide
      obtain ⟨hmoves, -, -⟩ : Moves m False (fun _ _ => True) t w ∧ _ :=
        moves_shift ht ho hn hshifts hshift
      exact ordered hmoves.tidy (hmoves.orderly ho)
    · obtain ⟨hmoves, -, -⟩ : Moves m False (fun _ _ => True) t w ∧ _ :=
        moves_act ht ho hn hdecide htarget hact
      cases a with
      | some status => exact pure _
      | none => exact completeStep (ordered hmoves.tidy (hmoves.orderly ho))

lemma goForward (ht : Tidy False r) (ho : Orderly r.view) (hstate : p.Concurs r) :
    p.Repeats (Run.goForward m) r := by
  refine glance (fun _ _ _ => rfl) ?_
  cases r.queue with
  | cons id rest => exact step ht ho
  | nil =>
    refine (acquire (ordered ht ho).toSheltered hstate).seq fun found t => ?_
    cases found with
    | queued => exact pure _
    | skipped => exact pure _
    | suspended status => exact pure _
    | noToken region =>
      exact look (fun s hs => by rw [hs.position]) ((turnBack _).seq fun _ _ => pure _)

/-! ## Entering -/

lemma frontSpan : p.Repeats Run.frontSpan r := by
  refine glance (fun _ _ _ => rfl) ?_
  cases r.queue with
  | nil => exact pure _
  | cons tree rest => exact node (fun _ _ _ => rfl) fun _ _ => pure _

lemma resumeReduction {production : ProductionId} {commits : Bool} (h : Ordered r) :
    p.Repeats (Run.resumeReduction m production commits) r := by
  refine (modify (fun _ _ _ => rfl) fun _ hid => hid).bind fun _ t ht =>
    glance (fun _ _ _ => rfl) <| ite (fun _ => ?_) fun _ => ?_
  · exact (modify (fun _ _ _ => rfl) fun _ hid => hid).seq fun _ _ => frontSpan.seq fun _ _ =>
      (turnBack _).seq fun _ _ => pure _
  · cases ht
    exact completeStep (h.keep rfl rfl fun _ hid => hid)

lemma enter {entry : Entry} (h : Ordered r) : p.Repeats (Run.enter m entry) r := by
  refine glance (fun _ _ _ => rfl) ?_
  split
  · exact pure _
  · exact pure _
  · refine ite (fun _ => fail _) fun _ => ?_
    split
    · exact pure _
    · exact resumeReduction h
    · exact (modify (fun _ _ _ => rfl) fun _ hid => hid).seq fun _ _ => pure _
    · exact (modify (fun _ _ _ => rfl) fun _ hid => hid).seq fun _ _ => pure _
    · exact fail _

end Repeats

end Reprise

end Rewind.Run
