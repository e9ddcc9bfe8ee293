import Rewind.Proofs.Frame
import Rewind.Proofs.Forward
import Rewind.Proofs.Operations
import Rewind.Proofs.Unwind

/-!
# Why a run fails to go forward

A run in order finds every node that it looks for.  So nothing but the tables, the pool and the
stream can make it fail to go forward: a table has no entry where one is looked up, a production
needs more than the stack holds, the pool has no slot left, or a scan fails.  Here is what the
operations come to when they fail.
-/

namespace Rewind.Run

open Attempt Op

/-- The pool had no slot left. -/
def Refusal (x : Failure Error) : Prop :=
  ∃ e, x = .error (.alloc e)

variable {m : Machine} {r s t : Run} {x : Failure Error} {id : NodeId} {n : Node}
  {ids : List NodeId}

lemma lookup_eq_error {α : Type} {y : Except Fault α} (h : lookup y r = .error x s) :
    ∃ f, y = .error f ∧ x = .fault f ∧ s = r := by
  cases y with
  | ok a => cases h
  | error f =>
    cases h
    exact ⟨f, rfl, rfl, rfl⟩

lemma node_eq_error (h : node id r = .error x s) : Pool.get? r.forest id = none := by
  cases hn : Pool.get? r.forest id with
  | none => rfl
  | some n =>
    rw [node_ok hn] at h
    cases h

lemma change_eq_error {f : Node → Node} (h : change id f r = .error x s) :
    Pool.get? r.forest id = none := by
  cases hn : Pool.get? r.forest id with
  | none => rfl
  | some n =>
    rw [change_ok hn] at h
    cases h

lemma alloc_eq_error (h : alloc n r = .error x s) : Refusal x ∧ s = r := by
  unfold alloc at h
  split at h
  · cases h
  · rename_i e forest halloc
    cases h
    refine ⟨⟨e, rfl⟩, ?_⟩
    have hfull : Pool.alloc r.forest n = (.error e, forest) := halloc
    unfold Pool.alloc at hfull
    split at hfull
    · cases hfull
      rfl
    · cases hfull

lemma onStream_ne_error {α : Type} {f : Stream → α × Stream} (hs : r.scanner.stream.isSome) :
    onStream f r ≠ .error x s := by
  obtain ⟨stream, hs⟩ := Option.isSome_iff_exists.1 hs
  unfold onStream onScanner Scanner.onStream
  rw [hs]
  exact nofun

lemma setAside_eq_error (h : Op.setAside id r = .error x s) :
    Pool.get? r.forest id = none := by
  rw [Op.setAside, get_bind] at h
  obtain h | ⟨-, t, -, h⟩ := bind_eq_error.1 h
  · exact change_eq_error h
  · cases h

/-! ## Acquiring -/

lemma takeToken_error {region : RegionId} {element : ElementId} {length : Nat}
    (hpool : Pool.Sound r.forest) (hs : r.scanner.stream.isSome)
    (h : takeToken m region element length r = .error x s) : Refusal x := by
  rw [takeToken, get_bind] at h
  obtain h | ⟨text, t, hstream, h⟩ := bind_eq_error.1 h
  · exact absurd h (onStream_ne_error hs)
  obtain ⟨stream, -, rfl, rfl⟩ := onStream_eq_ok.1 hstream
  rw [bind_ok (tookInput_apply _), marked_scanner] at h
  split at h
  · cases h
  obtain h | ⟨id, t, halloc, h⟩ := bind_eq_error.1 h
  · exact (alloc_eq_error h).1
  obtain ⟨forest, hplaced, rfl⟩ := alloc_eq_ok.1 halloc
  rw [tell_bind] at h
  split at h
  · have hsound : Pool.Sound (marked r).forest := (sameCourse_marked r).2.1 ▸ hpool
    have hn := (congrFun (Pool.get?_of_alloc hsound hplaced).2 id).trans (Function.update_self ..)
    obtain h | ⟨-, t, -, h⟩ := bind_eq_error.1 h
    · cases (setAside_eq_error h).symm.trans hn
    · cases h
  · cases h

lemma takeTree_error {region : RegionId} {ignore : Bool} (hs : r.scanner.stream.isSome)
    (hn : Pool.get? r.forest id = some n) : takeTree region id ignore r ≠ .error x s := by
  intro h
  rw [takeTree] at h
  obtain h | ⟨u, t, hchange, h⟩ := bind_eq_error.1 h
  · exact onStream_ne_error hs h
  obtain ⟨stream, -, rfl⟩ := changeStream_eq_ok.1 hchange
  rw [bind_ok (tookInput_apply _), marked_scanner, write_bind] at h
  have hn' : Pool.get? (marked r).forest id = some n := (sameCourse_marked r).2.1 ▸ hn
  obtain h | ⟨n', t, hread, h⟩ := bind_eq_error.1 h
  · cases (node_eq_error h).symm.trans hn'
  obtain ⟨-, rfl⟩ := node_eq_ok.1 hread
  rw [tell_bind] at h
  split at h
  · obtain h | ⟨-, t, -, h⟩ := bind_eq_error.1 h
    · cases (setAside_eq_error h).symm.trans hn'
    · cases h
  · cases h

lemma meetEnd_error {region : RegionId} (h : meetEnd m region r = .error x s) : Refusal x := by
  rw [meetEnd, get_bind] at h
  by_cases hdue : m.grammar.actsAtEnd region = true ∧ r.endActionRan = false
  · rw [if_pos hdue] at h
    cases h
  · rw [if_neg hdue] at h
    obtain h | ⟨id, t, -, h⟩ := bind_eq_error.1 h
    · exact (alloc_eq_error h).1
    · cases h

/-- Regions fail to acquire anything only where the pool has no slot left, or a scan fails, before
which the scans have kept what they keep.  A tree that is found must be there. -/
lemma acquireIn_error {regions : List RegionId} {first : RegionId} {I : Run → Prop}
    (hI : ∀ region, Keeps I I (scan m region)) (hr : I r) (hpool : Pool.Sound r.forest)
    (hs : r.scanner.stream.isSome)
    (hlive : ∀ id ignore, r.content.head? = some (.tree id ignore) →
      (Pool.get? r.forest id).isSome)
    (h : acquireIn m first regions r = .error x s) :
    Refusal x ∨ ∃ region ∈ regions, ∃ t u, I t ∧ scan m region t = .error x u := by
  induction regions generalizing r with
  | nil => cases h
  | cons region regions ih =>
    rw [acquireIn] at h
    obtain h | ⟨outcome, t, hscan, h⟩ := bind_eq_error.1 h
    · exact .inr ⟨region, List.mem_cons_self, r, s, hr, h⟩
    obtain ⟨stream, hrescans, hstream, hvalid, -⟩ := scan_ok hscan
    have hcontent := hrescans.content.1
    have hforest : t.forest = r.forest := by
      obtain ⟨-, -, scanner, -, -, -, rfl⟩ := hrescans
      rfl
    have hattached : t.scanner.stream.isSome := by simp [hstream]
    cases outcome with
    | noToken =>
      have ht : I t := (hI region).ok hr hscan
      rcases ih ht (hforest ▸ hpool) hattached (by rwa [hcontent, hforest]) h with
        hrefused | ⟨other, hmem, u, w, hu, hfails⟩
      · exact .inl hrefused
      · exact .inr ⟨other, List.mem_cons_of_mem _ hmem, u, w, hu, hfails⟩
    | eof => exact .inl (meetEnd_error h)
    | tree id ignore =>
      have hfront : r.content.head? = some (.tree id ignore) := by
        have hhead : stream.buffered.head? = some (.tree id ignore) := hvalid
        rw [← hcontent, (content_eq hstream).1, Stream.content, List.head?_append, hhead]
        rfl
      obtain ⟨n, hn⟩ := Option.isSome_iff_exists.1 (hlive id ignore hfront)
      exact absurd h (takeTree_error hattached (hforest ▸ hn))
    | token element length =>
      exact .inl (takeToken_error (hforest ▸ hpool) hattached h)

/-! ## Shifting and reducing -/

/-- The lookahead can always be shifted. -/
lemma shift_ne_error {rest : List NodeId} {target : StateId} {alternative : Nat} {more : Bool}
    (hqueue : r.queue = id :: rest) (hn : Pool.get? r.forest id = some n) :
    shift m id target alternative more r ≠ .error x s := by
  intro h
  rw [shift] at h
  obtain h | ⟨u, t, htake, h⟩ := bind_eq_error.1 h
  · rw [takeFront, get_bind, hqueue, List.head?_cons, if_pos rfl] at h
    cases h
  obtain ⟨rest, -, rfl⟩ := takeFront_eq_ok.1 htake
  obtain h | ⟨n', t, hread, h⟩ := bind_eq_error.1 h
  · cases (node_eq_error h).symm.trans hn
  obtain ⟨-, rfl⟩ := node_eq_ok.1 hread
  simp only [get_bind] at h
  rw [show (if n'.ignored.isNone = true ∧ m.grammar.isTerminal n'.element = true then r.aside
    else none) = carried m n' r.aside from rfl] at h
  cases hcarried : carried m n' r.aside with
  | none =>
    simp only [hcarried, Option.isSome_none, Bool.false_eq_true, if_false] at h
    obtain h | ⟨u, t, -, h⟩ := bind_eq_error.1 h
    · cases (change_eq_error h).symm.trans hn
    · cases h
  | some first =>
    simp only [hcarried, Option.isSome_some, if_true, modify_bind] at h
    obtain h | ⟨u, t, hchange, h⟩ := bind_eq_error.1 h
    · cases (change_eq_error h).symm.trans hn
    obtain ⟨n'', hn'', rfl⟩ := change_eq_ok.1 hchange
    obtain h | ⟨u, t, -, h⟩ := bind_eq_error.1 h
    · cases (Pool.get?_put_self hn'').symm.trans (change_eq_error h)
    · cases h

section Unstack

variable {f : Forest} {needed : Nat} {top : Option NodeId}

lemma unstack_cons {id : NodeId} (hn : Pool.get? f id = some n) (taken : List NodeId) :
    unstack f (needed + 1) (some id) taken = unstack f needed n.next (id :: taken) := by
  rw [unstack, read_eq_ok.2 hn]
  rfl

/-- A stack that holds enough hands out its top. -/
lemma unstack_of_le (taken : List NodeId) (h : Linked (Pool.get? f) top ids none)
    (hle : needed ≤ ids.length) :
    ∃ below, unstack f needed top taken = .ok (.ok ((ids.take needed).reverse ++ taken, below)) ∧
      Linked (Pool.get? f) below (ids.drop needed) none := by
  induction needed generalizing top taken ids with
  | zero => exact ⟨top, rfl, h⟩
  | succ needed ih =>
    cases h with
    | nil => cases hle
    | @cons id n ids _ hn hrest =>
      obtain ⟨below, hunstack, hlinked⟩ := ih (id :: taken) hrest (Nat.le_of_succ_le_succ hle)
      refine ⟨below, ?_, hlinked⟩
      rw [unstack_cons hn, hunstack, List.take_succ_cons, List.reverse_cons, List.append_assoc]
      rfl

/-- A stack that holds too little tells how much it holds. -/
lemma unstack_of_lt (taken : List NodeId) (h : Linked (Pool.get? f) top ids none)
    (hlt : ids.length < needed) :
    unstack f needed top taken = .ok (.error (taken.length + ids.length)) := by
  induction needed generalizing top taken ids with
  | zero => cases hlt
  | succ needed ih =>
    cases h with
    | nil => rfl
    | @cons id n ids _ hn hrest =>
      rw [unstack_cons hn, ih (id :: taken) hrest (Nat.lt_of_succ_lt_succ hlt), List.length_cons,
        List.length_cons, Nat.add_assoc, Nat.add_comm 1]

end Unstack

/-- Live nodes can be linked. -/
lemma linkSiblings_ne_error (hlive : ∀ id ∈ ids, (Pool.get? r.forest id).isSome) :
    linkSiblings ids r ≠ .error x s := by
  induction ids generalizing r with
  | nil => exact nofun
  | cons id ids ih =>
    obtain ⟨n, hn⟩ := Option.isSome_iff_exists.1 (hlive id List.mem_cons_self)
    rw [linkSiblings, bind_ok (change_ok hn)]
    refine ih fun j hj => ?_
    by_cases hji : j = id
    · rw [hji, Pool.get?_put_self hn]
      rfl
    · rw [Pool.get?_put_of_ne hji]
      exact hlive j (List.mem_cons_of_mem _ hj)

/-- Why a reduction fails: the tables do not know the production, the stack is too low for it, or
the pool has no slot left. -/
lemma reduce_error {production : ProductionId} {alternative : Nat} {more commits : Bool}
    (ho : Orderly r.view) (hpool : Pool.Sound r.forest)
    (h : reduce m production alternative more commits r = .error x s) :
    (∃ f, entry m.grammar.productions production = .error f ∧ x = .fault f ∧ s = r) ∨
      (∃ info ids, entry m.grammar.productions production = .ok info ∧
        Linked r.view.nodes r.stack ids none ∧ ids.length < info.length ∧
        x = .error (.misuse (.stackUnderflow production info.length ids.length)) ∧ s = r) ∨
      Refusal x := by
  obtain ⟨ids, hlinked, hnodup, hshown⟩ := stack_shown ho
  rw [reduce] at h
  obtain h | ⟨info, t, hlook, h1⟩ := bind_eq_error.1 h
  · exact .inl (lookup_eq_error h)
  obtain ⟨hinfo, rfl⟩ := lookup_eq_ok.1 hlook
  simp only [get_bind] at h1
  by_cases hle : info.length ≤ ids.length
  · refine .inr (.inr ?_)
    obtain ⟨below, hunstack, hbelow⟩ := unstack_of_le [] hlinked hle
    rw [List.append_nil] at hunstack
    have hlive : ∀ id ∈ (ids.take info.length).reverse, (Pool.get? t.forest id).isSome :=
      fun id hid => hlinked.live id (List.mem_of_mem_take (List.mem_reverse.1 hid))
    obtain ⟨span, hspan⟩ := spanOf_live hlive
    rw [hunstack, lookup_ok_bind] at h1
    simp only [get_bind] at h1
    rw [hspan, lookup_ok_bind] at h1
    obtain h | ⟨tree, u, halloc, h2⟩ := bind_eq_error.1 h1
    · exact (alloc_eq_error h).1
    obtain ⟨made, hplaced, rfl⟩ := alloc_eq_ok.1 halloc
    have hkept {j : NodeId} (hj : (Pool.get? t.forest j).isSome) : (Pool.get? made j).isSome := by
      rw [(Pool.get?_of_alloc hpool hplaced).2]
      by_cases hjt : j = tree
      · rw [hjt, Function.update_self]
        rfl
      · rwa [Function.update_of_ne hjt]
    obtain h | ⟨linking, u, hlink, h3⟩ := bind_eq_error.1 h2
    · exact absurd h (linkSiblings_ne_error fun j hj => hkept (hlive j hj))
    obtain ⟨linked, rfl, -, hrelinked, -⟩ := linkSiblings_ok hlink
      (List.nodup_reverse.2 (hnodup.of_append_left.sublist (List.take_sublist _ _)))
      (Pool.sound_of_alloc hpool hplaced)
    rw [get_bind] at h3
    obtain h | ⟨state, w, -, h4⟩ := bind_eq_error.1 h3
    · -- The node below the children is live, so its state is known.
      obtain ⟨f, hstate, -, -⟩ := lookup_eq_error h
      cases below with
      | none => cases hstate
      | some top =>
        have htop : top ∈ ids.drop info.length := List.mem_of_mem_head? (by
          rw [← Option.or_none (o := (ids.drop info.length).head?), ← hbelow.head_eq]
          rfl)
        have hlinkedTop : (Pool.get? linked top).isSome :=
          (hrelinked.live_iff top).2 (hkept (hlinked.live top (List.mem_of_mem_drop htop)))
        obtain ⟨n, hn⟩ := Option.isSome_iff_exists.1 hlinkedTop
        rw [stateOf, read_eq_ok.2 hn] at hstate
        cases hstate
    · simp only [modify_bind, putFront, write_bind] at h4
      split at h4 <;> cases h4
  · have hlt := Nat.lt_of_not_le hle
    rw [unstack_of_lt [] hlinked hlt, lookup_ok_bind] at h1
    cases h1
    refine .inr (.inl ⟨info, ids, hinfo, ?_, hlt, ?_, rfl⟩)
    · exact hlinked.congr fun id hid => (hshown id hid).2
    · rw [List.length_nil, Nat.zero_add]

/-! ## Completing a step -/

/-- A step can always be completed. -/
lemma completeStep_ne_error {commits : Bool} (ho : Orderly (stepped commits r).view) :
    completeStep m commits r ≠ .error x s := by
  intro h
  rw [completeStep_eq, endStep, write_bind, modify_bind, get_bind] at h
  obtain h | ⟨reached, t, -, h⟩ := bind_eq_error.1 h
  · obtain ⟨f, hend, -, -⟩ := lookup_eq_error h
    cases (atEnd_ok (m := m) ho).symm.trans hend
  · split at h
    · cases h
    split at h
    · cases h
    split at h <;> cases h

end Rewind.Run
