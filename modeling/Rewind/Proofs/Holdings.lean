import Rewind.Proofs.Exactness
import Rewind.Proofs.Invariants
import Rewind.Proofs.Reverted
import Rewind.Proofs.Safety

/-!
# What a run holds

A run holds the slots to which its links lead: from the stack, the queue, what was set aside, the
trees in the stream and the chains in the log, down to children and ignored tokens.  Whatever
callers do, every slot that holds a node is held in exactly one such way, and no link leads to a
slot that holds none.  So nothing is lost, nothing is released twice, and a run that has gone back
to its beginning holds nothing.
-/

namespace Rewind

/-! ## Following the links -/

/-- The slots of the trees with these roots, one for each way that leads there, with at most
`budget` of them. -/
def Forest.slotsUpTo (f : Forest) : (budget : Nat) → List NodeId → Except Fault (List NodeId)
  | _, [] => .ok []
  | 0, id :: _ => .error (.endless id)
  | budget + 1, id :: pending => do
    let n ← f.read id
    let children ← f.chain n.child
    let ignored ← f.chain n.ignored
    return id :: (← f.slotsUpTo budget (children ++ (ignored ++ pending)))

lemma Forest.slotsUpTo_trees {f : Forest} {budget : Nat} {ids owned : List NodeId}
    {shapes : List Shape} (h : Trees (Pool.get? f) ids owned shapes) (hnodup : owned.Nodup)
    (hbudget : owned.length ≤ budget) : f.slotsUpTo budget ids = .ok owned := by
  induction budget generalizing ids owned shapes with
  | zero =>
    obtain rfl := List.length_eq_zero_iff.1 (Nat.le_zero.1 hbudget)
    cases h
    rfl
  | succ budget ih =>
    obtain _ | ⟨id, rest⟩ := ids
    · obtain ⟨rfl, -⟩ := h.of_nil
      rfl
    obtain ⟨n, children, ignored, below, carried, ownedR, kids, set, shapesR, hn, hchildren, hkids,
      hignored, hset, hrest, rfl, rfl⟩ := h.of_cons
    obtain ⟨-, hbehind⟩ := List.nodup_cons.1 hnodup
    obtain ⟨hlower, -, -⟩ := List.nodup_append'.1 hbehind
    obtain ⟨hnodupB, hnodupC, -⟩ := List.nodup_append'.1 hlower
    have hslots := ih (hkids.append (hset.append hrest))
      (by rwa [← List.append_assoc]) (by simp at hbudget ⊢; omega)
    have hchain := chain_of_linked hchildren (hkids.roots_sublist.nodup hnodupB)
    have hchain' := chain_of_linked hignored (hset.roots_sublist.nodup hnodupC)
    exact Except.bind_eq_ok.2 ⟨n, Run.Op.read_eq_ok.2 hn, Except.bind_eq_ok.2 ⟨children, hchain,
      Except.bind_eq_ok.2
        ⟨ignored, hchain', Except.bind_eq_ok.2 ⟨_, hslots, by rw [List.append_assoc]; rfl⟩⟩⟩⟩

lemma Chains.mapM_chain {f : Forest} {heads ids : List NodeId}
    (h : Chains (Pool.get? f) heads ids) (hnodup : ids.Nodup) :
    ∃ chains, heads.mapM (fun head => f.chain (some head)) = .ok chains ∧ chains.flatten = ids := by
  induction h with
  | nil => exact ⟨[], rfl, rfl⟩
  | cons hhead _ ih =>
    obtain ⟨hnodupX, hnodupY, -⟩ := List.nodup_append'.1 hnodup
    obtain ⟨chains, hchains, hflat⟩ := ih hnodupY
    refine ⟨_ :: chains, ?_, congrArg _ hflat⟩
    rw [List.mapM_cons, Forest.chain_of_linked hhead hnodupX, hchains]
    rfl

namespace Run

open Attempt Op

/-- The nodes that are not below others: on the stack, in front of the stack, set aside, and dropped
but still known to the log. -/
def roots (r : Run) : Except Fault (List NodeId) := do
  let stack ← r.forest.chain r.stack
  let aside ← r.forest.chain r.aside
  let dropped ← (r.log.records.filterMap Record.dropped?).mapM fun head =>
    r.forest.chain (some head)
  return stack ++ (r.waiting ++ (aside ++ dropped.flatten))

/-- The slots to which the links of a run lead, one for each way that leads there. -/
def slots (r : Run) : Except Fault (List NodeId) := do
  r.forest.slotsUpTo r.forest.slots.size (← r.roots)

/-- All links lead to nodes, and to every node in exactly one way. -/
def HeldOnce (r : Run) : Prop :=
  ∃ ids, r.slots = .ok ids ∧ ids.Nodup ∧ ∀ id, id ∈ ids ↔ (Pool.get? r.forest id).isSome

lemma Owned.heldOnce {r : Run} (h : Owned r.log.records r.view) : HeldOnce r := by
  obtain ⟨stack, aside, dropped, hs, ha, hd, owned, shapes, htrees, hnodup, hall⟩ :=
    owned_held_iff.2 h
  have hroots := htrees.roots_sublist.nodup hnodup
  obtain ⟨hnodupS, hnodupR, -⟩ := List.nodup_append'.1 hroots
  obtain ⟨-, hnodupT, -⟩ := List.nodup_append'.1 hnodupR
  obtain ⟨hnodupA, hnodupD, -⟩ := List.nodup_append'.1 hnodupT
  obtain ⟨chains, hchains, hflat⟩ := Chains.mapM_chain hd hnodupD
  have hfound : r.roots = .ok (stack ++ (r.waiting ++ (aside ++ dropped))) :=
    Except.bind_eq_ok.2 ⟨stack, Forest.chain_of_linked hs hnodupS, Except.bind_eq_ok.2 ⟨aside,
      Forest.chain_of_linked ha hnodupA, Except.bind_eq_ok.2 ⟨chains, hchains, hflat ▸ rfl⟩⟩⟩
  exact ⟨owned, Except.bind_eq_ok.2 ⟨_, hfound, Forest.slotsUpTo_trees htrees hnodup
    (Pool.length_le_size hnodup htrees.live)⟩, hnodup, fun id => ⟨htrees.live id, hall id⟩⟩

/-! ## Going back to the beginning -/

/-- A run whose nodes all have their owner, and had them at every moment that its log leads back
to. -/
def OwnedThroughout (m : Machine) (base : View) (r : Run) : Prop :=
  Backed m False (fun record _ _ w => Single record w) base r

variable {m : Machine} {base v : View} {records : List Record} {unread : Nat} {r s : Run}
  {Noted : List Record → View → Prop}

lemma Course.owned (h : Course m False (fun record _ _ w => Single record w) base unread records v)
    (hbase : Owned [] base) : Owned records v := by
  induction h with
  | start => exact hbase
  | change _ hc hsingle ih => exact ih.change hc hsingle

namespace OwnedThroughout

lemma nodesOwned (h : OwnedThroughout m base r) (hbase : Owned [] base) : NodesOwned r :=
  ⟨h.toTidy, h.course.owned hbase⟩

lemma moves (h : OwnedThroughout m base r) (hmoves : Moves m False Noted r s)
    (hnone : Unpushed r.log.records s) : OwnedThroughout m base s :=
  ⟨hmoves.tidy, (h.course.mono hmoves.unread).trans hmoves.path fun _ _ _ _ _ hsplit hpath _ =>
    hnone.single hsplit hpath⟩

/-- What no record tells of may change. -/
lemma awaited (h : OwnedThroughout m base r) (point : Point) (rejecting : Bool) :
    OwnedThroughout m base { r with point, rejecting } :=
  h.quiet ⟨h.attached, h.pool, h.loose⟩ rfl rfl rfl

lemma steady (hbase : Owned [] base) : Steady m (OwnedThroughout m base) where
  enter := by
    rintro r s entry h (⟨a, henter⟩ | ⟨e, he, henter⟩)
    · have hmoves : Moves m False (fun _ _ => True) r s :=
        (moves_enters h.toTidy (h.orderly hbase.orderly) (enter_ok henter) fun _ _ => trivial).1
      exact h.moves hmoves (written_enters (enter_ok henter)).own.unpushed
    · have hmoves : Moves m False (fun _ _ => True) r s := moves_enter_error h.toTidy he henter
      exact h.moves hmoves (written_enter_error he henter).own.unpushed
  turn := by
    intro r s h hlasts
    rcases lasts_turn hlasts with ⟨⟨a, hrun⟩ | ⟨e, he, hrun⟩, hpoint⟩ | ⟨goal, -, hlasts⟩ | rfl
    · have hforwards := goForward_ok h.pool h.attached hrun
      have hmoves : Moves m False (fun _ _ => True) r s :=
        (moves_forwards h.toTidy (h.orderly hbase.orderly) hpoint hforwards fun _ _ => trivial).1
      exact h.moves hmoves (written_forwards hforwards).unpushed
    · have hmoves : Moves m False (fun _ _ => True) r s :=
        moves_goForward_error h.toTidy (h.orderly hbase.orderly) he hrun
      exact h.moves hmoves (written_goForward_error h.toTidy he hrun).own.unpushed
    · rcases unwind_backed h hbase.orderly goal with
        ⟨a, t, hunwind, ht, -⟩ | ⟨t, hunwind, -⟩
      · rcases hlasts with ⟨b, hrun⟩ | ⟨e, -, hrun⟩ <;> rw [hunwind] at hrun <;> cases hrun
        exact ht
      · rcases hlasts with ⟨b, hrun⟩ | ⟨e, he, hrun⟩ <;> rw [hunwind] at hrun <;> cases hrun
        cases he
    · exact h
  events := fun r events h => h.quiet ⟨h.attached, h.pool, h.loose⟩ rfl rfl rfl

end OwnedThroughout

/-! ## Parsing and undoing -/

/-- Going back fails only where the log is exhausted. -/
theorem safe_unwind (h : OwnedThroughout m base r) (hbase : Owned [] base) (goal : Goal) :
    Safe (unwind m goal r.log.records) r := by
  intro x s hrun
  rcases unwind_backed h hbase.orderly goal with
    ⟨a, t, hunwind, -⟩ | ⟨t, hunwind, ht, -⟩
  · rw [hunwind] at hrun
    cases hrun
  · rw [hunwind] at hrun
    cases hrun
    have hs : OwnedThroughout m base s := ht
    exact .inl ⟨_, rfl, hs.nodesOwned hbase⟩

lemma safe_turn (h : OwnedThroughout m base r) (hbase : Owned [] base) : Safe (turn m) r := by
  have hr := h.nodesOwned hbase
  refine Safe.after (a := r) (t := r) rfl ?_
  cases r.point with
  | start => exact safe_goForward hr
  | reverse goal => exact safe_unwind h hbase goal
  | done => exact .pure _ _
  | _ => exact .fail hr _

theorem safe_takeTurns {turns : Nat} (h : OwnedThroughout m base r) (hbase : Owned [] base) :
    Safe (takeTurns m turns) r := by
  induction turns generalizing r with
  | zero =>
    rintro x s ⟨⟩
    exact .inr ⟨_, rfl, rfl⟩
  | succ turns ih =>
    refine .bind (safe_turn h hbase) fun a t hturn => ?_
    cases a with
    | some status => exact .pure _ _
    | none => exact ih ((OwnedThroughout.steady hbase).turn h (lasts_ok hturn))

lemma Safe.unlessAborted {op : Op Status} (h : NodesOwned r) (hop : Safe op r) :
    Safe (unlessAborted op) r := by
  intro x s hrun
  unfold Run.unlessAborted at hrun
  split at hrun
  · cases hrun
    exact .inl ⟨_, rfl, h⟩
  · split at hrun
    · cases hrun
    · rename_i e t herror
      have ht : NodesOwned t := by
        rcases hop herror with ⟨_, -, ht⟩ | ⟨f, hfault, -⟩
        · exact ht
        · cases hfault
      split at hrun <;> cases hrun
      · exact .inl ⟨e, rfl, ht.keep rfl rfl rfl rfl rfl ht.attached⟩
      · exact .inl ⟨e, rfl, ht⟩
    · rename_i f t hfault
      cases hrun
      rcases hop hfault with ⟨e, herror, -⟩ | hf
      · cases herror
      · exact .inr hf

lemma safe_parse {turns : Nat} {entry : Entry} (h : OwnedThroughout m base r)
    (hbase : Owned [] base) :
    Safe (parse m turns entry) r := by
  have hr := h.nodesOwned hbase
  refine .unlessAborted hr (.bind (safe_enter hr entry) fun a t henter => ?_)
  cases a with
  | some status => exact .pure _ _
  | none => exact safe_takeTurns ((OwnedThroughout.steady hbase).enter h (lasts_ok henter)) hbase

lemma safe_undoTo {target : Nat} (h : OwnedThroughout m base r) (hbase : Owned [] base) :
    Safe (undoTo m target) r := by
  have hr := h.nodesOwned hbase
  refine .unlessAborted hr ?_
  by_cases hsteps : r.steps < target
  · intro x s hrun
    rw [goBack, get_bind, if_pos hsteps] at hrun
    exact Safe.fail hr _ hrun
  by_cases hwaits : ∀ goal, r.point ≠ .reverse goal
  · intro x s hrun
    rw [goBack_apply (Nat.le_of_not_lt hsteps) hwaits] at hrun
    exact safe_takeTurns (h.awaited _ r.rejecting) hbase hrun
  · intro x s hrun
    simp only [ne_eq, not_forall, not_not] at hwaits
    obtain ⟨goal, hgoal⟩ := hwaits
    rw [goBack, get_bind, if_neg hsteps] at hrun
    simp only [hgoal] at hrun
    exact Safe.fail hr _ hrun

/-! ## Calls -/

/-- Trees that a caller pushes are single nodes. -/
def Call.PushesSingle : Call → Prop
  | .pushTree tree _ => tree.child = none ∧ tree.ignored = none
  | _ => True

/-- Callers write of trees only when they push them. -/
lemma unpushed_call {call : Call} (hattached : r.scanner.stream.isSome) (haside : call.IsAside)
    (hpush : ∀ tree ignore, call ≠ .pushTree tree ignore) (h : call.Leads m r s) :
    Unpushed r.log.records s := by
  have hsame : Unpushed r.log.records r := ⟨[], rfl, by simp⟩
  cases call with
  | attach stream => exact haside.elim
  | parse turns entry => exact haside.elim
  | undoTo target => exact haside.elim
  | giveUpLog => exact haside.elim
  | pushTree tree ignore => exact absurd rfl (hpush tree ignore)
  | pushText text =>
    obtain ⟨stream, hs⟩ := Option.isSome_iff_exists.1 hattached
    rcases h with ⟨u, h⟩ | ⟨e, h⟩ <;> rw [pushText_apply hs] at h <;> cases h
    split
    · exact hsame
    · exact ⟨[_], rfl, by simp⟩
  | queueToken element text name =>
    rcases h with ⟨slot, h⟩ | ⟨e, h⟩
    · rw [queueToken] at h
      obtain ⟨id, t, hmake, h1⟩ := bind_eq_ok.1 h
      obtain ⟨forest, -, rfl⟩ := alloc_eq_ok.1 hmake
      cases name with
      | none =>
        cases h1
        exact ⟨[_], rfl, by simp⟩
      | some name =>
        cases h1
        exact ⟨[_, _], rfl, by simp⟩
    · rw [queueToken] at h
      rcases bind_eq_error.1 h with hfail | ⟨id, t, -, h1⟩
      · exact alloc_error hfail ▸ hsame
      · cases name <;> cases h1
  | bind name id =>
    rcases h with ⟨u, h⟩ | ⟨e, h⟩ <;> cases h
    exact ⟨[_], rfl, by simp⟩
  | leaveData data =>
    rcases h with ⟨u, h⟩ | ⟨e, h⟩ <;> cases h
    exact ⟨[_], rfl, by simp⟩
  | dropAside =>
    rcases h with ⟨u, h⟩ | ⟨e, h⟩ <;> cases h
    exact ⟨[_], rfl, by simp⟩
  | reject =>
    rcases h with ⟨u, h⟩ | ⟨e, h⟩ <;> unfold reject at h <;> split at h <;> cases h <;> exact hsame
  | stop =>
    cases h
    exact hsame
  | pauseAt target =>
    cases h
    exact hsame
  | takeEvents =>
    cases h
    exact hsame

/-- A tree that is pushed is a single node, and it is all that is written down. -/
lemma single_pushTree {tree : Node} {ignore : Bool} (ht : Tidy False r)
    (hbare : (Call.pushTree tree ignore).PushesSingle)
    (h : (Call.pushTree tree ignore).Leads m r s) :
    s = r ∨ ∃ id, s.log = r.log.append (.treePushed id) ∧ Single (.treePushed id) s.view := by
  obtain ⟨stream, hs⟩ := ht.stream
  rcases pushTree_ends hs h with rfl | ⟨slot, forest, halloc, rfl⟩
  · exact .inl rfl
  · refine .inr ⟨slot, rfl, ?_⟩
    rintro _ ⟨⟩ n hn
    obtain ⟨n', hn', hloose⟩ := exists_of_shown hn
    have hslot : Pool.get? forest slot = some tree := by
      rw [(Pool.get?_of_alloc ht.pool halloc).2, Function.update_self]
    obtain rfl : tree = n' := Option.some.inj (hslot.symm.trans hn')
    have hchild : tree.loose.child = n.loose.child := congrArg Node.child hloose
    have hignored : tree.loose.ignored = n.loose.ignored := congrArg Node.ignored hloose
    exact ⟨hchild.symm.trans hbare.1, hignored.symm.trans hbare.2⟩

lemma NodesOwned.call {call : Call} (h : NodesOwned r) (haside : call.IsAside)
    (hbare : call.PushesSingle)
    (hcall : call.Leads m r s) : NodesOwned s := by
  have hmoves : Moves m False (fun _ _ => True) r s :=
    (moves_call h.toTidy h.orderly haside nofun hcall).1
  by_cases hpush : ∃ tree ignore, call = .pushTree tree ignore
  · obtain ⟨tree, ignore, rfl⟩ := hpush
    rcases single_pushTree h.toTidy hbare hcall with rfl | ⟨id, hlog, hsingle⟩
    · exact h
    · have hpath := hmoves.path
      rw [hlog] at hpath
      refine ⟨hmoves.tidy, ?_⟩
      rw [hlog]
      exact h.owned.change hpath.of_single hsingle
  · simp only [not_exists] at hpush
    exact h.moves hmoves (unpushed_call h.attached haside hpush hcall)

lemma OwnedThroughout.call {call : Call} (h : OwnedThroughout m base r) (hbase : Owned [] base)
    (haside : call.IsAside) (hbare : call.PushesSingle) (hcall : call.Leads m r s) :
    OwnedThroughout m base s := by
  have hmoves : Moves m False (fun _ _ => True) r s :=
    (moves_call h.toTidy (h.orderly hbase.orderly) haside nofun hcall).1
  by_cases hpush : ∃ tree ignore, call = .pushTree tree ignore
  · obtain ⟨tree, ignore, rfl⟩ := hpush
    rcases single_pushTree h.toTidy hbare hcall with rfl | ⟨id, hlog, hsingle⟩
    · exact h
    · have hpath := hmoves.path
      rw [hlog] at hpath
      refine ⟨hmoves.tidy, ?_⟩
      rw [hlog]
      exact (h.course.mono hmoves.unread).change hpath.of_single hsingle
  · simp only [not_exists] at hpush
    exact h.moves hmoves (unpushed_call h.attached haside hpush hcall)

/-- A view that shows no node is of a run that holds none. -/
lemma live_of_vacant (h : ∀ id, r.view.nodes id = none) : Pool.live r.forest = 0 := by
  have hnone : Pool.get? r.forest = Pool.get? (Pool.empty 1 1 : Forest) := by
    funext id
    have hid := isSome_shown r id
    rw [show r.shown id = none from h id] at hid
    simpa [Pool.empty, Pool.get?] using hid.symm
  exact (Pool.live_congr hnone).trans rfl

/-! ## Histories -/

/-- What was done with a run since it was given a stream, the last call first.  A fatal error does
not keep a caller from calling. -/
inductive Handled (m : Machine) : List Call → Run → Prop
  | fresh {stream : Stream} {r : Run} : Fresh m stream r → Handled m [] r
  | call {calls : List Call} {call : Call} {r s : Run} :
    Handled m calls r → (∀ stream, call ≠ .attach stream) → call.PushesSingle → call.Leads m r s →
    Handled m (call :: calls) s

/-- Every node has its owner.  Unless the run is over, every node had its owner at the moments to
which the log leads back, and there was none before the first of them if the log was never given
up. -/
structure Upheld (m : Machine) (calls : List Call) (r : Run) : Prop where
  nodesOwned : NodesOwned r
  ownedThroughout : r.aborted = false → ∃ base, Owned [] base ∧ OwnedThroughout m base r ∧
    (.giveUpLog ∉ calls → base.steps = 0 ∧ ∀ id, base.nodes id = none)

lemma ownedThroughout_fresh {stream : Stream} (h : Fresh m stream r) :
    Owned [] r.view ∧ OwnedThroughout m r.view r := by
  obtain ⟨hlog, hstack, haside⟩ :
      r.log = Journal.empty ∧ r.view.stack = none ∧ r.view.aside = none := by
    obtain ⟨blockLength, blockLimit, target, rfl⟩ := h.eq
    exact ⟨rfl, rfl, rfl⟩
  have hwaiting : r.view.waiting = [] := h.waiting
  refine ⟨⟨[], [], [], ?_, ?_, .nil, ?_⟩, h.tidy, ?_⟩
  · rw [hstack]
    exact .nil none
  · rw [haside]
    exact .nil none
  · rw [hwaiting]
    exact .empty h.vacant
  · rw [hlog]
    exact .start

lemma ends_aborted {op : Op Status} (haborted : r.aborted = true)
    (h : Ends (unlessAborted op) r s) : s = r := by
  unfold Ends unlessAborted at h
  simp only [haborted, if_true] at h
  rcases h with ⟨a, h⟩ | ⟨e, h⟩ <;> cases h
  rfl

lemma Safe.nodesOwned {α : Type} {op : Op α} {e : Error} (h : Safe op r)
    (hrun : op r = .error (.error e) s) : NodesOwned s := by
  rcases h hrun with ⟨_, -, hs⟩ | ⟨f, hfault, -⟩
  · exact hs
  · cases hfault

lemma OwnedThroughout.of_parse {turns : Nat} {entry : Entry} {status : Status}
    (h : OwnedThroughout m base r)
    (hbase : Owned [] base) (hrun : parse m turns entry r = .ok status s) :
    OwnedThroughout m base s := by
  obtain ⟨-, t, hresume, rfl⟩ := ok_of_unlessAborted hrun
  exact (steady hbase).events _ ((steady hbase).resume h (lasts_ok hresume))

lemma OwnedThroughout.of_undoTo {target : Nat} {status : Status} (h : OwnedThroughout m base r)
    (hbase : Owned [] base) (hrun : undoTo m target r = .ok status s) :
    OwnedThroughout m base s := by
  obtain ⟨-, t, hback, rfl⟩ := ok_of_unlessAborted hrun
  obtain ⟨-, -, hturns⟩ := lasts_goBack (lasts_ok hback)
  exact (steady hbase).events _ ((steady hbase).takeTurns (h.awaited _ r.rejecting) hturns)

/-- What callers do leaves the owners along the log as they were, as long as the run is not over. -/
lemma OwnedThroughout.leads {call : Call} (h : OwnedThroughout m base r) (hbase : Owned [] base)
    (hattach : ∀ stream, call ≠ .attach stream) (hgive : call ≠ .giveUpLog)
    (hsingle : call.PushesSingle) (hcall : call.Leads m r s) (halive : s.aborted = false) :
    OwnedThroughout m base s := by
  by_cases haside : call.IsAside
  · exact h.call hbase haside hsingle hcall
  cases call with
  | attach stream => exact absurd rfl (hattach stream)
  | giveUpLog => exact absurd rfl hgive
  | parse turns entry => exact (steady hbase).parse h hcall halive
  | undoTo target => exact (steady hbase).undoTo (h.awaited _ r.rejecting) hcall halive
  | _ => exact absurd trivial haside

/-- Giving up the log begins another one. -/
lemma NodesOwned.giveUpLog (h : NodesOwned r) : ∃ s, giveUpLog r = .ok () s ∧ Unburdened r s ∧
    s.log = Journal.empty ∧ Owned [] s.view ∧ OwnedThroughout m s.view s := by
  obtain ⟨s, hgive, hleft⟩ := giveUpLog_ok h.pool h.owned
  have hlog : s.log = Journal.empty := by rw [hleft.same]
  have htidy : Tidy False s := by
    refine ⟨?_, hleft.pool, nofun⟩
    rw [hleft.same]
    exact h.attached
  refine ⟨s, hgive, hleft, hlog, hleft.owned, htidy, ?_⟩
  rw [hlog]
  exact .start

lemma nodesOwned_parse {turns : Nat} {entry : Entry} (h : OwnedThroughout m base r)
    (hbase : Owned [] base)
    (hcall : Ends (parse m turns entry) r s) : NodesOwned s := by
  rcases hcall with ⟨status, hrun⟩ | ⟨e, hrun⟩
  · exact (h.of_parse hbase hrun).nodesOwned hbase
  · exact (safe_parse h hbase).nodesOwned hrun

lemma nodesOwned_undoTo {target : Nat} (h : OwnedThroughout m base r) (hbase : Owned [] base)
    (hcall : Ends (undoTo m target) r s) : NodesOwned s := by
  rcases hcall with ⟨status, hrun⟩ | ⟨e, hrun⟩
  · exact (h.of_undoTo hbase hrun).nodesOwned hbase
  · exact (safe_undoTo h hbase).nodesOwned hrun

/-- A run that has gone back to its beginning holds nothing, if nothing was there. -/
lemma OwnedThroughout.cleared (h : OwnedThroughout m base r) (hnone : ∀ id, base.nodes id = none)
    (hback : AtBoundary m 0 r) : Pool.live r.forest = 0 := by
  have hview : r.view = base := by
    have hcourse := h.course
    obtain ⟨hzero, hlog | ⟨older, hlog⟩, -⟩ := hback
    · rw [hlog] at hcourse
      exact hcourse.path.of_same
    · rw [hlog] at hcourse
      generalize hv : r.view = v at hcourse
      cases hcourse with
      | change _ hc _ =>
        have hcount := hc.steps
        rw [if_pos rfl, ← hv] at hcount
        have hr : r.view.steps = 0 := hzero
        omega
  exact live_of_vacant fun id => by rw [hview, hnone id]

namespace Upheld

variable {calls : List Call} {stream : Stream}

lemma fresh (h : Fresh m stream r) : Upheld m [] r := by
  obtain ⟨howned, hthroughout⟩ := ownedThroughout_fresh h
  have hsteps : r.view.steps = 0 := by
    obtain ⟨blockLength, blockLimit, target, rfl⟩ := h.eq
    rfl
  exact ⟨hthroughout.nodesOwned howned,
    fun _ => ⟨r.view, howned, hthroughout, fun _ => ⟨hsteps, h.vacant⟩⟩⟩

/-- A guarded operation changes nothing of a run that is over. -/
lemma guarded {op : Op Status} {latest : Call} (h : Upheld m calls r)
    (hends : Ends (unlessAborted op) r s)
    (hnodesOwned : ∀ base, Owned [] base → OwnedThroughout m base r → NodesOwned s)
    (hthroughout : ∀ base, Owned [] base → OwnedThroughout m base r → s.aborted = false →
      OwnedThroughout m base s) :
    Upheld m (latest :: calls) s := by
  cases haborted : r.aborted with
  | true =>
    obtain rfl := ends_aborted haborted hends
    exact ⟨h.nodesOwned, fun halive => by rw [haborted] at halive; cases halive⟩
  | false =>
    obtain ⟨base, hbase, hr, hempty⟩ := h.ownedThroughout haborted
    refine ⟨hnodesOwned base hbase hr, fun halive => ⟨base, hbase, hthroughout base hbase hr halive,
      fun hnone => hempty fun hmem => ?_⟩⟩
    exact hnone (List.mem_cons_of_mem _ hmem)

lemma call {call : Call} (h : Upheld m calls r) (hattach : ∀ stream, call ≠ .attach stream)
    (hbare : call.PushesSingle) (hcall : call.Leads m r s) : Upheld m (call :: calls) s := by
  by_cases haside : call.IsAside
  · have hmoves : Moves m False (fun _ _ => True) r s :=
      (moves_call h.nodesOwned.toTidy h.nodesOwned.orderly haside nofun hcall).1
    refine ⟨h.nodesOwned.call haside hbare hcall, fun halive => ?_⟩
    obtain ⟨base, hbase, hr, hempty⟩ := h.ownedThroughout (hmoves.aborted.symm.trans halive)
    refine ⟨base, hbase, hr.call hbase haside hbare hcall, fun hnone => hempty fun hmem => ?_⟩
    exact hnone (List.mem_cons_of_mem _ hmem)
  cases call with
  | attach stream => exact absurd rfl (hattach stream)
  | parse turns entry =>
    exact h.guarded hcall (fun _ hbase hr => nodesOwned_parse hr hbase hcall)
      fun _ hbase hr => hr.leads hbase hattach nofun hbare hcall
  | undoTo target =>
    exact h.guarded hcall (fun _ hbase hr => nodesOwned_undoTo hr hbase hcall)
      fun _ hbase hr => hr.leads hbase hattach nofun hbare hcall
  | giveUpLog =>
    obtain ⟨t, hgive, -, -, howned, hthroughout⟩ := h.nodesOwned.giveUpLog (m := m)
    obtain rfl : s = t := by
      rcases hcall with ⟨u, hrun⟩ | ⟨e, hrun⟩ <;> rw [hgive] at hrun <;> cases hrun
      rfl
    exact ⟨hthroughout.nodesOwned howned, fun _ => ⟨s.view, howned, hthroughout, fun hnone =>
      absurd List.mem_cons_self hnone⟩⟩
  | _ => exact absurd trivial haside

lemma of_handled (h : Handled m calls r) : Upheld m calls r := by
  induction h with
  | fresh hfresh => exact fresh hfresh
  | call _ hattach hbare hcall ih => exact ih.call hattach hbare hcall

lemma safe {op : Op Status} (h : Upheld m calls r)
    (hop : ∀ base, Owned [] base → OwnedThroughout m base r → Safe (unlessAborted op) r) :
    Safe (unlessAborted op) r := by
  cases haborted : r.aborted with
  | true =>
    intro x s hrun
    unfold unlessAborted at hrun
    rw [if_pos haborted] at hrun
    cases hrun
    exact .inl ⟨_, rfl, h.nodesOwned⟩
  | false =>
    obtain ⟨base, hbase, hr, -⟩ := h.ownedThroughout haborted
    exact hop base hbase hr

/-- A run that can still be taken back can be taken back to its beginning, and holds nothing then.
-/
lemma goAllBack_cleared (turns : Nat) (h : Upheld m calls r) (hnone : .giveUpLog ∉ calls)
    (halive : r.aborted = false) (hwaits : ∀ goal, r.point ≠ .reverse goal) :
    ∃ s, goAllBack m (turns + 1) r.log.length 0 r = .ok (.reverted 0) s ∧
      Pool.live s.forest = 0 := by
  obtain ⟨base, hbase, hr, hempty⟩ := h.ownedThroughout halive
  obtain ⟨hsteps, hvacant⟩ := hempty hnone
  have hsound : Sound m False (fun _ w => 0 < w.steps) base r :=
    ⟨hr.toTidy, hr.course.path.weaken fun _ w hlt _ _ => Nat.zero_lt_of_lt hlt⟩
  obtain ⟨s, hback, -, hland⟩ :=
    goAllBack_lands turns hsound hbase.orderly halive hwaits (Nat.le_of_eq hsteps) (Nat.zero_le _)
  refine ⟨s, hback, ?_⟩
  rcases hland.noted with ⟨-, hview⟩ | hpos
  · exact live_of_vacant fun id => by rw [hview, hvacant id]
  · have hzero : s.view.steps = 0 := hland.steps
    omega

end Upheld

/-- Whatever callers do, every node is held in exactly one way and no link leads astray; no parse
and no undoing meets a slot that holds nothing; the log can always be given up; and a run that has
gone back to its beginning holds nothing, unless the log was given up. -/
theorem handled_heldOnce {calls : List Call} (h : Handled m calls r) :
    HeldOnce r ∧ Pool.Sound r.forest ∧
      (∀ turns entry f s, parse m turns entry r = .error (.fault f) s → f.ofLinks = false) ∧
      (∀ target f s, undoTo m target r = .error (.fault f) s → f.ofLinks = false) ∧
      (∃ s, giveUpLog r = .ok () s) ∧
      (.giveUpLog ∉ calls →
        (∀ turns entry s, parse m turns entry r = .ok (.reverted 0) s →
          Pool.live s.forest = 0) ∧
        (∀ target s, undoTo m target r = .ok (.reverted 0) s → Pool.live s.forest = 0) ∧
        (r.aborted = false → (∀ goal, r.point ≠ .reverse goal) → ∀ turns,
          ∃ s, goAllBack m (turns + 1) r.log.length 0 r = .ok (.reverted 0) s ∧
            Pool.live s.forest = 0)) := by
  have hr := Upheld.of_handled h
  have hfault {op : Op Status} {f : Fault} {s : Run} (hsafe : Safe op r)
      (hrun : op r = .error (.fault f) s) : f.ofLinks = false := by
    rcases hsafe hrun with ⟨e, herror, -⟩ | ⟨f', hsame, hf⟩
    · cases herror
    · cases hsame
      exact hf
  refine ⟨hr.nodesOwned.owned.heldOnce, hr.nodesOwned.pool, fun turns entry f s hrun => ?_,
    fun target f s hrun => ?_, ?_, fun hnone => ⟨fun turns entry s hrun => ?_,
      fun target s hrun => ?_, fun halive hwaits turns =>
        hr.goAllBack_cleared turns hnone halive hwaits⟩⟩
  · exact hfault (hr.safe fun _ hbase hthroughout => safe_parse hthroughout hbase) hrun
  · exact hfault (hr.safe fun _ hbase hthroughout => safe_undoTo hthroughout hbase) hrun
  · obtain ⟨s, hgive, -⟩ := giveUpLog_ok hr.nodesOwned.pool hr.nodesOwned.owned
    exact ⟨s, hgive⟩
  · obtain ⟨base, hbase, hthroughout, hempty⟩ := hr.ownedThroughout (ok_of_unlessAborted hrun).1
    obtain ⟨-, hvacant⟩ := hempty hnone
    exact (hthroughout.of_parse hbase hrun).cleared hvacant (parse_reverted hrun)
  · obtain ⟨base, hbase, hthroughout, hempty⟩ := hr.ownedThroughout (ok_of_unlessAborted hrun).1
    obtain ⟨-, hvacant⟩ := hempty hnone
    exact (hthroughout.of_undoTo hbase hrun).cleared hvacant (undoTo_reverted hrun)

/-- The word is parsed and an action is left; taken back to its beginning, the run holds nothing. -/
theorem handled_heldOnce_letter :
    ∃ r s, Handled letterMachine [.leaveData [7], .parse 20 .start] r ∧ r.steps = 3 ∧ HeldOnce r ∧
      goAllBack letterMachine 1 r.log.length 0 r = .ok (.reverted 0) s ∧
      Pool.live s.forest = 0 := by
  obtain ⟨r, hparse, hsteps, hpoint, halive, -⟩ := parse_letter
  have hfresh : Fresh letterMachine (Stream.ofBytes [97]) letterStart :=
    ⟨rfl, 8, 8, none, rfl⟩
  have hparsed : Handled letterMachine [.parse 20 .start] r :=
    .call (.fresh hfresh) nofun trivial (.inl ⟨_, hparse⟩)
  have hleft : Handled letterMachine [.leaveData [7], .parse 20 .start]
      { r with log := r.log.append (.action [7]) } :=
    .call hparsed nofun trivial (.inl ⟨(), rfl⟩)
  have hwaits : ∀ goal, r.point ≠ .reverse goal := by
    rw [hpoint]
    exact nofun
  obtain ⟨hheld, -, -, -, -, hback⟩ := handled_heldOnce hleft
  obtain ⟨s, hrun, hlive⟩ := (hback (by simp)).2.2 halive hwaits 0
  exact ⟨_, s, hleft, hsteps, hheld, hrun, hlive⟩

end Run

end Rewind
