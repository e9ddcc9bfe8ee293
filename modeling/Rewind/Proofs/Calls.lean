import Rewind.Proofs.Turns

/-!
# What callers may do

A `Call` is anything that a caller does with a run.  Those that only put something in front of the
run, or leave something behind, move along the path like the run itself.
-/

namespace Rewind.Run

open Attempt Op

/-- The attempt ends, with a result or with an error. -/
def Ends {ε σ α : Type} (x : Attempt ε σ α) (r s : σ) : Prop :=
  (∃ a, x r = .ok a s) ∨ ∃ e, x r = .error (.error e) s

/-- The operation ends with a result, or with an error that does not end the run. -/
def Lasts {α : Type} (op : Op α) (r s : Run) : Prop :=
  (∃ a, op r = .ok a s) ∨ ∃ e, e.isFatal = false ∧ op r = .error (.error e) s

lemma lasts_ok {α : Type} {op : Op α} {r s : Run} {a : α} (h : op r = .ok a s) : Lasts op r s :=
  .inl ⟨a, h⟩

/-- What follows an operation lasts where the operation does. -/
lemma lasts_bind {α β : Type} {x : Op α} {f : α → Op β} {r s : Run} (h : Lasts (x >>= f) r s) :
    (∃ e, e.isFatal = false ∧ x r = .error (.error e) s) ∨
      ∃ a t, x r = .ok a t ∧ Lasts (f a) t s := by
  rcases h with ⟨b, h⟩ | ⟨e, he, h⟩
  · obtain ⟨a, t, hx, hf⟩ := bind_eq_ok.1 h
    exact .inr ⟨a, t, hx, .inl ⟨b, hf⟩⟩
  · rcases bind_eq_error.1 h with hx | ⟨a, t, hx, hf⟩
    · exact .inl ⟨e, he, hx⟩
    · exact .inr ⟨a, t, hx, .inr ⟨e, he, hf⟩⟩

/-- What lasts under a guard lasts without it, but for an event that is told. -/
lemma lasts_of_unlessAborted {op : Op Status} {r s : Run} (h : Ends (unlessAborted op) r s)
    (halive : s.aborted = false) :
    r.aborted = false ∧ ∃ t events, Lasts op r t ∧ s = { t with events } := by
  have hr : r.aborted = false := by
    cases haborted : r.aborted with
    | false => rfl
    | true =>
      unfold Ends unlessAborted at h
      simp only [haborted, if_true] at h
      rcases h with ⟨a, h⟩ | ⟨e, h⟩
      · cases h
      · cases h
        rw [haborted] at halive
        cases halive
  refine ⟨hr, ?_⟩
  unfold Ends unlessAborted at h
  simp only [hr, Bool.false_eq_true, if_false] at h
  cases hop : op r with
  | ok status t =>
    simp only [hop] at h
    rcases h with ⟨a, h⟩ | ⟨e, h⟩
    · cases h
      exact ⟨t, _, .inl ⟨status, hop⟩, rfl⟩
    · cases h
  | error e t =>
    cases e with
    | error e =>
      cases he : e.isFatal with
      | true =>
        simp only [hop, he, if_true] at h
        rcases h with ⟨a, h⟩ | ⟨e', h⟩
        · cases h
        · cases h
          cases halive
      | false =>
        simp only [hop, he, Bool.false_eq_true, if_false] at h
        rcases h with ⟨a, h⟩ | ⟨e', h⟩
        · cases h
        · cases h
          exact ⟨s, s.events, .inr ⟨_, he, hop⟩, rfl⟩
    | fault f =>
      simp only [hop] at h
      rcases h with ⟨a, h⟩ | ⟨e', h⟩ <;> cases h

/-- What a guarded operation answers, the operation itself answers. -/
lemma ok_of_unlessAborted {op : Op Status} {status : Status} {r s : Run}
    (h : unlessAborted op r = .ok status s) :
    r.aborted = false ∧ ∃ t, op r = .ok status t ∧
      s = { t with events := .suspended status :: t.events } := by
  unfold unlessAborted at h
  split at h
  · cases h
  · rename_i haborted
    split at h
    · rename_i hop
      cases h
      exact ⟨by simpa using haborted, _, hop, rfl⟩
    · split at h <;> cases h
    · cases h

/-- Something that a caller does. -/
inductive Call where
  | attach (stream : Stream)
  | parse (turns : Nat) (entry : Entry)
  | undoTo (target : Nat)
  | pushText (text : Bytes)
  | pushTree (tree : Node) (ignore : Bool)
  | queueToken (element : ElementId) (text : Bytes) (name : Option VariableId)
  | bind (name : VariableId) (id : NodeId)
  | leaveData (data : Bytes)
  | dropAside
  | reject
  | stop
  | pauseAt (target : Option Nat)
  | takeEvents
  | giveUpLog

namespace Call

/-- What a call makes of a run.  A call that faults makes nothing of it. -/
def Leads (m : Machine) (r s : Run) : Call → Prop
  | attach stream => Ends (Run.attach stream) r s
  | parse turns entry => Ends (Run.parse m turns entry) r s
  | undoTo target => Ends (Run.undoTo m target) r s
  | pushText text => Ends (Run.pushText text) r s
  | pushTree tree ignore => Ends (Run.pushTree tree ignore) r s
  | queueToken element text name => Ends (Run.queueToken element text name) r s
  | bind name id => Ends (Run.bind name id) r s
  | leaveData data => Ends (Run.leaveData data) r s
  | dropAside => Ends Run.dropAside r s
  | reject => Ends Run.reject r s
  | stop => s = r.stop
  | pauseAt target => s = r.pauseAt target
  | takeEvents => s = r.takeEvents.2
  | giveUpLog => Ends Run.giveUpLog r s

/-- Calls that neither parse nor take back, and that write down all they change. -/
def IsAside : Call → Prop
  | attach _ | parse _ _ | undoTo _ | giveUpLog => False
  | _ => True

/-- Trees that a caller pushes are in no chain and have entered no state. -/
def IsLoose : Call → Prop
  | pushTree tree _ => tree.next = none ∧ tree.state = 0
  | _ => True

end Call

variable {m : Machine} {strict : Prop} {Noted : List Record → View → Prop} {r s t : Run}

lemma loose_of_fields {n : Node} (hnext : n.next = none) (hstate : n.state = 0) :
    n.loose = n := by
  obtain ⟨⟩ := n
  simp only at hnext hstate
  subst hnext hstate
  rfl

lemma moves_bind (ht : Tidy strict r) {name : VariableId} {id : NodeId} {u : Unit}
    (h : bind name id r = .ok u s) : Moves m strict Noted r s ∧ s.steps = r.steps := by
  cases h
  exact ⟨moves_bound ht name id, rfl⟩

lemma pushText_apply {stream : Stream} (hs : r.scanner.stream = some stream) (text : Bytes) :
    pushText text r = .ok () (if text = [] then r else { r with
      scanner := { r.scanner with stream := some (stream.pushText text) }
      log := r.log.append (.textPushed text.length) }) := by
  by_cases htext : text = []
  · subst htext
    rfl
  · rw [pushText, if_pos htext, if_neg htext, bind_ok (changeStream_ok hs)]
    rfl

lemma moves_pushText (ht : Tidy strict r) {text : Bytes} (h : Ends (pushText text) r s) :
    Moves m strict Noted r s ∧ s.steps = r.steps := by
  obtain ⟨stream, hs⟩ := ht.stream
  rcases h with ⟨u, h⟩ | ⟨e, h⟩
  · rw [pushText_apply hs] at h
    cases h
    split
    · exact ⟨.refl ht, rfl⟩
    · exact ⟨moves_textPushed ht hs, rfl⟩
  · rw [pushText_apply hs] at h
    cases h

/-- A pool that is full stays as it is. -/
lemma alloc_error {n : Node} {e : Failure Error} (h : alloc n r = .error e s) : s = r := by
  unfold alloc Pool.alloc at h
  cases hfull : Pool.full? r.forest with
  | none =>
    simp only [hfull] at h
    cases h
  | some refusal =>
    simp only [hfull] at h
    cases h
    rfl

section PushTree

variable {stream : Stream} {tree : Node} {ignore : Bool} (hs : r.scanner.stream = some stream)
include hs

lemma changeStream_id : changeStream id r = .ok () r := by
  rw [changeStream_ok hs]
  simp only [id, ← hs]

lemma pushTree_ok {slot : NodeId} (h : pushTree tree ignore r = .ok slot s) :
    ∃ forest, Pool.alloc r.forest tree = (.ok slot, forest) ∧ s = { r with
      forest
      scanner := { r.scanner with stream := some (stream.pushTree slot ignore) }
      log := r.log.append (.treePushed slot) } := by
  rw [pushTree, bind_ok (changeStream_id hs)] at h
  obtain ⟨slot', t, hmake, h1⟩ := bind_eq_ok.1 h
  obtain ⟨forest, halloc, rfl⟩ := alloc_eq_ok.1 hmake
  rw [bind_ok (changeStream_ok (show { r with forest }.scanner.stream = some stream from hs)),
    write_bind] at h1
  cases h1
  exact ⟨forest, halloc, rfl⟩

/-- A tree is pushed, or finds no slot. -/
lemma pushTree_ends (h : Ends (pushTree tree ignore) r s) :
    s = r ∨ ∃ slot forest, Pool.alloc r.forest tree = (.ok slot, forest) ∧ s = { r with
      forest
      scanner := { r.scanner with stream := some (stream.pushTree slot ignore) }
      log := r.log.append (.treePushed slot) } := by
  rcases h with ⟨slot, h⟩ | ⟨e, h⟩
  · exact .inr ⟨slot, pushTree_ok hs h⟩
  · rw [pushTree, bind_ok (changeStream_id hs)] at h
    rcases bind_eq_error.1 h with hfail | ⟨slot', t, hmake, h1⟩
    · exact .inl (alloc_error hfail)
    · obtain ⟨forest, halloc, rfl⟩ := alloc_eq_ok.1 hmake
      rw [bind_ok (changeStream_ok (show { r with forest }.scanner.stream = some stream from hs))]
        at h1
      cases h1

end PushTree

lemma moves_pushTree (ht : Tidy strict r) (ho : Orderly r.view) {tree : Node} {ignore : Bool}
    (hloose : strict → tree.loose = tree) (h : Ends (pushTree tree ignore) r s) :
    Moves m strict Noted r s ∧ s.steps = r.steps := by
  obtain ⟨stream, hs⟩ := ht.stream
  rcases pushTree_ends hs h with rfl | ⟨slot, forest, halloc, rfl⟩
  · exact ⟨.refl ht, rfl⟩
  · exact ⟨moves_treePushed ht ho hs hloose halloc, rfl⟩

lemma moves_queueToken (ht : Tidy strict r) (ho : Orderly r.view) {element : ElementId}
    {text : Bytes} {name : Option VariableId} (h : Ends (queueToken element text name) r s) :
    Moves m strict Noted r s ∧ s.steps = r.steps := by
  rcases h with ⟨slot, h⟩ | ⟨e, h⟩
  · rw [queueToken] at h
    obtain ⟨id, t, hmake, h1⟩ := bind_eq_ok.1 h
    obtain ⟨forest, halloc, rfl⟩ := alloc_eq_ok.1 hmake
    have hsent : Moves m strict Noted r _ := moves_sent ht ho halloc
    simp only [putBack, modify_bind, write_bind] at h1
    cases name with
    | none =>
      cases h1
      exact ⟨hsent, rfl⟩
    | some name =>
      obtain ⟨u, t, hbind, h2⟩ := bind_eq_ok.1 h1
      cases h2
      obtain ⟨hbound, hsteps⟩ := moves_bind hsent.tidy hbind
      exact ⟨hsent.trans hbound, hsteps⟩
  · rw [queueToken] at h
    rcases bind_eq_error.1 h with hfail | ⟨id, t, hmake, h1⟩
    · obtain rfl := alloc_error hfail
      exact ⟨.refl ht, rfl⟩
    · cases name <;> cases h1

/-- The run is the same in all that matters for taking back. -/
lemma moves_settings (ht : Tidy strict r) (target : Option Nat) (stopping rejecting : Bool)
    (events : List Event) :
    Moves m strict Noted r { r with target, stopping, rejecting, events } :=
  .quiet (ht.keep ht.attached ht.pool fun _ hj _ hn => .inr ⟨hj, hn⟩) rfl rfl (Nat.le_refl _) rfl

/-- What a caller does aside moves along the path, and completes no step. -/
lemma moves_call {call : Call} (ht : Tidy strict r) (ho : Orderly r.view) (hcall : call.IsAside)
    (hloose : strict → call.IsLoose) (h : call.Leads m r s) :
    Moves m strict Noted r s ∧ s.steps = r.steps := by
  cases call with
  | attach stream => exact hcall.elim
  | parse turns entry => exact hcall.elim
  | undoTo target => exact hcall.elim
  | giveUpLog => exact hcall.elim
  | pushText text => exact moves_pushText ht h
  | pushTree tree ignore =>
    refine moves_pushTree ht ho (fun hstrict => ?_) h
    exact loose_of_fields (hloose hstrict).1 (hloose hstrict).2
  | queueToken element text name => exact moves_queueToken ht ho h
  | bind name id =>
    rcases h with ⟨u, h⟩ | ⟨e, h⟩
    · exact moves_bind ht h
    · cases h
  | leaveData data =>
    rcases h with ⟨u, h⟩ | ⟨e, h⟩
    · cases h
      exact ⟨moves_action ht data, rfl⟩
    · cases h
  | dropAside =>
    rcases h with ⟨u, h⟩ | ⟨e, h⟩
    · cases h
      exact ⟨moves_dropped ht, rfl⟩
    · cases h
  | reject =>
    rcases h with ⟨u, h⟩ | ⟨e, h⟩
    · unfold reject at h
      split at h <;> cases h
      exact ⟨moves_settings ht r.target r.stopping true r.events, rfl⟩
    · unfold reject at h
      split at h <;> cases h
      exact ⟨.refl ht, rfl⟩
  | stop =>
    cases h
    exact ⟨moves_settings ht r.target true r.rejecting r.events, rfl⟩
  | pauseAt target =>
    cases h
    exact ⟨moves_settings ht target r.stopping r.rejecting r.events, rfl⟩
  | takeEvents =>
    cases h
    exact ⟨moves_settings ht r.target r.stopping r.rejecting [], rfl⟩

end Rewind.Run
