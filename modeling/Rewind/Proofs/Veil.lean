import Rewind.Proofs.Reverted

/-!
# Runs seen through a veil

What a run holds of its stream can be told in several ways, and when it is to pause is nobody's
business but its caller's.  A `Veil` changes those parts of a run only.  An operation commutes with
a veil if it makes no difference whether the veil is put on before or after: the operation gives the
same answer, or fails in the same way, and leaves runs that are the same under the veil.

Operations that neither read from the stream nor end a step commute with every veil whose laws are
kept; whether a turn does so depends on its scans, on its ends of steps, and on what the log removes
from the stream.
-/

namespace Rewind.Run

open Attempt Op

/-- Whether control is given back only because the caller asked for that beforehand. -/
def Status.isPause : Status → Bool
  | .stopped | .paused => true
  | _ => false

/-- Whether the event tells of a pause. -/
def Event.isPause : Event → Bool
  | .suspended status => status.isPause
  | _ => false

/-- What taking the record back removes from the stream, by the number of items. -/
def Record.removes? : Record → Option Nat
  | .textPushed count => some count
  | .treePushed _ => some 1
  | _ => none

/-- The run that begins to take its newest record back. -/
def begun (record : Record) (older : List Record) (r : Run) : Run :=
  { r with log := ⟨older⟩, events := .undone record :: r.events }

/-- Another account of a run's stream, of when the run is to pause, and of what it told. -/
structure Veil where
  stream : Stream → Stream
  target : Option Nat → Option Nat
  stopping : Bool → Bool
  events : List Event → List Event
  /-- The answer of a turn, none if the run goes on. -/
  answer : Option Status → Option Status

namespace Veil

/-- A scanner under the veil. -/
def scanner (v : Veil) (s : Scanner) : Scanner :=
  { s with stream := s.stream.map v.stream }

/-- A run under the veil. -/
def veiled (v : Veil) (r : Run) : Run :=
  { r with
    scanner := v.scanner r.scanner
    target := v.target r.target
    stopping := v.stopping r.stopping
    events := v.events r.events }

/-- A result under the veil, whose answer may be told in another way. -/
def result (v : Veil) {α β : Type} (f : α → β) :
    EStateM.Result (Failure Error) Run α → EStateM.Result (Failure Error) Run β
  | .ok a s => .ok (f a) (v.veiled s)
  | .error e s => .error e (v.veiled s)

/-- It makes no difference whether the veil is put on before the operation or after it. -/
def Commutes (v : Veil) {α : Type} (op : Op α) (r : Run) : Prop :=
  op (v.veiled r) = v.result id (op r)

/-- So too for a part of a turn, but that its answer is told in another way. -/
def Answers (v : Veil) (op : Op (Option Status)) (r : Run) : Prop :=
  op (v.veiled r) = v.result v.answer (op r)

/-- What a veil leaves as it is. -/
structure Lawful (v : Veil) : Prop where
  position : ∀ s, (v.stream s).position = s.position
  putBack : ∀ text position s,
    (v.stream s).putBack text position = v.stream (s.putBack text position)
  pushText : ∀ text s, (v.stream s).pushText text = v.stream (s.pushText text)
  pushTree : ∀ id ignore s, (v.stream s).pushTree id ignore = v.stream (s.pushTree id ignore)
  takeTree : ∀ s, (v.stream s).takeTree? = s.takeTree?.map (Prod.map id v.stream)
  events : ∀ e es, e.isPause = false → v.events (e :: es) = e :: v.events es
  answer : ∀ status, status.isPause = false → v.answer (some status) = some status
  onward : v.answer none = none

variable {v : Veil} {m : Machine} {r : Run} {α β : Type}

/-! ## Putting operations together -/

lemma commutes_pure (a : α) : v.Commutes (pure a) r := rfl

lemma commutes_modify {f : Run → Run} (h : f (v.veiled r) = v.veiled (f r)) :
    v.Commutes (modify f) r := by
  rw [Commutes, modify_apply, modify_apply, h]
  rfl

lemma commutes_bind {x : Op α} {f : α → Op β} (hx : v.Commutes x r)
    (hf : ∀ a s, x r = .ok a s → v.Commutes (f a) s) : v.Commutes (x >>= f) r := by
  rw [Commutes] at hx ⊢
  cases hrun : x r with
  | ok a s =>
    rw [hrun] at hx
    rw [bind_ok hrun, bind_ok hx]
    exact hf a s hrun
  | error e s =>
    rw [hrun] at hx
    rw [bind_error hrun, bind_error hx]
    rfl

/-- Two operations of which the second does not depend on what the first came to. -/
lemma commutes_seq {x : Op α} {f : α → Op β} (hx : v.Commutes x r)
    (hf : ∀ a s, v.Commutes (f a) s) : v.Commutes (x >>= f) r :=
  commutes_bind hx fun a s _ => hf a s

/-- An operation that begins by reading parts of the run that the veil leaves alone. -/
lemma commutes_get {f : Run → Op α} (hsame : f (v.veiled r) = f r) (hf : v.Commutes (f r) r) :
    v.Commutes (get >>= f) r := by
  rw [Commutes, get_bind, get_bind, hsame]
  exact hf

lemma commutes_ite {p : Prop} [Decidable p] {x y : Op α} (hx : p → v.Commutes x r)
    (hy : ¬p → v.Commutes y r) : v.Commutes (if p then x else y) r := by
  split
  · exact hx ‹_›
  · exact hy ‹_›

lemma commutes_fail (e : Error) : v.Commutes (Op.fail e : Op α) r := rfl

lemma commutes_lookup (x : Except Fault α) : v.Commutes (Op.lookup x) r := by
  cases x <;> rfl

lemma commutes_write (record : Record) : v.Commutes (Op.write record) r := rfl

lemma answers_bind {x : Op α} {f : α → Op (Option Status)} (hx : v.Commutes x r)
    (hf : ∀ a s, x r = .ok a s → v.Answers (f a) s) : v.Answers (x >>= f) r := by
  rw [Commutes] at hx
  rw [Answers]
  cases hrun : x r with
  | ok a s =>
    rw [hrun] at hx
    rw [bind_ok hrun, bind_ok hx]
    exact hf a s hrun
  | error e s =>
    rw [hrun] at hx
    rw [bind_error hrun, bind_error hx]
    rfl

lemma answers_get {f : Run → Op (Option Status)} (hsame : f (v.veiled r) = f r)
    (hf : v.Answers (f r) r) : v.Answers (get >>= f) r := by
  rw [Answers, get_bind, get_bind, hsame]
  exact hf

lemma answers_ite {p : Prop} [Decidable p] {x y : Op (Option Status)} (hx : p → v.Answers x r)
    (hy : ¬p → v.Answers y r) : v.Answers (if p then x else y) r := by
  split
  · exact hx ‹_›
  · exact hy ‹_›

/-! ## Nodes, queue and log -/

lemma commutes_node (id : NodeId) : v.Commutes (Op.node id) r :=
  commutes_get rfl (commutes_lookup _)

lemma commutes_change (id : NodeId) (f : Node → Node) : v.Commutes (Op.change id f) r := by
  unfold Commutes Op.change
  rw [show (v.veiled r).forest = r.forest from rfl]
  cases Pool.get? r.forest id <;> rfl

lemma commutes_alloc (n : Node) : v.Commutes (Op.alloc n) r := by
  unfold Commutes Op.alloc
  rw [show (v.veiled r).forest = r.forest from rfl]
  rcases Pool.alloc r.forest n with ⟨_ | id, forest⟩ <;> rfl

lemma commutes_release (id : NodeId) : v.Commutes (Op.release id) r := by
  unfold Commutes Op.release
  rw [show (v.veiled r).forest = r.forest from rfl]
  cases Pool.get? r.forest id <;> rfl

lemma commutes_releaseTree (id : NodeId) : v.Commutes (Op.releaseTree id) r := by
  unfold Commutes Op.releaseTree
  rw [show (v.veiled r).forest = r.forest from rfl]
  cases Forest.freeTree r.forest id <;> rfl

lemma commutes_putBack (id : NodeId) : v.Commutes (Op.putBack id) r := rfl

lemma commutes_putFront (id : NodeId) : v.Commutes (Op.putFront id) r := rfl

lemma commutes_takeFront (id : NodeId) : v.Commutes (Op.takeFront id) r :=
  commutes_get rfl (commutes_ite (fun _ => commutes_modify rfl) fun _ => commutes_fail _)

lemma commutes_takeBack (id : NodeId) : v.Commutes (Op.takeBack id) r :=
  commutes_get rfl (commutes_ite (fun _ => commutes_modify rfl) fun _ => commutes_fail _)

lemma commutes_setAside (id : NodeId) : v.Commutes (Op.setAside id) r :=
  commutes_get rfl (commutes_seq (commutes_change _ _) fun _ _ => commutes_modify rfl)

lemma commutes_tell (hv : v.Lawful) {event : Event} (h : event.isPause = false) :
    v.Commutes (Op.tell event) r := by
  refine commutes_modify ?_
  rw [veiled, veiled, ← hv.events event r.events h]

/-! ## The stream -/

lemma commutes_onStream {f : Stream → α × Stream}
    (h : ∀ s, r.scanner.stream = some s → f (v.stream s) = ((f s).1, v.stream (f s).2)) :
    v.Commutes (Op.onStream f) r := by
  unfold Commutes Op.onStream Op.onScanner Scanner.onStream
  cases hs : r.scanner.stream with
  | none => simp [result, veiled, scanner, hs]
  | some s => simp [result, veiled, scanner, hs, h s hs]

lemma commutes_changeStream {f : Stream → Stream}
    (h : ∀ s, r.scanner.stream = some s → f (v.stream s) = v.stream (f s)) :
    v.Commutes (Op.changeStream f) r :=
  commutes_onStream fun s hs => by rw [h s hs]

lemma position_veiled (hv : v.Lawful) (r : Run) : (v.veiled r).position = r.position := by
  unfold position
  rw [show (v.veiled r).scanner = v.scanner r.scanner from rfl, scanner]
  cases hs : r.scanner.stream <;> simp [Scanner.position?, hs, hv.position]

lemma commutes_onScanner (hstream : ∀ s, v.stream s = s) (x : Attempt Scanner.Error Scanner α) :
    v.Commutes (Op.onScanner x) r := by
  have hid (s : Scanner) : v.scanner s = s := by
    obtain ⟨_ | stream, _, _, _, _⟩ := s
    · rfl
    · rw [scanner, Option.map_some, hstream]
  unfold Commutes Op.onScanner
  rw [show (v.veiled r).scanner = v.scanner r.scanner from rfl, hid]
  rcases x r.scanner with ⟨a, s⟩ | ⟨_ | _, s⟩ <;>
    simp only [result, veiled, hid, id_eq]

/-! ## Acquiring -/

lemma commutes_tookInput : v.Commutes tookInput r :=
  commutes_get rfl (commutes_ite
    (fun _ => commutes_seq (commutes_write _) fun _ _ => commutes_modify rfl)
    fun _ => commutes_pure _)

lemma commutes_takeToken (hv : v.Lawful) (region : RegionId) (element : ElementId) {length : Nat}
    (hextract : v.Commutes (onStream (·.extract length)) r) :
    v.Commutes (takeToken m region element length) r := by
  refine commutes_get (by simp only [position_veiled hv]) (commutes_seq hextract fun text s =>
    commutes_seq commutes_tookInput fun _ s => commutes_ite (fun _ => ?_) fun _ =>
    commutes_seq (commutes_alloc _) fun id s => commutes_seq (commutes_tell hv rfl) fun _ s =>
    commutes_ite (fun _ => ?_) fun _ => ?_)
  · exact commutes_seq (commutes_write _) fun _ _ => commutes_seq (commutes_modify rfl) fun _ _ =>
      commutes_pure _
  · exact commutes_seq (commutes_setAside _) fun _ _ => commutes_seq (commutes_write _) fun _ _ =>
      commutes_pure _
  · exact commutes_seq (commutes_putBack _) fun _ _ => commutes_seq (commutes_write _) fun _ _ =>
      commutes_pure _

lemma commutes_takeTree (hv : v.Lawful) (region : RegionId) (id : NodeId) (ignore : Bool) :
    v.Commutes (takeTree region id ignore) r := by
  refine commutes_seq (commutes_changeStream fun s _ => ?_) fun _ s =>
    commutes_seq commutes_tookInput fun _ s => commutes_seq (commutes_write _) fun _ s =>
    commutes_seq (commutes_node _) fun n s => commutes_seq (commutes_tell hv rfl) fun _ s =>
    commutes_ite (fun _ => ?_) fun _ => ?_
  · rw [hv.takeTree]
    rcases s.takeTree? with _ | ⟨tree, rest⟩ <;> rfl
  · exact commutes_seq (commutes_setAside _) fun _ _ => commutes_pure _
  · exact commutes_seq (commutes_putBack _) fun _ _ => commutes_pure _

lemma commutes_meetEnd (hv : v.Lawful) (region : RegionId) :
    v.Commutes (meetEnd m region) r := by
  refine commutes_get ?_ (commutes_ite (fun _ => ?_) fun _ => ?_)
  · simp only [position_veiled hv]
    rfl
  · exact commutes_seq (commutes_write _) fun _ _ => commutes_seq (commutes_modify rfl) fun _ _ =>
      commutes_pure _
  · exact commutes_seq (commutes_alloc _) fun _ _ => commutes_seq (commutes_tell hv rfl) fun _ _ =>
      commutes_seq (commutes_putBack _) fun _ _ => commutes_seq (commutes_write _) fun _ _ =>
      commutes_pure _

/-- Under the veil a scan finds the same, and a token found can be taken. -/
structure Scans (v : Veil) (m : Machine) (I : Run → Prop) : Prop where
  scan : ∀ r region, I r → v.Commutes (scan m region) r
  found : ∀ r region outcome s, I r → Op.scan m region r = .ok outcome s → I s ∧
    ∀ element length, outcome = .token element length → v.Commutes (onStream (·.extract length)) s

variable {I : Run → Prop}

lemma commutes_acquireIn (hv : v.Lawful) (hscans : Scans v m I) (hr : I r) (first : RegionId)
    (regions : List RegionId) : v.Commutes (acquireIn m first regions) r := by
  induction regions generalizing r with
  | nil => exact commutes_pure _
  | cons region regions ih =>
    refine commutes_bind (hscans.scan r region hr) fun outcome s hscan => ?_
    obtain ⟨hs, hfound⟩ := hscans.found r region outcome s hr hscan
    cases outcome with
    | noToken => exact ih hs
    | eof => exact commutes_meetEnd hv region
    | tree id ignore => exact commutes_takeTree hv region id ignore
    | token element length => exact commutes_takeToken hv region element (hfound element length rfl)

lemma commutes_acquire (hv : v.Lawful) (hscans : Scans v m I) (hr : I r) :
    v.Commutes (acquire m) r :=
  commutes_get rfl (commutes_bind (commutes_lookup _) fun _ s hlookup => by
    obtain ⟨-, rfl⟩ := lookup_eq_ok.1 hlookup
    exact commutes_acquireIn hv hscans hr _ _)

/-! ## Shifting and reducing -/

lemma commutes_shift (id : NodeId) (target : StateId) (alternative : Nat) (more : Bool) :
    v.Commutes (shift m id target alternative more) r := by
  refine commutes_seq (commutes_takeFront _) fun _ s => commutes_seq (commutes_node _) fun _ s =>
    commutes_get rfl (commutes_get rfl (commutes_get rfl
      (commutes_ite (fun _ => ?_) fun _ => ?_)))
  · exact commutes_seq (commutes_modify rfl) fun _ _ =>
      commutes_seq (commutes_change _ _) fun _ _ =>
      commutes_seq (commutes_change _ _) fun _ _ => commutes_seq (commutes_modify rfl) fun _ _ =>
      commutes_seq (commutes_write _) fun _ _ => commutes_modify rfl
  · exact commutes_seq (commutes_change _ _) fun _ _ =>
      commutes_seq (commutes_modify rfl) fun _ _ =>
      commutes_seq (commutes_write _) fun _ _ => commutes_modify rfl

lemma commutes_linkSiblings (ids : List NodeId) : v.Commutes (linkSiblings ids) r := by
  induction ids generalizing r with
  | nil => exact commutes_pure _
  | cons id ids ih => exact commutes_seq (commutes_change _ _) fun _ _ => ih

lemma commutes_reduce (production : ProductionId) (alternative : Nat) (more commits : Bool) :
    v.Commutes (reduce m production alternative more commits) r := by
  refine commutes_seq (commutes_lookup _) fun info s => commutes_get rfl (commutes_get rfl
    (commutes_get rfl (commutes_seq (commutes_lookup _) fun found s => ?_)))
  cases found with
  | error found => exact commutes_fail _
  | ok found =>
    refine commutes_get rfl (commutes_seq (commutes_lookup _) fun _ s =>
      commutes_seq (commutes_alloc _) fun _ s => commutes_seq (commutes_linkSiblings _) fun _ s =>
      commutes_get rfl (commutes_seq (commutes_lookup _) fun _ s =>
      commutes_seq (commutes_modify rfl) fun _ s => commutes_seq (commutes_putFront _) fun _ s =>
      commutes_seq (commutes_write _) fun _ s => commutes_ite (fun _ => ?_)
        fun _ => commutes_pure _))
    exact commutes_seq (commutes_modify rfl) fun _ _ => commutes_pure _

lemma commutes_act (id : NodeId) (decision : Grammar.Decision) (target : StateId)
    (commits : Bool) : v.Commutes (act m id decision target commits) r := by
  unfold act
  cases decision.action with
  | shift => exact commutes_seq (commutes_shift ..) fun _ _ => commutes_pure _
  | reduce production => exact commutes_reduce ..
  | shiftReduce production => exact commutes_seq (commutes_shift ..) fun _ _ => commutes_reduce ..

lemma commutes_turnBack (hv : v.Lawful) (e : Error) : v.Commutes (turnBack e) r := by
  refine commutes_seq (commutes_tell hv rfl) fun _ s => commutes_get rfl
    (commutes_ite (fun _ => commutes_modify rfl) fun _ => ?_)
  exact commutes_seq (commutes_modify rfl) fun _ _ => commutes_fail _

/-! ## Going forward -/

/-- What a reduction gives back is no pause. -/
lemma answers_of_commutes {op : Op (Option Status)} (h : v.Commutes op r)
    (hanswer : ∀ a s, op r = .ok a s → v.answer a = a) : v.Answers op r := by
  rw [Commutes] at h
  rw [Answers, h]
  cases hrun : op r with
  | ok a s => rw [result, result, hanswer a s hrun]; rfl
  | error e s => rfl

/-- Under the veil a step ends as it does without. -/
def Ends (v : Veil) (m : Machine) : Prop :=
  ∀ r, v.Answers (endStep m) r

lemma answers_completeStep (hends : v.Ends m) (commits : Bool) :
    v.Answers (completeStep m commits) r := by
  have hclosed : closed commits (v.veiled r) = v.veiled (closed commits r) := by
    cases commits <;> rfl
  rw [Answers, completeStep_eq, completeStep_eq, hclosed]
  exact hends _

lemma isPause_of_asks {status : Status} (h : status.asks = true) : status.isPause = false := by
  cases status <;> first | rfl | cases h

lemma answers_step (hv : v.Lawful) (hends : v.Ends m) (id : NodeId) :
    v.Answers (step m id) r := by
  refine answers_bind (commutes_node id) fun n s _ => answers_get rfl
    (answers_bind (commutes_lookup _) fun found s _ => ?_)
  cases found with
  | none =>
    refine answers_bind (commutes_turnBack hv _) fun _ s _ => ?_
    exact answers_of_commutes (commutes_pure _) fun _ _ h => by cases h; exact hv.onward
  | some decision =>
    refine answers_bind (commutes_tell hv rfl) fun _ s _ => answers_bind (commutes_modify rfl)
      fun _ s _ => answers_bind (commutes_lookup _) fun _ s _ => answers_bind (commutes_lookup _)
      fun _ s _ => answers_bind (commutes_act ..) fun a s hact => ?_
    cases a with
    | none => exact answers_completeStep hends _
    | some status =>
      refine answers_of_commutes (commutes_pure _) fun _ _ h => ?_
      cases h
      exact hv.answer status (isPause_of_asks (asks_act _ _ _ _ _ hact status rfl))

lemma answers_goForward (hv : v.Lawful) (hscans : Scans v m I) (hends : v.Ends m) (hr : I r) :
    v.Answers (goForward m) r := by
  refine answers_get rfl ?_
  cases r.queue with
  | cons id rest => exact answers_step hv hends id
  | nil =>
    refine answers_bind (commutes_acquire hv hscans hr) fun found s hfound => ?_
    cases found with
    | queued => exact answers_of_commutes (commutes_pure _) fun _ _ h => by cases h; exact hv.onward
    | skipped =>
      exact answers_of_commutes (commutes_pure _) fun _ _ h => by cases h; exact hv.onward
    | suspended status =>
      refine answers_of_commutes (commutes_pure _) fun _ _ h => ?_
      cases h
      exact hv.answer status (isPause_of_asks (asks_acquire m hfound status rfl status rfl))
    | noToken region =>
      refine answers_get (by simp only [position_veiled hv]) (answers_bind (commutes_turnBack hv _)
        fun _ s _ => answers_of_commutes (commutes_pure _) fun _ _ h => by cases h; exact hv.onward)

/-! ## Taking back -/

lemma commutes_unscan (hv : v.Lawful) (id : NodeId) (start : Position) :
    v.Commutes (unscan id start) r := by
  refine commutes_seq (commutes_release id) fun found s => ?_
  cases found <;> exact commutes_changeStream fun s _ => hv.putBack ..

lemma commutes_restack (ids : List NodeId) : v.Commutes (restack ids) r := by
  induction ids generalizing r with
  | nil => exact commutes_pure _
  | cons id ids ih =>
    exact commutes_get rfl (commutes_seq (commutes_change _ _) fun _ _ =>
      commutes_seq (commutes_modify rfl) fun _ _ => ih)

lemma commutes_takeBackDecision (alternative : Nat) (more : Bool) :
    v.Commutes (takeBackDecision alternative more) r :=
  commutes_ite (fun _ => commutes_seq (commutes_modify rfl) fun _ _ => commutes_pure _)
    fun _ => commutes_pure _

/-- What was pushed is removed under the veil as it is without. -/
def Removes (v : Veil) (record : Record) (r : Run) : Prop :=
  ∀ n, record.removes? = some n → v.Commutes (changeStream fun s => (s.pushback n).2) r

/-- Taking a record back commutes with the veil if removing what was pushed does. -/
lemma commutes_undo (hv : v.Lawful) {record : Record} (hremoves : v.Removes record r) :
    v.Commutes (undo record) r := by
  cases record with
  | scanned id start =>
    exact commutes_seq (commutes_takeBack id) fun _ _ =>
      commutes_seq (commutes_unscan hv id start) fun _ _ => commutes_pure _
  | setAside id start =>
    exact commutes_seq (commutes_node id) fun _ _ => commutes_seq (commutes_modify rfl) fun _ _ =>
      commutes_seq (commutes_unscan hv id start) fun _ _ => commutes_pure _
  | treeTaken id ignore =>
    cases ignore with
    | true =>
      exact commutes_seq (commutes_node id) fun _ _ => commutes_seq (commutes_modify rfl) fun _ _ =>
        commutes_seq (commutes_change _ _) fun _ _ =>
        commutes_seq (commutes_changeStream fun s _ => hv.pushTree ..) fun _ _ => commutes_pure _
    | false =>
      exact commutes_seq (commutes_takeBack id) fun _ _ =>
        commutes_seq (commutes_changeStream fun s _ => hv.pushTree ..) fun _ _ => commutes_pure _
  | consumed text start =>
    exact commutes_seq (commutes_changeStream fun s _ => hv.putBack ..) fun _ _ => commutes_pure _
  | sent id =>
    exact commutes_seq (commutes_takeBack id) fun _ _ =>
      commutes_seq (commutes_releaseTree id) fun _ _ => commutes_pure _
  | textPushed count => exact commutes_seq (hremoves count rfl) fun _ _ => commutes_pure _
  | treePushed id =>
    exact commutes_seq (hremoves 1 rfl) fun _ _ => commutes_seq (commutes_release id) fun _ _ =>
      commutes_pure _
  | shifted id previous ignored alternative more =>
    refine commutes_seq (commutes_node id) fun _ _ => commutes_seq (commutes_modify rfl) fun _ _ =>
      commutes_seq (commutes_change _ _) fun _ _ => commutes_ite (fun _ => ?_) fun _ => ?_
    · exact commutes_seq (commutes_change _ _) fun _ _ => commutes_seq (commutes_modify rfl)
        fun _ _ => commutes_seq (commutes_putFront _) fun _ _ => commutes_seq (commutes_modify rfl)
        fun _ _ => commutes_takeBackDecision ..
    · exact commutes_seq (commutes_putFront _) fun _ _ => commutes_seq (commutes_modify rfl)
        fun _ _ => commutes_takeBackDecision ..
  | reduced tree previous alternative more =>
    exact commutes_seq (commutes_takeFront tree) fun _ _ => commutes_get rfl
      (commutes_seq (commutes_lookup _) fun _ _ => commutes_seq (commutes_restack _) fun _ _ =>
        commutes_seq (commutes_release tree) fun _ _ => commutes_seq (commutes_modify rfl)
        fun _ _ => commutes_takeBackDecision ..)
  | action data => exact commutes_pure _
  | _ => exact commutes_seq (commutes_modify rfl) fun _ _ => commutes_pure _

/-- All that the records pushed can be removed under the veil, one after the other. -/
structure Unwinds (v : Veil) (K : List Record → Run → Prop) : Prop where
  removes : ∀ record older r, K (record :: older) r → v.Removes record (begun record older r)
  undone : ∀ record older r a s, K (record :: older) r →
    undo record (begun record older r) = .ok a s → K older s

lemma answers_some {x : Op Status} (hx : v.Commutes x r)
    (hanswer : ∀ a s, x r = .ok a s → v.answer (some a) = some a) :
    v.Answers (do return some (← x)) r :=
  answers_bind hx fun a s hrun => answers_of_commutes (commutes_pure _) fun _ _ h => by
    cases h
    exact hanswer a s hrun

lemma answers_settle (hv : v.Lawful) : v.Answers (do return some (← settle m)) r := by
  refine answers_some (commutes_get rfl (commutes_seq (commutes_lookup _) fun _ _ =>
    commutes_seq (commutes_modify rfl) fun _ _ => commutes_get rfl (commutes_pure _))) ?_
  intro a s h
  rw [settle, get_bind] at h
  obtain ⟨_, _, -, h1⟩ := bind_eq_ok.1 h
  cases h1
  exact hv.answer _ rfl

theorem answers_unwind {K : List Record → Run → Prop} (hv : v.Lawful) (hunwinds : v.Unwinds K)
    {records : List Record} (hr : K records r) (goal : Goal) :
    v.Answers (unwind m goal records) r := by
  induction records generalizing r with
  | nil =>
    rw [unwind]
    refine answers_get rfl ?_
    split
    · exact answers_settle hv
    · exact answers_of_commutes (commutes_get rfl (commutes_fail _)) fun _ _ h => by cases h
  | cons record older ih =>
    rw [unwind]
    refine answers_get rfl ?_
    split
    · exact answers_settle hv
    · refine answers_bind (commutes_modify rfl) fun _ s hs => answers_bind (commutes_tell hv rfl)
        fun _ t ht => ?_
      cases hs
      cases ht
      refine answers_bind (commutes_undo hv (hunwinds.removes record older r hr))
        fun taken u hundo => ?_
      have hu : K older u := hunwinds.undone record older r taken u hr hundo
      cases taken with
      | action data =>
        exact answers_of_commutes (commutes_pure _) fun _ _ h => by cases h; exact hv.answer _ rfl
      | plain => cases goal <;> exact ih hu
      | decision alternative =>
        cases goal with
        | step target => exact ih hu
        | backtrack =>
          exact answers_of_commutes (commutes_seq (commutes_modify rfl) fun _ _ => commutes_pure _)
            fun _ _ h => by cases h; exact hv.onward

/-! ## Turns and entries -/

lemma answers_turn {K : List Record → Run → Prop} (hv : v.Lawful) (hscans : Scans v m I)
    (hends : v.Ends m) (hunwinds : v.Unwinds K) (hr : I r) (hlog : K r.log.records r) :
    v.Answers (turn m) r := by
  refine answers_get rfl ?_
  cases r.point with
  | start => exact answers_goForward hv hscans hends hr
  | reverse goal => exact answers_unwind hv hunwinds hlog goal
  | done =>
    exact answers_of_commutes (commutes_pure _) fun _ _ h => by cases h; exact hv.answer _ rfl
  | _ => exact answers_of_commutes (commutes_fail _) fun _ _ h => by cases h

lemma commutes_frontSpan : v.Commutes frontSpan r := by
  refine commutes_get rfl ?_
  cases r.queue with
  | nil => exact commutes_pure _
  | cons id rest => exact commutes_seq (commutes_node id) fun _ _ => commutes_pure _

lemma answers_resumeReduction (hv : v.Lawful) (hends : v.Ends m) (production : ProductionId)
    (commits : Bool) : v.Answers (resumeReduction m production commits) r := by
  refine answers_bind (commutes_modify rfl) fun _ s _ => answers_get rfl ?_
  split
  · exact answers_of_commutes (commutes_seq (commutes_modify rfl) fun _ _ =>
      commutes_seq commutes_frontSpan fun _ _ => commutes_seq (commutes_turnBack hv _) fun _ _ =>
      commutes_pure _) fun a t h => by
        obtain ⟨_, _, -, h1⟩ := bind_eq_ok.1 h
        obtain ⟨_, _, -, h2⟩ := bind_eq_ok.1 h1
        obtain ⟨_, _, -, h3⟩ := bind_eq_ok.1 h2
        cases h3
        exact hv.onward
  · exact answers_completeStep hends commits

lemma answers_enter (hv : v.Lawful) (hends : v.Ends m) (entry : Entry) :
    v.Answers (enter m entry) r := by
  have hnone {q : Run} : v.Answers (pure none) q :=
    answers_of_commutes (commutes_pure _) fun _ _ h => by cases h; exact hv.onward
  have hdone {q : Run} : v.Answers (pure (some .done)) q :=
    answers_of_commutes (commutes_pure _) fun _ _ h => by cases h; exact hv.answer _ rfl
  have hfail {e : Error} {q : Run} : v.Answers (Op.fail e) q :=
    answers_of_commutes (commutes_fail _) fun _ _ h => by cases h
  refine answers_get rfl ?_
  cases r.point with
  | reduction production commits =>
    cases entry with
    | reduction => exact answers_ite (fun _ => hfail) fun _ =>
        answers_resumeReduction hv hends production commits
    | _ => exact answers_ite (fun _ => hfail) fun _ => hfail
  | _ =>
    cases entry <;> first
      | exact hnone
      | exact hdone
      | exact answers_ite (fun _ => hfail) fun _ => hnone
      | exact answers_ite (fun _ => hfail) fun _ => hfail
      | exact answers_ite (fun _ => hfail) fun _ =>
          answers_bind (commutes_modify rfl) fun _ _ _ => hnone

/-! ## Parsing and undoing -/

lemma commutes_unlessAborted (hv : v.Lawful) {op : Op Status} (h : v.Commutes op r)
    (htold : ∀ status s, op r = .ok status s →
      v.events (.suspended status :: s.events) = .suspended status :: v.events s.events) :
    v.Commutes (unlessAborted op) r := by
  rw [Commutes] at h
  unfold Commutes unlessAborted
  rw [show (v.veiled r).aborted = r.aborted from rfl, h]
  cases r.aborted with
  | true => rfl
  | false =>
    simp only [Bool.false_eq_true, if_false]
    cases hop : op r with
    | ok status s =>
      rw [result, veiled, result, veiled, htold status s hop]
      rfl
    | error e s =>
      cases e with
      | fault f => rfl
      | error e =>
        simp only [result]
        cases e.isFatal with
        | true =>
          have htold : v.veiled { s with aborted := true, events := .failed e :: s.events } =
              { v.veiled s with aborted := true, events := .failed e :: v.events s.events } := by
            rw [← hv.events (.failed e) s.events rfl]
            rfl
          rw [if_pos rfl, if_pos rfl]
          exact congrArg (EStateM.Result.error _) htold.symm
        | false => rfl

lemma commutes_goBack {target : Nat}
    (h : v.Commutes (takeTurns m 1) { r with point := .reverse (.step target) }) :
    v.Commutes (goBack m target) r := by
  refine commutes_get rfl (commutes_ite (fun _ => commutes_fail _) fun _ => ?_)
  cases r.point with
  | reverse goal => exact commutes_fail _
  | _ => exact h

end Veil

end Rewind.Run
