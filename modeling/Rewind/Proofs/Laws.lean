import Mathlib.Tactic.Lemma
import Rewind.Proofs.Attempt
import Rewind.Run.Caller
import Rewind.Run.Parse

/-!
# Laws of operations

A `Law` says what may become of a run: how an operation may leave it, with which errors, and with
which faults.  If a law composes, an operation obeys it as soon as its parts do, and so which laws
an operation obeys is read off its text.  This is done here once: each operation obeys every law
that allows the small changes which it is made of.
-/

namespace Rewind

/-! ## Lookups -/

/-- Whether the fault is of a link between nodes. -/
def Fault.ofLinks : Fault → Bool
  | deadSlot _ | endless _ => true
  | outOfRange _ _ | unfinished => false

/-- A lookup that meets no faults but these. -/
def Meets {α : Type} (P : Fault → Prop) (x : Except Fault α) : Prop :=
  ∀ f, x = .error f → P f

/-- A lookup among nodes meets faults of links only. -/
abbrev OfLinks {α : Type} (x : Except Fault α) : Prop :=
  Meets (fun f => f.ofLinks = true) x

namespace Meets

variable {α β : Type} {P Q : Fault → Prop}

lemma of_ok {x : Except Fault α} {a : α} (h : x = .ok a) : Meets P x := by
  rintro f hf
  cases h.symm.trans hf

lemma ok (a : α) : Meets P (.ok a : Except Fault α) := of_ok rfl

lemma error {f : Fault} (h : P f) : Meets P (.error f : Except Fault α) := by
  rintro _ ⟨⟩
  exact h

lemma mono {x : Except Fault α} (h : Meets P x) (hPQ : ∀ f, P f → Q f) : Meets Q x :=
  fun f hf => hPQ f (h f hf)

lemma bind {x : Except Fault α} {g : α → Except Fault β} (hx : Meets P x)
    (hg : ∀ a, Meets P (g a)) : Meets P (x >>= g) := by
  cases x with
  | ok a => exact hg a
  | error f =>
    rintro _ ⟨⟩
    exact hx f rfl

lemma foldlM {g : β → α → Except Fault β} (hg : ∀ b a, Meets P (g b a)) (as : List α) (b : β) :
    Meets P (as.foldlM g b) := by
  induction as generalizing b with
  | nil => exact ok b
  | cons a as ih => exact (hg b a).bind ih

end Meets

namespace OfLinks

variable {α : Type}

lemma read (p : Pool α) (id : SlotId) : OfLinks (p.read id) := by
  unfold Pool.read
  split
  · exact .ok _
  · exact .error rfl

lemma chain (f : Forest) (head : Option NodeId) : OfLinks (f.chain head) := by
  unfold Forest.chain Forest.walk
  generalize f.pathBound = fuel
  induction fuel generalizing head with
  | zero =>
    cases head with
    | none => exact .ok _
    | some id => exact .error rfl
  | succ fuel ih =>
    cases head with
    | none => exact .ok _
    | some id => exact (read f id).bind fun n => (Meets.ok id).bind fun _ =>
        (ih n.next).bind fun _ => .ok _

lemma children (f : Forest) (id : NodeId) : OfLinks (f.children id) :=
  (read f id).bind fun _ => chain f _

lemma freeAll (f : Forest) (ids : List NodeId) : OfLinks (f.freeAll ids) := by
  fun_induction Forest.freeAll f ids with
  | case1 f => exact .ok _
  | case2 f id pending hdead ih => exact ih
  | case3 f id pending n hn g ih =>
    exact (chain g n.child).bind fun children => (chain g n.ignored).bind fun ignored =>
      ih children ignored

lemma releaseChain (f : Forest) (head : NodeId) : OfLinks (Run.releaseChain f head) :=
  (chain f (some head)).bind fun ids => .foldlM (fun f id => freeAll f [id]) ids f

lemma unstack (f : Forest) (needed : Nat) (top : Option NodeId) (taken : List NodeId) :
    OfLinks (Run.unstack f needed top taken) := by
  induction needed generalizing top taken with
  | zero => exact .ok _
  | succ needed ih =>
    cases top with
    | none => exact .ok _
    | some id => exact (read f id).bind fun n => ih n.next _

lemma spanOf (f : Forest) (ids : List NodeId) : OfLinks (Run.spanOf f ids) :=
  .foldlM (fun _ id => (read f id).bind fun _ => .ok _) _ _

lemma stateOf (m : Machine) (f : Forest) (top : Option NodeId) : OfLinks (Run.stateOf m f top) := by
  cases top with
  | none => exact .ok _
  | some top => exact (read f top).bind fun _ => .ok _

lemma atEnd (m : Machine) (r : Run) : OfLinks (Run.atEnd m r) := by
  unfold Run.atEnd
  split
  · exact .ok _
  · exact (read _ _).bind fun _ => .ok _

end OfLinks

namespace Run

open Attempt Op

/-! ## Laws -/

/-- What may become of a run. -/
structure Law where
  /-- An operation succeeds, and leaves the second run of the first. -/
  ok : Run → Run → Prop
  /-- An operation reports an error, and leaves the second run of the first. -/
  error : Run → Error → Run → Prop
  /-- An operation meets a fault, with the second run of the first. -/
  fault : Run → Fault → Run → Prop

/-- What the operation makes of the run is within the law. -/
structure Obeys (L : Law) {α : Type} (op : Op α) (r : Run) : Prop where
  ok : ∀ ⦃a s⦄, op r = .ok a s → L.ok r s
  error : ∀ ⦃e s⦄, op r = .error (.error e) s → L.error r e s
  fault : ∀ ⦃f s⦄, op r = .error (.fault f) s → L.fault r f s

/-- What the operation makes of any run is within the law. -/
def Law.Governs (L : Law) {α : Type} (op : Op α) : Prop :=
  ∀ r, Obeys L op r

/-- What two operations make of a run, one after the other, is within the law if both are. -/
class Law.Composes (L : Law) : Prop where
  refl : ∀ r, L.ok r r
  ok : ∀ ⦃r s t⦄, L.ok r s → L.ok s t → L.ok r t
  error : ∀ ⦃r s t e⦄, L.ok r s → L.error s e t → L.error r e t
  fault : ∀ ⦃r s t f⦄, L.ok r s → L.fault s f t → L.fault r f t

variable {L : Law} {α β : Type} {r s : Run}

namespace Obeys

lemma of_ok {op : Op α} {a : α} (h : op r = .ok a s) (hs : L.ok r s) : Obeys L op r := by
  refine ⟨fun b t hrun => ?_, fun e t hrun => ?_, fun f t hrun => ?_⟩ <;> cases h.symm.trans hrun
  exact hs

lemma of_error {op : Op α} {e : Error} (h : op r = .error (.error e) s) (hs : L.error r e s) :
    Obeys L op r := by
  refine ⟨fun b t hrun => ?_, fun e t hrun => ?_, fun f t hrun => ?_⟩ <;> cases h.symm.trans hrun
  exact hs

lemma of_fault {op : Op α} {f : Fault} (h : op r = .error (.fault f) s) (hs : L.fault r f s) :
    Obeys L op r := by
  refine ⟨fun b t hrun => ?_, fun e t hrun => ?_, fun f t hrun => ?_⟩ <;> cases h.symm.trans hrun
  exact hs

lemma bind [L.Composes] {x : Op α} {f : α → Op β} (hx : Obeys L x r)
    (hf : ∀ a s, x r = .ok a s → Obeys L (f a) s) : Obeys L (x >>= f) r := by
  refine ⟨fun b u h => ?_, fun e u h => ?_, fun e u h => ?_⟩
  · obtain ⟨a, t, hrun, h1⟩ := bind_eq_ok.1 h
    exact Law.Composes.ok (hx.ok hrun) ((hf a t hrun).ok h1)
  · rcases bind_eq_error.1 h with hrun | ⟨a, t, hrun, h1⟩
    · exact hx.error hrun
    · exact Law.Composes.error (hx.ok hrun) ((hf a t hrun).error h1)
  · rcases bind_eq_error.1 h with hrun | ⟨a, t, hrun, h1⟩
    · exact hx.fault hrun
    · exact Law.Composes.fault (hx.ok hrun) ((hf a t hrun).fault h1)

/-- An operation in front of one that may begin anywhere. -/
lemma seq [L.Composes] {x : Op α} {f : α → Op β} (hx : Obeys L x r) (hf : ∀ a, L.Governs (f a)) :
    Obeys L (x >>= f) r :=
  hx.bind fun a s _ => hf a s

lemma ite {p : Prop} [Decidable p] {x y : Op α} (hx : p → Obeys L x r) (hy : ¬p → Obeys L y r) :
    Obeys L (if p then x else y) r := by
  split
  · exact hx ‹_›
  · exact hy ‹_›

lemma lookup [L.Composes] {x : Except Fault α} (hx : Meets (fun f => L.fault r f r) x) :
    Obeys L (Op.lookup x) r := by
  cases x with
  | ok a => exact .of_ok rfl (Law.Composes.refl r)
  | error f => exact .of_fault rfl (hx f rfl)

end Obeys

namespace Law.Governs

lemma bind [L.Composes] {x : Op α} {f : α → Op β} (hx : L.Governs x)
    (hf : ∀ a, L.Governs (f a)) : L.Governs (x >>= f) :=
  fun r => (hx r).seq hf

/-- An operation that begins with a look at the run. -/
lemma look {f : Run → Op β} (h : ∀ q, L.Governs (f q)) : L.Governs (MonadState.get >>= f) :=
  fun r => ⟨fun _ _ hrun => (h r r).ok hrun, fun _ _ hrun => (h r r).error hrun,
    fun _ _ hrun => (h r r).fault hrun⟩

lemma ite {p : Prop} [Decidable p] {x y : Op α} (hx : L.Governs x) (hy : L.Governs y) :
    L.Governs (if p then x else y) :=
  fun r => .ite (fun _ => hx r) fun _ => hy r

lemma pure [L.Composes] (a : α) : L.Governs (pure a) :=
  fun r => .of_ok rfl (Composes.refl r)

lemma get [L.Composes] : L.Governs get :=
  fun r => .of_ok rfl (Composes.refl r)

lemma modify {f : Run → Run} (h : ∀ r, L.ok r (f r)) : L.Governs (modify f) :=
  fun r => .of_ok rfl (h r)

lemma fail {e : Error} (h : ∀ r, L.error r e r) : L.Governs (Op.fail e : Op α) :=
  fun r => .of_error rfl (h r)

lemma lookup [L.Composes] {x : Except Fault α} (hx : ∀ r, Meets (fun f => L.fault r f r) x) :
    L.Governs (Op.lookup x) :=
  fun r => .lookup (hx r)

/-- Whatever is done with the scanner, nothing else changes. -/
lemma onScanner (hok : ∀ r scanner, L.ok r { r with scanner })
    (herror : ∀ r e scanner, L.error r (.scan e) { r with scanner })
    (hfault : ∀ r f scanner, L.fault r f { r with scanner })
    (x : Attempt Scanner.Error Scanner α) : L.Governs (Op.onScanner x) := by
  intro r
  rcases hx : x r.scanner with ⟨a, scanner⟩ | ⟨e | f, scanner⟩
  · exact .of_ok (by unfold Op.onScanner; rw [hx]) (hok r scanner)
  · exact .of_error (by unfold Op.onScanner; rw [hx]) (herror r e scanner)
  · exact .of_fault (by unfold Op.onScanner; rw [hx]) (hfault r f scanner)

end Law.Governs

namespace Law

/-! ## Small operations -/

/-- A law that allows to tell events. -/
structure Tells (L : Law) : Prop where
  events : ∀ r events, L.ok r { r with events }

/-- A law that allows to write down some records. -/
structure Writes (L : Law) (kind : Record → Bool) : Prop where
  record : ∀ ⦃record⦄, kind record = true → ∀ r, L.ok r { r with log := r.log.append record }

lemma Tells.tell (h : L.Tells) (event : Event) : L.Governs (Op.tell event) :=
  .modify fun r => h.events r _

lemma Writes.write {kind : Record → Bool} {record : Record} (h : L.Writes kind)
    (hkind : kind record = true) : L.Governs (Op.write record) :=
  .modify (h.record hkind)

/-- A law that allows to change and to release nodes. -/
structure Edits (L : Law) : Prop where
  forest : ∀ r forest, L.ok r { r with forest }
  links : ∀ r f, f.ofLinks = true → L.fault r f r

namespace Edits

variable (h : L.Edits)

include h

lemma lookup [L.Composes] {x : Except Fault α} (hx : OfLinks x) : L.Governs (Op.lookup x) :=
  .lookup fun r => hx.mono (h.links r)

lemma node [L.Composes] (id : NodeId) : L.Governs (Op.node id) :=
  .look fun q => h.lookup (.read q.forest id)

lemma change (id : NodeId) (f : Node → Node) : L.Governs (Op.change id f) := by
  intro r
  cases hn : Pool.get? r.forest id with
  | some n => exact .of_ok (change_ok hn) (h.forest r _)
  | none => exact .of_fault (by unfold Op.change; rw [hn]) (h.links r _ rfl)

lemma release [L.Composes] (id : NodeId) : L.Governs (Op.release id) := by
  intro r
  cases hn : Pool.get? r.forest id with
  | some n => exact .of_ok (release_ok hn) (h.forest r _)
  | none => exact .of_ok (by unfold Op.release; rw [hn]) (Composes.refl r)

lemma releaseTree (id : NodeId) : L.Governs (Op.releaseTree id) := by
  intro r
  cases hfree : Forest.freeTree r.forest id with
  | ok forest => exact .of_ok (by unfold Op.releaseTree; rw [hfree]) (h.forest r forest)
  | error f =>
    exact .of_fault (by unfold Op.releaseTree; rw [hfree])
      (h.links r f (OfLinks.freeAll r.forest [id] f hfree))

lemma linkSiblings [L.Composes] (ids : List NodeId) : L.Governs (Run.linkSiblings ids) := by
  induction ids with
  | nil => exact .pure _
  | cons id rest ih => exact (h.change _ _).bind fun _ => ih

/-- The extent of the lookahead is looked up. -/
lemma frontSpan [L.Composes] : L.Governs Run.frontSpan := by
  refine .look fun q => ?_
  cases q.queue with
  | nil => exact .pure _
  | cons tree rest => exact (h.node tree).bind fun _ => .pure _

end Edits

/-- A law that also allows to make nodes, for which there may be no slot. -/
structure Makes (L : Law) : Prop extends L.Edits where
  full : ∀ r e, L.error r (.alloc e) r

lemma Makes.alloc (h : L.Makes) (n : Node) : L.Governs (Op.alloc n) := by
  intro r
  rcases halloc : Pool.alloc r.forest n with ⟨e | id, forest⟩
  · have hrun : Op.alloc n r = .error (.error (.alloc e)) { r with forest } := by
      unfold Op.alloc
      rw [halloc]
    refine .of_error hrun ?_
    have hforest : ({ r with forest } : Run) = r := by
      unfold Pool.alloc at halloc
      split at halloc <;> cases halloc
      rfl
    rw [hforest]
    exact h.full r e
  · exact .of_ok (alloc_eq_ok.2 ⟨forest, halloc, rfl⟩) (h.forest r forest)

/-- A law that allows to change the lookahead, which may not be what it should. -/
structure Queues (L : Law) : Prop where
  queue : ∀ r queue, L.ok r { r with queue }
  mismatch : ∀ r id found, L.error r (.misuse (.queueMismatch id found)) r

namespace Queues

variable (h : L.Queues)

include h

lemma putBack (id : NodeId) : L.Governs (Op.putBack id) :=
  .modify fun r => h.queue r _

lemma putFront (id : NodeId) : L.Governs (Op.putFront id) :=
  .modify fun r => h.queue r _

lemma takeFront (id : NodeId) : L.Governs (Op.takeFront id) :=
  .look fun _ => .ite (.modify fun r => h.queue r _) (.fail fun r => h.mismatch r _ _)

lemma takeBack (id : NodeId) : L.Governs (Op.takeBack id) :=
  .look fun _ => .ite (.modify fun r => h.queue r _) (.fail fun r => h.mismatch r _ _)

end Queues

/-- A law that allows to change the stream, but not its source. -/
structure Streams (L : Law) : Prop where
  onStream : ∀ {α : Type} (f : Stream → α × Stream), (∀ s, (f s).2.source = s.source) →
    L.Governs (Op.onStream f)

lemma Streams.changeStream (h : L.Streams) {f : Stream → Stream}
    (hf : ∀ s, (f s).source = s.source) : L.Governs (Op.changeStream f) :=
  h.onStream _ hf

/-- A law that allows to change where nodes are, the state, and what a name stands for. -/
structure Places (L : Law) : Prop where
  state : ∀ r state, L.ok r { r with state }
  stack : ∀ r stack, L.ok r { r with stack }
  aside : ∀ r aside, L.ok r { r with aside }
  bindings : ∀ r bindings, L.ok r { r with bindings }

lemma Places.setAside [L.Composes] (h : L.Places) (hedits : L.Edits) (id : NodeId) :
    L.Governs (Op.setAside id) :=
  .look fun _ => (hedits.change _ _).bind fun _ => .modify fun r => h.aside r _

lemma Edits.restack [L.Composes] (h : L.Edits) (hstack : ∀ r stack, L.ok r { r with stack })
    (ids : List NodeId) : L.Governs (Run.restack ids) := by
  induction ids with
  | nil => exact .pure _
  | cons id rest ih =>
    exact .look fun _ => (h.change _ _).bind fun _ => (Governs.modify fun r => hstack r _).bind
      fun _ => ih

/-- A law that allows to change nodes, and where they are. -/
structure Rearranges (L : Law) : Prop extends L.Edits, L.Queues, L.Places

/-- A law that allows to do anything with nodes, and to tell of it. -/
structure Handles (L : Law) : Prop extends L.Rearranges, L.Makes where
  tells : L.Tells

end Law

/-! ## Records of a kind -/

/-- Whether a record tells that something was taken from the stream, or that its end was met. -/
def Record.isInput : Record → Bool
  | .scanned _ _ | .setAside _ _ | .treeTaken _ _ | .consumed _ _ | .endActionMarked _ => true
  | _ => false

/-- Whether a record tells of a decision, whether it could have been another or not. -/
def Record.isDecision : Record → Bool
  | .shifted .. | .reduced .. => true
  | _ => false

/-- Whether a record tells that a step was completed, or that it commits. -/
def Record.isBoundary : Record → Bool
  | .stepEnded | .committed _ _ => true
  | _ => false

/-- Whether a parse writes such a record, and not a caller. -/
def Record.isOwn : Record → Bool
  | .sent _ | .textPushed _ | .treePushed _ | .bound _ _ | .dropped _ | .action _ => false
  | _ => true

/-- Whether taking a record back gives something back to the stream, or takes something away from
it. -/
def Record.ofStream : Record → Bool
  | .scanned _ _ | .setAside _ _ | .treeTaken _ _ | .consumed _ _ | .textPushed _
  | .treePushed _ => true
  | _ => false

namespace Law

/-! ## Taking back -/

lemma Edits.unscan [L.Composes] (h : L.Edits) (hstreams : L.Streams) (id : NodeId)
    (start : Position) : L.Governs (Run.unscan id start) := by
  refine (h.release id).bind fun found => ?_
  cases found <;> exact hstreams.changeStream fun _ => rfl

lemma governs_takeBackDecision [L.Composes] (hretries : ∀ r retries, L.ok r { r with retries })
    (alternative : Nat) (more : Bool) : L.Governs (Run.takeBackDecision alternative more) :=
  .ite ((Governs.modify fun r => hretries r _).bind fun _ => .pure _) (.pure _)

/-- A law that allows all that taking a record back takes, but perhaps to change the stream. -/
structure TakesBack (L : Law) : Prop extends L.Rearranges where
  counts : ∀ r barrier retries, L.ok r { r with barrier, retries }

namespace TakesBack

variable [L.Composes] (h : L.TakesBack)

include h

/-- Of all records, only that of a completed step has to do with the number of steps, only those of
the stream have to do with the stream, and only that of the action at the end with whether it ran.
-/
lemma undo {record : Record} (hstreams : record.ofStream = true → L.Streams)
    (hran : ∀ previous, record = .endActionMarked previous →
      ∀ r, L.ok r { r with endActionRan := previous })
    (hsteps : record = .stepEnded → ∀ r steps, L.ok r { r with steps }) :
    L.Governs (Run.undo record) := by
  have hdecision (alternative : Nat) (more : Bool) :
      L.Governs (Run.takeBackDecision alternative more) :=
    governs_takeBackDecision (fun r => h.counts r r.barrier) alternative more
  cases record with
  | scanned id start =>
    exact (h.takeBack id).bind fun _ => (h.unscan (hstreams rfl) id start).bind fun _ => .pure _
  | setAside id start =>
    exact (h.node id).bind fun _ => (Governs.modify fun r => h.aside r _).bind fun _ =>
      (h.unscan (hstreams rfl) id start).bind fun _ => .pure _
  | treeTaken id ignore =>
    have hpush : L.Governs (Op.changeStream (·.pushTree id ignore)) :=
      (hstreams rfl).changeStream fun _ => rfl
    cases ignore with
    | true =>
      exact (h.node id).bind fun _ => (Governs.modify fun r => h.aside r _).bind fun _ =>
        (h.change _ _).bind fun _ => hpush.bind fun _ => .pure _
    | false => exact (h.takeBack id).bind fun _ => hpush.bind fun _ => .pure _
  | consumed text start =>
    exact ((hstreams rfl).changeStream (by exact fun _ => rfl)).bind fun _ => .pure _
  | sent id => exact (h.takeBack id).bind fun _ => (h.releaseTree id).bind fun _ => .pure _
  | textPushed count =>
    exact ((hstreams rfl).changeStream (by exact fun _ => rfl)).bind fun _ => .pure _
  | treePushed id =>
    exact ((hstreams rfl).changeStream (by exact fun _ => rfl)).bind fun _ =>
      (h.release id).bind fun _ => .pure _
  | shifted id previous ignored alternative more =>
    have hend : L.Governs (do
        putFront id
        modify fun r => { r with state := previous }
        Run.takeBackDecision alternative more) :=
      (h.putFront _).bind fun _ => (Governs.modify fun r => h.state r _).bind fun _ =>
        hdecision _ _
    refine (h.node id).bind fun _ => (Governs.modify fun r => h.stack r _).bind fun _ =>
      (h.change _ _).bind fun _ => .ite ?_ hend
    exact (h.change _ _).bind fun _ => (Governs.modify fun r => h.aside r _).bind fun _ => hend
  | reduced tree previous alternative more =>
    exact (h.takeFront tree).bind fun _ => .look fun q =>
      (h.lookup (.children q.forest tree)).bind fun _ => (h.restack h.stack _).bind fun _ =>
      (h.release tree).bind fun _ => (Governs.modify fun r => h.state r _).bind fun _ =>
      hdecision _ _
  | bound name previous => exact (Governs.modify fun r => h.bindings r _).bind fun _ => .pure _
  | dropped chain => exact (Governs.modify fun r => h.aside r _).bind fun _ => .pure _
  | committed barrier retries =>
    exact (Governs.modify fun r => h.counts r _ _).bind fun _ => .pure _
  | endActionMarked previous =>
    exact (Governs.modify (hran previous rfl)).bind fun _ => .pure _
  | action data => exact .pure _
  | stepEnded => exact (Governs.modify fun r => hsteps rfl r _).bind fun _ => .pure _

end TakesBack

/-! ## Moving forward -/

lemma Rearranges.shift {m : Machine} [L.Composes] (h : L.Rearranges)
    (hwrites : L.Writes Record.isDecision) (id : NodeId) (target : StateId) (alternative : Nat)
    (more : Bool) : L.Governs (Run.shift m id target alternative more) := by
  have hend (below : Option NodeId) (previous : StateId) (ignored : Option NodeId) :
      L.Governs (do
        change id fun node => { node with state := target, next := below }
        modify fun r => { r with stack := some id }
        write (.shifted id previous ignored alternative more)
        modify fun r => { r with state := target }) :=
    (h.change _ _).bind fun _ => (Governs.modify fun r => h.stack r _).bind fun _ =>
      (hwrites.write rfl).bind fun _ => .modify fun r => h.state r _
  refine (h.takeFront _).bind fun _ => (h.node _).bind fun _ => .look fun _ => .look fun _ =>
    .look fun _ => .ite ?_ (hend _ _ _)
  exact (Governs.modify fun r => h.aside r _).bind fun _ => (h.change _ _).bind fun _ => hend _ _ _

/-- A law that allows all that taking something from the stream takes, but to write it down. -/
structure Takes (L : Law) : Prop extends L.Handles where
  streams : L.Streams
  endActionRan : ∀ r endActionRan, L.ok r { r with endActionRan }
  point : ∀ r point, point ≠ .reverse .backtrack → L.ok r { r with point }

namespace Takes

variable {m : Machine} [L.Composes] (h : L.Takes)

include h

section Input

variable (hwrites : L.Writes Record.isInput)

include hwrites

lemma tookInput : L.Governs Run.tookInput :=
  .look fun _ => .ite
    ((hwrites.write rfl).bind fun _ => .modify fun r => h.endActionRan r _) (.pure _)

lemma takeToken (region : RegionId) (element : ElementId) (length : Nat) :
    L.Governs (Run.takeToken m region element length) := by
  refine .look fun _ => (h.streams.onStream _ fun _ => rfl).bind fun _ =>
    (h.tookInput hwrites).bind fun _ =>
    .ite ?_ ((h.alloc _).bind fun _ => (h.tells.tell _).bind fun _ => .ite ?_ ?_)
  · exact (hwrites.write rfl).bind fun _ =>
      (Governs.modify fun r => h.point r _ (by nofun)).bind fun _ =>
      .pure _
  · exact (h.setAside h.toEdits _).bind fun _ => (hwrites.write rfl).bind fun _ => .pure _
  · exact (h.putBack _).bind fun _ => (hwrites.write rfl).bind fun _ => .pure _

lemma takeTree (region : RegionId) (id : NodeId) (ignore : Bool) :
    L.Governs (Run.takeTree region id ignore) := by
  refine (h.streams.changeStream fun s => ?_).bind fun _ => (h.tookInput hwrites).bind fun _ =>
    (hwrites.write rfl).bind fun _ => (h.node _).bind fun _ => (h.tells.tell _).bind fun _ =>
    .ite ?_ ?_
  · unfold Stream.takeTree?
    split
    · rename_i hsome
      split at hsome <;> cases hsome
      rfl
    · rfl
  · exact (h.setAside h.toEdits _).bind fun _ => .pure _
  · exact (h.putBack _).bind fun _ => .pure _

lemma meetEnd (region : RegionId) : L.Governs (Run.meetEnd m region) := by
  refine .look fun _ => .ite ?_ ?_
  · exact (hwrites.write rfl).bind fun _ => (Governs.modify fun r =>
      Composes.ok (h.endActionRan r true) (h.point _ _ (by nofun))).bind fun _ => .pure _
  · exact (h.alloc _).bind fun _ => (h.tells.tell _).bind fun _ => (h.putBack _).bind fun _ =>
      (hwrites.write rfl).bind fun _ => .pure _

end Input

end Takes

/-- A law that allows all that acquiring a lookahead takes, but for what is looked up in tables and
what is written down. -/
structure Advances (L : Law) (m : Machine) : Prop extends L.Takes where
  scan : ∀ region, L.Governs (Op.scan m region)

namespace Advances

variable {m : Machine} [L.Composes] (h : L.Advances m)

include h

variable (hwrites : L.Writes Record.isInput)

include hwrites

lemma acquireIn (first : RegionId) (regions : List RegionId) :
    L.Governs (Run.acquireIn m first regions) := by
  induction regions with
  | nil => exact .pure _
  | cons region regions ih =>
    refine (h.scan region).bind fun outcome => ?_
    cases outcome with
    | noToken => exact ih
    | eof => exact h.meetEnd hwrites region
    | tree id ignore => exact h.takeTree hwrites region id ignore
    | token element length => exact h.takeToken hwrites region element length

lemma acquire (hregions : Meets (fun f => L.fault r f r) (m.grammar.regionsOf r.state)) :
    Obeys L (Run.acquire m) r :=
  .bind (Governs.get r) fun q s hget => by
    cases hget
    exact (Obeys.lookup hregions).seq fun _ => h.acquireIn hwrites _ _

end Advances

/-- A law that allows all that deciding takes, but for what is looked up in tables. -/
structure Decides (L : Law) : Prop extends L.Handles where
  point : ∀ r point, point ≠ .reverse .backtrack → L.ok r { r with point }
  decisions : L.Writes Record.isDecision
  underflow : ∀ r production needed found,
    L.error r (.misuse (.stackUnderflow production needed found)) r

namespace Decides

variable {m : Machine} [L.Composes] (h : L.Decides)

include h

/-- A reduction looks up its production; whatever else it looks up is among nodes. -/
lemma reduce {production : ProductionId}
    (hinfo : ∀ r, Meets (fun f => L.fault r f r) (entry m.grammar.productions production))
    (alternative : Nat) (more commits : Bool) :
    L.Governs (Run.reduce m production alternative more commits) := by
  refine (Governs.lookup hinfo).bind fun info => .look fun _ => .look fun q => .look fun _ =>
    (h.lookup (.unstack q.forest _ _ _)).bind fun found => ?_
  cases found with
  | error found => exact .fail fun r => h.underflow r _ _ _
  | ok found =>
    refine .look fun q => (h.lookup (.spanOf q.forest _)).bind fun _ => (h.alloc _).bind fun _ =>
      (h.linkSiblings _).bind fun _ => .look fun q =>
      (h.lookup (.stateOf m q.forest _)).bind fun state =>
      (Governs.modify fun r => Composes.ok (h.stack r found.2) (h.state _ state)).bind fun _ =>
      (h.putFront _).bind fun _ => (h.decisions.write rfl).bind fun _ => .ite ?_ (.pure _)
    exact (Governs.modify fun r => h.point r _ (by nofun)).bind fun _ => .pure _

lemma act {decision : Grammar.Decision}
    (hinfo : ∀ production, decision.action = .reduce production ∨
        decision.action = .shiftReduce production →
      ∀ r, Meets (fun f => L.fault r f r) (entry m.grammar.productions production))
    (id : NodeId) (target : StateId) (commits : Bool) :
    L.Governs (Run.act m id decision target commits) := by
  unfold Run.act
  cases haction : decision.action with
  | shift => exact (h.shift h.decisions _ _ _ _).bind fun _ => .pure _
  | reduce production =>
    exact h.reduce (hinfo production (.inl haction)) _ _ _
  | shiftReduce production =>
    exact (h.shift h.decisions _ _ _ _).bind fun _ =>
      h.reduce (hinfo production (.inr haction)) _ _ _

end Decides

/-! ## Moving back -/

lemma Edits.settle {m : Machine} [L.Composes] (h : L.Edits)
    (hsettled : ∀ r point,
      L.ok r { r with halted := false, retry := 0, rejecting := false, point }) :
    L.Governs (Run.settle m) :=
  .look fun q => (h.lookup (.atEnd m q)).bind fun _ =>
    (Governs.modify fun r => hsettled r _).bind fun _ => .look fun _ => .pure _

/-- A law that allows all that a move back to a goal takes, but perhaps to change the stream or the
number of steps, and to strike records out. -/
structure Unwinds (L : Law) (goal : Goal) : Prop extends L.TakesBack, L.Tells where
  endActionRan : ∀ r endActionRan, L.ok r { r with endActionRan }
  settled : ∀ r point, L.ok r { r with halted := false, retry := 0, rejecting := false, point }
  returned : goal = .backtrack → ∀ r retry, L.ok r { r with retry, point := .start }
  exhausted : ∀ r target steps, L.error r (.misuse (.undoPastStart target steps)) r

namespace Unwinds

variable {m : Machine} {goal : Goal} [L.Composes] (h : L.Unwinds goal)

include h

lemma unwind {records : List Record}
    (hlog : ∀ older, older <:+ records → ∀ r, L.ok r { r with log := ⟨older⟩ })
    (hstreams : ∀ record ∈ records, record.ofStream = true → L.Streams)
    (hsteps : .stepEnded ∈ records → ∀ r steps, L.ok r { r with steps }) :
    L.Governs (Run.unwind m goal records) := by
  have hsettle : L.Governs (do return some (← Run.settle m) : Op (Option Status)) :=
    (h.settle h.settled).bind fun _ => .pure _
  induction records with
  | nil =>
    rw [Run.unwind]
    exact .look fun _ => .ite hsettle (.look fun _ => .fail fun r => h.exhausted r _ _)
  | cons record older ih =>
    rw [Run.unwind]
    have hrest : L.Governs (Run.unwind m goal older) :=
      ih (fun _ hsuffix => hlog _ (hsuffix.trans (List.suffix_cons ..)))
        (fun record hrecord => hstreams record (List.mem_cons_of_mem _ hrecord))
        fun hended => hsteps (List.mem_cons_of_mem _ hended)
    refine .look fun _ => .ite hsettle
      ((Governs.modify fun r => hlog older (List.suffix_cons ..) r).bind fun _ =>
      (h.tell _).bind fun _ => Governs.bind (h.undo (hstreams record List.mem_cons_self)
        (fun _ _ r => h.endActionRan r _) fun hended => hsteps (hended ▸ List.mem_cons_self))
          fun taken => ?_)
    cases taken with
    | action data => exact .pure _
    | plain => cases goal <;> exact hrest
    | decision alternative =>
      cases goal with
      | step target => exact hrest
      | backtrack =>
        exact (Governs.modify fun r => h.returned rfl r _).bind fun _ => .pure _

end Unwinds

/-! ## Steps -/

/-- A law that allows all that completing a step takes. -/
structure Completes (L : Law) : Prop extends L.Edits where
  point : ∀ r point, point ≠ .reverse .backtrack → L.ok r { r with point }
  counts : ∀ r barrier retries, L.ok r { r with barrier, retries }
  steps : ∀ r steps, L.ok r { r with steps }
  stopping : ∀ r stopping, L.ok r { r with stopping }
  writes : L.Writes Record.isBoundary

lemma Completes.completeStep {m : Machine} [L.Composes] (h : L.Completes) (commits : Bool) :
    L.Governs (Run.completeStep m commits) := by
  have hend : L.Governs (do
      write .stepEnded
      modify fun r => { r with steps := r.steps + 1 }
      let r ← get
      if ← Op.lookup (atEnd m r) then
        modify fun r => { r with point := .done }
        return some .done
      else if r.stopping then
        modify fun r => { r with stopping := false }
        return some .stopped
      else if r.target = some r.steps then
        return some .paused
      else
        return none : Op (Option Status)) :=
    (h.writes.write rfl).bind fun _ => (Governs.modify fun r => h.steps r _).bind fun _ =>
      .look fun q => (h.lookup (.atEnd m q)).bind fun _ =>
      .ite ((Governs.modify fun r => h.point r _ (by nofun)).bind fun _ => .pure _)
        (.ite ((Governs.modify fun r => h.stopping r _).bind fun _ => .pure _)
          (.ite (.pure _) (.pure _)))
  cases commits with
  | true =>
    exact Governs.bind (.look fun q => (h.writes.write rfl).bind fun _ =>
      .modify fun r => h.counts r _ _) fun _ => hend
  | false => exact hend

/-- What the law permits to happen while something is looked up, wherever the run is. -/
def Admits (L : Law) {α : Type} (x : Except Fault α) : Prop :=
  Meets (fun f => ∀ r, L.fault r f r) x

lemma Admits.found [L.Composes] {α : Type} {x : Except Fault α} (h : L.Admits x) :
    L.Governs (Op.lookup x) :=
  .lookup fun r => h.mono fun _ hf => hf r

/-- The law permits what is looked up for a decision. -/
structure Finds (L : Law) (m : Machine) (decision : Grammar.Decision) : Prop where
  commits : L.Admits (entry m.grammar.commits decision.transition)
  target : L.Admits (entry m.grammar.targets decision.transition)
  production : ∀ production, decision.action = .reduce production ∨
    decision.action = .shiftReduce production → L.Admits (entry m.grammar.productions production)

/-- The law permits what is looked up in a state. -/
structure Serves (L : Law) (m : Machine) (state : StateId) : Prop where
  regions : L.Admits (m.grammar.regionsOf state)
  decides : ∀ element alternative, L.Admits (m.grammar.decide state element alternative)
  finds : ∀ element alternative decision,
    m.grammar.decide state element alternative = .ok (some decision) → L.Finds m decision

/-- A law that allows everything that steps take. -/
structure Steps (L : Law) : Prop extends L.Decides where
  counts : ∀ r barrier retries, L.ok r { r with barrier, retries }
  steps : ∀ r steps, L.ok r { r with steps }
  retry : ∀ r retry, L.ok r { r with retry }
  rejecting : ∀ r rejecting, L.ok r { r with rejecting }
  stopping : ∀ r stopping, L.ok r { r with stopping }
  boundaries : L.Writes Record.isBoundary
  backtracks : ∀ r, L.ok r { r with point := .reverse .backtrack }
  halts : ∀ r e, e.isInInput = true →
    L.error r e { r with halted := true, retry := 0, point := .start }

namespace Steps

variable {m : Machine} (h : L.Steps)

include h

lemma takesBack : L.TakesBack where
  toRearranges := h.toRearranges
  counts := h.counts

lemma completes : L.Completes where
  toEdits := h.toEdits
  point := h.point
  counts := h.counts
  steps := h.steps
  stopping := h.stopping
  writes := h.boundaries

variable [L.Composes]

lemma turnBack {e : Error} (he : e.isInInput = true) : L.Governs (Run.turnBack e) :=
  (h.tells.tell _).bind fun _ => .look fun _ => .ite (.modify h.backtracks)
    fun r => .of_error rfl (h.halts r e he)

lemma step {r : Run} (hserves : L.Serves m r.state) (id : NodeId) : Obeys L (Run.step m id) r := by
  refine .bind (h.node id r) fun lookahead s hnode => .bind (Governs.get s) fun q t hget => ?_
  obtain ⟨hn, rfl⟩ := node_eq_ok.1 hnode
  cases hget
  refine .bind ((hserves.decides _ _).found _) fun found t hfound => ?_
  obtain ⟨hdecide, rfl⟩ := lookup_eq_ok.1 hfound
  cases found with
  | none => exact (h.turnBack rfl _).seq fun _ => .pure _
  | some decision =>
    have hfinds := hserves.finds _ _ _ hdecide
    refine Governs.bind (h.tells.tell _) (fun _ => Governs.bind (.modify fun r =>
      Composes.ok (h.retry r 0) (h.counts _ _ _)) fun _ => hfinds.commits.found.bind fun _ =>
      hfinds.target.found.bind fun _ => ?_) _
    refine (h.act (fun production hproduction r =>
      (hfinds.production production hproduction).mono fun _ hf => hf r) _ _ _).bind
      fun status => ?_
    cases status with
    | some status => exact .pure _
    | none => exact h.completes.completeStep _

lemma resumeReduction (production : ProductionId) (commits : Bool) :
    L.Governs (Run.resumeReduction m production commits) := by
  exact (Governs.modify fun r => h.point r _ (by nofun)).bind fun _ => .look fun _ => .ite
    ((Governs.modify fun r => h.rejecting r _).bind fun _ => h.frontSpan.bind fun _ =>
      (h.turnBack rfl).bind fun _ => .pure _) (h.completes.completeStep commits)

end Steps

/-- A law that also allows to refuse an entry. -/
structure Enters (L : Law) : Prop extends L.Steps where
  badEntry : ∀ r entry point, L.error r (.misuse (.badEntry entry point)) r
  refused : ∀ r, L.error r .halted r

lemma Enters.enter {m : Machine} [L.Composes] (h : L.Enters) (entry : Entry) :
    L.Governs (Run.enter m entry) := by
  refine .look fun q => ?_
  cases q.point with
  | reduction production commits =>
    cases entry with
    | reduction => exact .ite (.fail h.refused) (h.resumeReduction production commits)
    | _ => exact .ite (.fail h.refused) (.fail fun r => h.badEntry r _ _)
  | _ =>
    cases entry <;> first
      | exact .pure _
      | exact .ite (.fail h.refused) (.pure _)
      | exact .ite (.fail h.refused) (.fail fun r => h.badEntry r _ _)
      | exact .ite (.fail h.refused)
          ((Governs.modify fun r => h.point r _ (by nofun)).bind fun _ => .pure _)

/-! ## Turns -/

/-- A law that allows everything that moves forward take. -/
structure Forwards (L : Law) (m : Machine) : Prop extends L.Advances m, L.Steps where
  inputs : L.Writes Record.isInput

lemma Forwards.goForward {m : Machine} [L.Composes] (h : L.Forwards m) {r : Run}
    (hserves : L.Serves m r.state) :
    Obeys L (Run.goForward m) r := by
  refine .bind (Governs.get r) fun q s hget => ?_
  cases hget
  cases r.queue with
  | cons id rest => exact h.step hserves id
  | nil =>
    refine (h.acquire h.inputs (hserves.regions.mono fun _ hf => hf r)).seq fun found => ?_
    cases found with
    | noToken region => exact .look fun _ => (h.turnBack rfl).bind fun _ => .pure _
    | _ => exact .pure _

/-- A law that allows everything that turns take, and to enter a run. -/
structure Turns (L : Law) (m : Machine) : Prop extends L.Forwards m, L.Enters where
  log : ∀ r log, L.ok r { r with log }
  settled : ∀ r point, L.ok r { r with halted := false, retry := 0, rejecting := false, point }
  exhausted : ∀ r target steps, L.error r (.misuse (.undoPastStart target steps)) r

namespace Turns

variable {m : Machine} (h : L.Turns m)

include h

variable [L.Composes]

lemma unwinds (goal : Goal) : L.Unwinds goal where
  toTakesBack := h.toSteps.takesBack
  toTells := h.tells
  endActionRan := h.endActionRan
  settled := h.settled
  returned _ r retry := Composes.ok (h.retry r retry) (h.point _ .start nofun)
  exhausted := h.exhausted

lemma turn {r : Run} (hserves : r.point = .start → L.Serves m r.state) :
    Obeys L (Run.turn m) r := by
  refine .bind (Governs.get r) fun q s hget => ?_
  cases hget
  cases hpoint : r.point with
  | start => exact h.goForward (hserves hpoint)
  | reverse goal =>
    exact (h.unwinds goal).unwind (fun _ _ r => h.log r _) (fun _ _ _ => h.streams)
      (fun _ => h.steps) r
  | done => exact Governs.pure _ r
  | _ => exact Governs.fail (fun r => h.badEntry r _ _) r

/-- Going back to a step never goes forward, and so looks nothing up in a table. -/
lemma goBack (hunfinished : ∀ r, L.fault r .unfinished r)
    (hforward : ∀ r target steps, L.error r (.misuse (.undoForward target steps)) r)
    (target : Nat) : L.Governs (Run.goBack m target) := by
  refine .look fun q => .ite (.fail fun r => hforward r _ _) ?_
  have hback : L.Governs (do
      modify fun r => { r with point := .reverse (.step target) }
      Run.takeTurns m 1) := by
    refine fun r => .bind (Governs.modify (fun r => h.point r _ (by nofun)) r) fun _ t hmodify => ?_
    cases hmodify
    refine (h.turn fun hstart => by cases hstart).seq fun a => ?_
    cases a with
    | some status => exact .pure _
    | none => exact .lookup fun r => .error (hunfinished r)
  cases q.point with
  | reverse goal => exact .fail fun r => h.badEntry r _ _
  | _ => exact hback

end Turns

end Law

/-! ## Guards -/

/-- What guards an operation tells how it ended, and ends the run with an error that does. -/
lemma Obeys.unlessAborted {op : Op Status} (h : r.aborted = false → Obeys L op r)
    (hrefused : L.error r .aborted r) (hok : ∀ s events, L.ok r s → L.ok r { s with events })
    (herror : ∀ e s aborted events, L.error r e s → L.error r e { s with aborted, events }) :
    Obeys L (Run.unlessAborted op) r := by
  cases haborted : r.aborted with
  | true => exact .of_error (if_pos haborted) hrefused
  | false =>
    have hobeys := h haborted
    have hguard : Run.unlessAborted op r = _ := if_neg (Bool.eq_false_iff.1 haborted)
    rcases hop : op r with ⟨status, s⟩ | ⟨e | f, s⟩ <;> rw [hop] at hguard
    · exact .of_ok hguard (hok s _ (hobeys.ok hop))
    · have herr : L.error r e s := hobeys.error hop
      cases hfatal : e.isFatal with
      | true =>
        refine .of_error (hguard.trans (if_pos hfatal)) (herror e s true _ herr)
      | false =>
        exact .of_error (hguard.trans (if_neg (Bool.eq_false_iff.1 hfatal))) herr
    · exact .of_fault hguard (hobeys.fault hop)

namespace Law

/-! ## Callers -/

/-- A law that allows all that a run does for its caller, but perhaps to parse, to take back, and to
let the stream come and go. -/
structure Obliges (L : Law) : Prop extends L.Handles where
  streams : L.Streams
  writes : L.Writes fun record => !record.isOwn

namespace Obliges

variable [L.Composes] (h : L.Obliges)

include h

lemma pushText (text : Bytes) : L.Governs (Run.pushText text) :=
  .ite ((h.streams.changeStream (by exact fun _ => rfl)).bind fun _ => h.writes.write rfl) (.pure _)

lemma pushTree (tree : Node) (ignore : Bool) : L.Governs (Run.pushTree tree ignore) :=
  (h.streams.changeStream (by exact fun _ => rfl)).bind fun _ => (h.alloc _).bind fun _ =>
    (h.streams.changeStream (by exact fun _ => rfl)).bind fun _ => (h.writes.write rfl).bind
    fun _ => .pure _

lemma bind (name : VariableId) (id : NodeId) : L.Governs (Run.bind name id) :=
  .look fun _ => (h.writes.write rfl).bind fun _ => .modify fun r => h.bindings r _

lemma queueToken (element : ElementId) (text : Bytes) (name : Option VariableId) :
    L.Governs (Run.queueToken element text name) := by
  refine (h.alloc _).bind fun id => (h.putBack _).bind fun _ =>
    (h.writes.write rfl).bind fun _ => ?_
  cases name with
  | none => exact .pure _
  | some name => exact (h.bind name id).bind fun _ => .pure _

omit [L.Composes] in
lemma leaveData (data : Bytes) : L.Governs (Run.leaveData data) :=
  h.writes.write rfl

lemma dropAside : L.Governs Run.dropAside :=
  .look fun _ => (h.writes.write rfl).bind fun _ => .modify fun r => h.aside r _

lemma giveUpLog (hlog : ∀ r, L.ok r { r with log := Journal.empty })
    (hcounts : ∀ r, L.ok r { r with barrier := 0, retries := 0 }) : L.Governs Run.giveUpLog :=
  .look fun q => (h.lookup (.foldlM OfLinks.releaseChain _ q.forest)).bind
    fun forest => .modify fun r =>
      Composes.ok (hlog r) (Composes.ok (h.forest _ forest) (hcounts _))

end Obliges

/-! ## Errors that end the run -/

/-- The law to report no error but those that end the run. -/
def grave : Law where
  ok _ _ := True
  error _ e _ := e.isFatal = true
  fault _ _ _ := True

instance composes_grave : grave.Composes where
  refl _ := trivial
  ok _ _ _ _ _ := trivial
  error _ _ _ _ _ h := h
  fault _ _ _ _ _ _ := trivial

lemma Governs.grave {op : Op α} (h : Law.grave.Governs op) : Grave op :=
  fun r _ _ hrun => (h r).error hrun

lemma grave_onScanner (x : Attempt Scanner.Error Scanner α) : grave.Governs (Op.onScanner x) :=
  .onScanner (fun _ _ => trivial) (fun _ _ _ => rfl) (fun _ _ _ => trivial) x

lemma grave_rearranges : grave.Rearranges where
  forest _ _ := trivial
  links _ _ _ := trivial
  queue _ _ := trivial
  mismatch _ _ _ := rfl
  state _ _ := trivial
  stack _ _ := trivial
  aside _ _ := trivial
  bindings _ _ := trivial

lemma grave_handles : grave.Handles where
  toRearranges := grave_rearranges
  full _ _ := rfl
  tells := ⟨fun _ _ => trivial⟩

lemma grave_takes : grave.Takes where
  toHandles := grave_handles
  streams := ⟨fun _ _ => grave_onScanner _⟩
  endActionRan _ _ := trivial
  point _ _ _ := trivial

lemma grave_advances (m : Machine) : grave.Advances m where
  toTakes := grave_takes
  scan _ := grave_onScanner _

lemma grave_writes (kind : Record → Bool) : grave.Writes kind :=
  ⟨fun _ _ _ => trivial⟩

lemma grave_decides : grave.Decides where
  toHandles := grave_handles
  point := grave_takes.point
  decisions := grave_writes _
  underflow _ _ _ _ := rfl

lemma grave_completes : grave.Completes where
  toEdits := grave_rearranges.toEdits
  point _ _ _ := trivial
  counts _ _ _ := trivial
  steps _ _ := trivial
  stopping _ _ := trivial
  writes := grave_writes _

lemma grave_unwinds (goal : Goal) : grave.Unwinds goal where
  toRearranges := grave_rearranges
  counts _ _ _ := trivial
  events _ _ := trivial
  endActionRan _ _ := trivial
  settled _ _ := trivial
  returned _ _ _ := trivial
  exhausted _ _ _ := rfl

/-! ## Keeping a property -/

/-- The law to keep a property, or to fall back to another one with an error or a fault. -/
def keeping (I J : Run → Prop) : Law where
  ok r s := I r → I s
  error r _ s := I r → J s
  fault r _ s := I r → J s

instance composes_keeping (I J : Run → Prop) : (keeping I J).Composes where
  refl _ h := h
  ok _ _ _ h h' hr := h' (h hr)
  error _ _ _ _ h h' hr := h' (h hr)
  fault _ _ _ _ h h' hr := h' (h hr)

/-- A law that says nothing of faults serves every state. -/
lemma Serves.of_faults (h : ∀ r f, L.fault r f r) (m : Machine) (state : StateId) :
    L.Serves m state where
  regions f _ r := h r f
  decides _ _ f _ r := h r f
  finds _ _ _ _ := ⟨fun f _ r => h r f, fun f _ r => h r f, fun _ _ f _ r => h r f⟩

lemma serves_keeping {I J : Run → Prop} (hJ : ∀ r, I r → J r) (m : Machine) (state : StateId) :
    (keeping I J).Serves m state :=
  .of_faults (fun r _ => hJ r) m state

end Law

end Run

end Rewind
