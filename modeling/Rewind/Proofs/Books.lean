import Rewind.Proofs.Laws
import Rewind.Proofs.Operations
import Rewind.Run.Undo

/-!
# The books of a run

A log tells more than how to take things back: it also tells which nodes are in the lookahead, in
their order, and how many steps were completed.  Whatever a run does keeps these books right, and so
a run that takes something back finds the node that it looks for at the end of the lookahead where
it looks, and finds a step, or a decision that could have been another, before the log is exhausted.
-/

namespace Rewind.Run

open Attempt Op

/-! ## What a log tells -/

/-- The node that came into the lookahead at its back. -/
def Record.joined? : Record → Option NodeId
  | .scanned id _ => some id
  | .treeTaken id false => some id
  | .sent id => some id
  | _ => none

/-- Whether a record has nothing to do with the lookahead. -/
def Record.isElsewhere : Record → Bool
  | .shifted .. | .reduced .. => false
  | record => record.joined?.isNone

/-- The log tells that these nodes are in the lookahead.  Before its first record any may have been
there. -/
inductive Lined : List Record → List NodeId → Prop
  | empty {queue : List NodeId} : Lined [] queue
  | joined {record : Record} {older : List Record} {queue : List NodeId} {id : NodeId} :
    record.joined? = some id → Lined older queue → Lined (record :: older) (queue ++ [id])
  | shifted {older : List Record} {queue : List NodeId} {id : NodeId} {previous : StateId}
      {ignored : Option NodeId} {alternative : Nat} {more : Bool} :
    Lined older (id :: queue) →
    Lined (.shifted id previous ignored alternative more :: older) queue
  | reduced {older : List Record} {queue : List NodeId} {tree : NodeId} {previous : StateId}
      {alternative : Nat} {more : Bool} :
    Lined older queue → Lined (.reduced tree previous alternative more :: older) (tree :: queue)
  | elsewhere {record : Record} {older : List Record} {queue : List NodeId} :
    record.isElsewhere = true → Lined older queue → Lined (record :: older) queue

namespace Lined

variable {record : Record} {older : List Record} {queue : List NodeId} {id : NodeId}

lemma of_joined (h : Lined (record :: older) queue) (hjoined : record.joined? = some id) :
    ∃ front, queue = front ++ [id] ∧ Lined older front := by
  generalize hlog : record :: older = log at h
  cases h with
  | empty => cases hlog
  | joined hother hlined =>
    cases hlog
    obtain rfl := Option.some.inj (hother.symm.trans hjoined)
    exact ⟨_, rfl, hlined⟩
  | elsewhere helsewhere _ =>
    cases hlog
    cases record <;> simp_all [Record.isElsewhere]
  | _ =>
    cases hlog
    cases hjoined

lemma of_elsewhere (h : Lined (record :: older) queue) (helsewhere : record.isElsewhere = true) :
    Lined older queue := by
  generalize hlog : record :: older = log at h
  cases h with
  | empty => cases hlog
  | joined hjoined hlined =>
    cases hlog
    cases record <;> simp_all [Record.isElsewhere]
  | elsewhere _ hlined =>
    cases hlog
    exact hlined
  | _ =>
    cases hlog
    cases helsewhere

lemma of_shifted {previous : StateId} {ignored : Option NodeId} {alternative : Nat} {more : Bool}
    (h : Lined (.shifted id previous ignored alternative more :: older) queue) :
    Lined older (id :: queue) := by
  cases h with
  | joined hjoined _ => cases hjoined
  | shifted hlined => exact hlined
  | elsewhere helsewhere _ => cases helsewhere

lemma of_reduced {previous : StateId} {alternative : Nat} {more : Bool}
    (h : Lined (.reduced id previous alternative more :: older) queue) :
    ∃ rest, queue = id :: rest ∧ Lined older rest := by
  cases h with
  | joined hjoined _ => cases hjoined
  | reduced hlined => exact ⟨_, rfl, hlined⟩
  | elsewhere helsewhere _ => cases helsewhere

end Lined

/-- As many steps are counted as the log tells of. -/
def Tallied (r : Run) : Prop :=
  r.steps = r.log.records.count .stepEnded

/-- What must not happen to a caller that keeps to the rules, whatever its tables. -/
def Error.isLapse : Error → Bool
  | .misuse (.stackUnderflow ..) => false
  | .misuse _ => true
  | _ => false

/-- The books of a run that waits at a point are right, but for nodes on their way: those in `front`
have left the lookahead and are not yet written down, those in `back` are written down and yet to
join.  The steps are those that the log tells of if the log is `whole`, that is, if it was never
given up. -/
structure Filed (whole : Prop) (point : Point) (front back : List NodeId) (r : Run) : Prop where
  lined : Lined r.log.records (front ++ (r.queue ++ back))
  tallied : whole → Tallied r
  point : r.point = point

/-- The run is halted, and its books are right. -/
structure Halts (whole : Prop) (r : Run) : Prop extends Filed whole .start [] [] r where
  halted : r.halted = true

/-- An operation has failed, but not by a lapse; only a log that is not whole may be exhausted.  If
the error does not end the run, then it lies in the input and halts the run. -/
structure Fails (whole : Prop) (e : Error) (r : Run) : Prop where
  lapse : e.isLapse = true → ¬whole ∧ ∃ target steps, e = .misuse (.undoPastStart target steps)
  tallied : whole → Tallied r
  halts : e.isFatal = false → e.isInInput = true ∧ Halts whole r

/-- A log that is whole is not exhausted. -/
lemma Fails.no_lapse {e : Error} {r : Run} (h : Fails True e r) : e.isLapse = false := by
  by_contra hlapse
  exact (h.lapse (by simpa using hlapse)).1 trivial

/-- The entry that a status names. -/
def Status.names : Status → Entry
  | .done | .stopped | .paused | .reverted _ => .start
  | .reduction .. => .reduction
  | .generation .. => .generation
  | .preEof _ => .preEof
  | .reverse _ => .reverse

/-! ## Operations that keep the books -/

/-- An operation that leads from runs of the one kind to runs of the other, unless it fails. -/
def Brings (whole : Prop) {α : Type} (P : Run → Prop) (op : Op α) (Q : α → Run → Prop) : Prop :=
  ∀ ⦃r : Run⦄, P r → (∀ ⦃a s⦄, op r = .ok a s → Q a s) ∧
    ∀ ⦃e s⦄, op r = .error (.error e) s → Fails whole e s

namespace Brings

variable {whole : Prop} {α β : Type} {P P' : Run → Prop} {Q Q' : α → Run → Prop}
  {R : β → Run → Prop}

lemma bind {x : Op α} {f : α → Op β} (hx : Brings whole P x Q)
    (hf : ∀ a, Brings whole (Q a) (f a) R) :
    Brings whole P (x >>= f) R := by
  intro r hr
  obtain ⟨hok, herror⟩ := hx hr
  constructor
  · intro b u h
    obtain ⟨a, s, hrun, h1⟩ := bind_eq_ok.1 h
    exact (hf a (hok hrun)).1 h1
  · intro e u h
    rcases bind_eq_error.1 h with hrun | ⟨a, s, hrun, h1⟩
    · exact herror hrun
    · exact (hf a (hok hrun)).2 h1

lemma conseq {op : Op α} (h : Brings whole P' op Q') (hP : ∀ r, P r → P' r)
    (hQ : ∀ a r, Q' a r → Q a r) : Brings whole P op Q := by
  intro r hr
  obtain ⟨hok, herror⟩ := h (hP r hr)
  exact ⟨fun a s hrun => hQ a s (hok hrun), herror⟩

lemma pure {a : α} (h : ∀ r, P r → Q a r) : Brings whole P (pure a) Q := by
  intro r hr
  refine ⟨fun b s hrun => ?_, fun e s hrun => ?_⟩ <;> cases hrun
  exact h r hr

lemma get {f : Run → Op β} (h : ∀ r, P r → Brings whole (fun s => P s ∧ s = r) (f r) R) :
    Brings whole P (MonadState.get >>= f) R := by
  intro r hr
  exact h r hr ⟨hr, rfl⟩

/-- Nothing depends on what the run was when it was looked at. -/
lemma look {f : Run → Op β} (h : ∀ r, Brings whole P (f r) R) :
    Brings whole P (MonadState.get >>= f) R :=
  get fun r _ => (h r).conseq (fun _ hs => hs.1) fun _ _ hs => hs

lemma modify {f : Run → Run} {Q : Run → Prop} (h : ∀ r, P r → Q (f r)) :
    Brings whole P (modify f) fun _ => Q := by
  intro r hr
  refine ⟨fun b s hrun => ?_, fun e s hrun => ?_⟩ <;> cases hrun
  exact h r hr

lemma ite {p : Prop} [Decidable p] {x y : Op α} (hx : p → Brings whole P x Q)
    (hy : ¬p → Brings whole P y Q) : Brings whole P (if p then x else y) Q := by
  split
  · exact hx ‹_›
  · exact hy ‹_›

lemma fail {e : Error} (h : ∀ r, P r → Fails whole e r) : Brings whole P (Op.fail e : Op α) Q := by
  intro r hr
  refine ⟨fun b s hrun => ?_, fun e s hrun => ?_⟩ <;> cases hrun
  exact h r hr

/-- The node is at the front, and is taken from there. -/
lemma takeFront {id : NodeId} {Q : Run → Prop}
    (h : ∀ r, P r → ∃ rest, r.queue = id :: rest ∧ Q { r with queue := rest }) :
    Brings whole P (Op.takeFront id) fun _ => Q := by
  intro r hr
  obtain ⟨rest, hqueue, hQ⟩ := h r hr
  have htake := takeFront_eq_ok (u := ()).2 ⟨rest, hqueue, rfl⟩
  refine ⟨fun a s hrun => ?_, fun e s hrun => ?_⟩ <;> rw [htake] at hrun <;> cases hrun
  exact hQ

/-- The node is at the back, and is taken from there. -/
lemma takeBack {id : NodeId} {Q : Run → Prop}
    (h : ∀ r, P r → ∃ front, r.queue = front ++ [id] ∧ Q { r with queue := front }) :
    Brings whole P (Op.takeBack id) fun _ => Q := by
  intro r hr
  obtain ⟨front, hqueue, hQ⟩ := h r hr
  have htake := takeBack_ok hqueue
  refine ⟨fun a s hrun => ?_, fun e s hrun => ?_⟩ <;> rw [htake] at hrun <;> cases hrun
  exact hQ

end Brings

/-- Nothing that the books tell of is changed. -/
structure SameBooks (r s : Run) : Prop where
  log : s.log = r.log
  queue : s.queue = r.queue
  steps : s.steps = r.steps
  point : s.point = r.point

lemma SameBooks.trans {r s t : Run} (h : SameBooks r s) (h' : SameBooks s t) : SameBooks r t :=
  ⟨h'.log.trans h.log, h'.queue.trans h.queue, h'.steps.trans h.steps, h'.point.trans h.point⟩

/-- The law to have nothing to do with the books, and no lapses. -/
def Law.quiet : Law where
  ok := SameBooks
  error r e s := SameBooks r s ∧ e.isLapse = false ∧ e.isFatal = true
  fault _ _ _ := True

instance composes_quiet : Law.quiet.Composes where
  refl _ := ⟨rfl, rfl, rfl, rfl⟩
  ok _ _ _ := .trans
  error _ _ _ _ h h' := ⟨h.trans h'.1, h'.2⟩
  fault _ _ _ _ _ _ := trivial

/-- An operation that has nothing to do with the books, and no lapses. -/
abbrev Quiet {α : Type} (op : Op α) : Prop :=
  Law.quiet.Governs op

namespace Quiet

variable {α : Type}

lemma modify {f : Run → Run} (h : ∀ r, SameBooks r (f r)) : Quiet (modify f) :=
  Law.Governs.modify h

lemma lookup (x : Except Fault α) : Quiet (Op.lookup x) :=
  Law.Governs.lookup fun _ _ _ => trivial

lemma tell (event : Event) : Quiet (Op.tell event) := modify fun _ => ⟨rfl, rfl, rfl, rfl⟩

lemma onScanner (x : Attempt Scanner.Error Scanner α) : Quiet (Op.onScanner x) :=
  have hsame (r : Run) (scanner : Scanner) : SameBooks r { r with scanner } :=
    ⟨rfl, rfl, rfl, rfl⟩
  Law.Governs.onScanner (L := Law.quiet) hsame (fun r _ scanner => ⟨hsame r scanner, rfl, rfl⟩)
    (fun _ _ _ => trivial) x

lemma makes : Law.quiet.Makes where
  forest _ _ := ⟨rfl, rfl, rfl, rfl⟩
  links _ _ _ := trivial
  full _ _ := ⟨⟨rfl, rfl, rfl, rfl⟩, rfl, rfl⟩

lemma streams : Law.quiet.Streams :=
  ⟨fun _ _ => onScanner _⟩

lemma places : Law.quiet.Places where
  state _ _ := ⟨rfl, rfl, rfl, rfl⟩
  stack _ _ := ⟨rfl, rfl, rfl, rfl⟩
  aside _ _ := ⟨rfl, rfl, rfl, rfl⟩
  bindings _ _ := ⟨rfl, rfl, rfl, rfl⟩

lemma alloc (n : Node) : Quiet (Op.alloc n) := makes.alloc n

lemma node (id : NodeId) : Quiet (Op.node id) := makes.node id

lemma change (id : NodeId) (f : Node → Node) : Quiet (Op.change id f) := makes.change id f

lemma setAside (id : NodeId) : Quiet (Op.setAside id) := places.setAside makes.toEdits id

lemma changeStream (f : Stream → Stream) : Quiet (Op.changeStream f) := onScanner _

lemma unscan (id : NodeId) (start : Position) : Quiet (Run.unscan id start) :=
  makes.unscan streams id start

lemma takeBackDecision (alternative : Nat) (more : Bool) :
    Quiet (Run.takeBackDecision alternative more) :=
  Law.governs_takeBackDecision (L := Law.quiet) (fun _ _ => ⟨rfl, rfl, rfl, rfl⟩) alternative more

end Quiet

namespace Filed

variable {whole : Prop} {r s : Run} {point : Point} {front back : List NodeId} {record : Record}
  {id : NodeId}

lemma same (h : Filed whole point front back r) (hsame : SameBooks r s) :
    Filed whole point front back s := by
  refine ⟨?_, fun hwhole => ?_, hsame.point.trans h.point⟩
  · rw [hsame.log, hsame.queue]
    exact h.lined
  · rw [Tallied, hsame.log, hsame.steps]
    exact h.tallied hwhole

lemma fails (h : Filed whole point front back r) {e : Error} (hlapse : e.isLapse = false)
    (hfatal : e.isFatal = true) : Fails whole e r :=
  ⟨fun hnot => (nomatch hlapse.symm.trans hnot), h.tallied,
    fun hnot => (nomatch hfatal.symm.trans hnot)⟩

/-- An operation that has nothing to do with the books keeps them. -/
lemma quiet {α : Type} {op : Op α} (hop : Quiet op) :
    Brings whole (Filed whole point front back) op fun _ => Filed whole point front back := by
  refine fun r h => ⟨fun a s hrun => h.same ((hop r).ok hrun), fun e s hrun => ?_⟩
  obtain ⟨hsame, hlapse, hfatal⟩ := (hop r).error hrun
  exact (h.same hsame).fails hlapse hfatal

lemma tallied_append (h : Tallied r) (hrecord : record ≠ .stepEnded) :
    r.steps = (r.log.append record).records.count .stepEnded := by
  rw [h]
  exact (List.count_cons_of_ne hrecord).symm

/-- A record that has nothing to do with the lookahead, and ends no step, is written. -/
lemma notes (helsewhere : record.isElsewhere = true) (hrecord : record ≠ .stepEnded) :
    Brings whole (Filed whole point front back) (Op.write record) fun _ =>
      Filed whole point front back :=
  .modify fun _ h => ⟨.elsewhere helsewhere h.lined,
    fun hwhole => tallied_append (h.tallied hwhole) hrecord, h.point⟩

/-- The run with its newest lookahead written down, though not yet there. -/
lemma awaits (hjoined : record.joined? = some id) (h : Filed whole point [] [] r) :
    Filed whole point [] [id] { r with log := r.log.append record } := by
  have hrecord : record ≠ .stepEnded := by
    rintro rfl
    cases hjoined
  refine ⟨?_, fun hwhole => tallied_append (h.tallied hwhole) hrecord, h.point⟩
  have hlined := Lined.joined hjoined h.lined
  rwa [List.nil_append, List.append_nil] at hlined

/-- A node joins the lookahead, and is then written down. -/
lemma joins {α : Type} {op : Op α} {R : α → Run → Prop} (hjoined : record.joined? = some id)
    (hop : Brings whole (Filed whole point [] []) op R) :
    Brings whole (Filed whole point [] []) (do putBack id; write record; op) R := by
  intro r h
  refine hop (r := { r with queue := r.queue ++ [id], log := r.log.append record }) ?_
  have hawaits := h.awaits hjoined
  refine ⟨?_, hawaits.tallied, h.point⟩
  rw [List.append_nil]
  exact hawaits.lined

/-- A tree is put in front of the lookahead, and is then written down. -/
lemma returns {α : Type} {op : Op α} {R : α → Run → Prop} {previous : StateId}
    {alternative : Nat} {more : Bool} (hop : Brings whole (Filed whole point [] []) op R) :
    Brings whole (Filed whole point [] [])
      (do putFront id; write (.reduced id previous alternative more); op)
      R :=
  fun r h => @hop { r with
      queue := id :: r.queue
      log := r.log.append (.reduced id previous alternative more) }
    ⟨.reduced h.lined, fun hwhole => tallied_append (h.tallied hwhole) nofun, h.point⟩

/-- The end of a step is written down, and counted. -/
lemma closes {α : Type} {op : Op α} {R : α → Run → Prop}
    (hop : Brings whole (Filed whole point [] []) op R) :
    Brings whole (Filed whole point [] [])
      (do write .stepEnded; modify fun r => { r with steps := r.steps + 1 }; op) R := by
  refine fun r h => @hop { r with log := r.log.append .stepEnded, steps := r.steps + 1 }
    ⟨.elsewhere rfl h.lined, fun hwhole => ?_, h.point⟩
  have htallied : r.steps = r.log.records.count .stepEnded := h.tallied hwhole
  exact (congrArg (· + 1) htallied).trans List.count_cons_self.symm

end Filed

/-! ## Going forward -/

/-- A run goes forward, or waits there for the entry that its status names. -/
def Proceeds (whole : Prop) (a : Option Status) (r : Run) : Prop :=
  match a with
  | none => Filed whole .start [] [] r
  | some status => ∃ point, point.entry = status.names ∧ Filed whole point [] [] r ∧
      (whole → ∀ target, point = .reverse (.step target) → target ≤ r.steps)

/-- The status with which acquiring gives control back, if it does. -/
def Acquired.answer? : Acquired → Option Status
  | .suspended status => some status
  | _ => none

section Forward

variable {whole : Prop} {m : Machine} {point : Point}

lemma brings_tookInput :
    Brings whole (Filed whole point [] []) tookInput fun _ => Filed whole point [] [] :=
  .look fun _ => .ite
    (fun _ => (Filed.notes rfl (by nofun)).bind fun _ => .modify fun _ h => by
      exact h.same ⟨rfl, rfl, rfl, rfl⟩)
    fun _ => .pure fun _ h => h

lemma brings_takeToken (m : Machine) (region : RegionId) (element : ElementId) (length : Nat) :
    Brings whole (Filed whole .start [] []) (takeToken m region element length)
      fun found => Proceeds whole found.answer? :=
  .look fun _ => (Filed.quiet (.onScanner _)).bind fun _ => brings_tookInput.bind fun _ => .ite
    (fun _ => (Filed.notes rfl (by nofun)).bind fun _ =>
      (Brings.modify fun _ h => by
        exact show Filed whole .generation [] [] _ from ⟨h.lined, h.tallied, rfl⟩).bind fun _ =>
      .pure fun _ h => ⟨_, rfl, h, by nofun⟩)
    fun _ => (Filed.quiet (.alloc _)).bind fun _ => (Filed.quiet (.tell _)).bind fun _ => .ite
      (fun _ => (Filed.quiet (.setAside _)).bind fun _ => (Filed.notes rfl (by nofun)).bind fun _ =>
        .pure fun _ h => h)
      fun _ => Filed.joins rfl (.pure fun _ h => h)

lemma brings_takeTree (region : RegionId) (id : NodeId) (ignore : Bool) :
    Brings whole (Filed whole .start [] []) (takeTree region id ignore)
      fun found => Proceeds whole found.answer? := by
  refine (Filed.quiet (.changeStream _)).bind fun _ => brings_tookInput.bind fun _ => ?_
  cases ignore with
  | true =>
    exact (Filed.notes rfl (by nofun)).bind fun _ => (Filed.quiet (.node _)).bind fun _ =>
      (Filed.quiet (.tell _)).bind fun _ => (Filed.quiet (.setAside _)).bind fun _ =>
      .pure fun _ h => h
  | false =>
    refine (Brings.modify fun _ h => h.awaits rfl).bind fun _ =>
      (Filed.quiet (.node _)).bind fun _ => (Filed.quiet (.tell _)).bind fun _ =>
      (Brings.modify fun _ h => ⟨?_, h.tallied, h.point⟩).bind fun _ => .pure fun _ h => h
    rw [List.append_nil]
    exact h.lined

lemma brings_meetEnd (m : Machine) (region : RegionId) :
    Brings whole (Filed whole .start [] []) (meetEnd m region) fun found =>
      Proceeds whole found.answer? :=
  .look fun _ => .ite
    (fun _ => (Filed.notes rfl (by nofun)).bind fun _ =>
      (Brings.modify fun _ h => by
        exact show Filed whole .preEof [] [] _ from ⟨h.lined, h.tallied, rfl⟩).bind fun _ =>
      .pure fun _ h => ⟨_, rfl, h, by nofun⟩)
    fun _ => (Filed.quiet (.alloc _)).bind fun _ => (Filed.quiet (.tell _)).bind fun _ =>
      Filed.joins rfl (.pure fun _ h => h)

lemma brings_acquireIn (m : Machine) (first : RegionId) (regions : List RegionId) :
    Brings whole (Filed whole .start [] []) (acquireIn m first regions)
      fun found => Proceeds whole found.answer? := by
  induction regions with
  | nil => exact .pure fun _ h => h
  | cons region rest ih =>
    refine (Filed.quiet (.onScanner _)).bind fun outcome => ?_
    cases outcome with
    | noToken => exact ih
    | eof => exact brings_meetEnd m region
    | tree id ignore => exact brings_takeTree region id ignore
    | token element length => exact brings_takeToken m region element length

lemma brings_acquire (m : Machine) :
    Brings whole (Filed whole .start [] []) (acquire m) fun found => Proceeds whole found.answer? :=
  .look fun _ => (Filed.quiet (.lookup _)).bind fun _ => brings_acquireIn m _ _

lemma brings_shift (m : Machine) (id : NodeId) (target : StateId) (alternative : Nat)
    (more : Bool) :
    Brings whole (fun r => Filed whole point [] [] r ∧ r.queue.head? = some id)
      (shift m id target alternative more) fun _ => Filed whole point [] [] := by
  have hshifted (previous : StateId) (ignored : Option NodeId) (r : Run)
      (h : Filed whole point [id] [] r) : Filed whole point [] [] { r with
        log := r.log.append (.shifted id previous ignored alternative more) } :=
    ⟨.shifted h.lined, fun hwhole => Filed.tallied_append (h.tallied hwhole) nofun, h.point⟩
  have hrest (below : Option NodeId) (previous : StateId) (ignored : Option NodeId) :
      Brings whole (Filed whole point [id] []) (do
        change id fun node => { node with state := target, next := below }
        modify fun r => { r with stack := some id }
        write (.shifted id previous ignored alternative more)
        modify fun r => { r with state := target }) fun _ => Filed whole point [] [] :=
    (Filed.quiet (.change _ _)).bind fun _ =>
      (Filed.quiet (.modify fun _ => by exact ⟨rfl, rfl, rfl, rfl⟩)).bind fun _ =>
      (Brings.modify (hshifted previous ignored)).bind fun _ =>
      Filed.quiet (.modify fun _ => by exact ⟨rfl, rfl, rfl, rfl⟩)
  refine (Brings.takeFront fun r h => ?_).bind fun _ => (Filed.quiet (.node id)).bind fun _ =>
    .look fun _ => .look fun _ => .look fun _ => .ite
      (fun _ => (Filed.quiet (.modify fun _ => by exact ⟨rfl, rfl, rfl, rfl⟩)).bind fun _ =>
        (Filed.quiet (.change _ _)).bind fun _ => hrest _ _ _)
      fun _ => hrest _ _ _
  obtain ⟨h, hhead⟩ := h
  obtain ⟨rest, hqueue⟩ := List.head?_eq_some_iff.1 hhead
  refine ⟨rest, hqueue, ?_, h.tallied, h.point⟩
  have hlined := h.lined
  rw [hqueue] at hlined
  exact hlined

lemma brings_reduce (m : Machine) (production : ProductionId) (alternative : Nat)
    (more commits : Bool) :
    Brings whole (Filed whole .start [] []) (reduce m production alternative more commits)
      (Proceeds whole) := by
  refine (Filed.quiet (.lookup _)).bind fun info => .look fun before => .look fun r =>
    .look fun _ =>
    (Filed.quiet (.lookup _)).bind fun unstacked => ?_
  cases unstacked with
  | error found => exact .fail fun _ h => h.fails rfl rfl
  | ok taken =>
    exact .look fun _ => (Filed.quiet (.lookup _)).bind fun span =>
      (Filed.quiet (.alloc _)).bind fun tree =>
        (Filed.quiet (Quiet.makes.linkSiblings _)).bind fun _ =>
      .look fun _ => (Filed.quiet (.lookup _)).bind fun state =>
      (Filed.quiet (.modify fun _ => by exact ⟨rfl, rfl, rfl, rfl⟩)).bind fun _ =>
      Filed.returns (.ite
        (fun _ => (Brings.modify fun _ h => by
          exact show Filed whole (.reduction production commits) [] [] _ from
            ⟨h.lined, h.tallied, rfl⟩).bind fun _ =>
          .pure fun _ h => ⟨_, rfl, h, by nofun⟩)
        fun _ => .pure fun _ h => h)

lemma brings_completeStep (m : Machine) (commits : Bool) :
    Brings whole (Filed whole .start [] []) (completeStep m commits) (Proceeds whole) := by
  have hcommit : Brings whole (Filed whole .start [] []) commit fun _ => Filed whole .start [] [] :=
    .look fun _ => (Filed.notes rfl (by nofun)).bind fun _ =>
      Filed.quiet (.modify fun _ => by exact ⟨rfl, rfl, rfl, rfl⟩)
  have hend : Brings whole (Filed whole .start [] []) (do
      let r ← get
      if ← lookup (atEnd m r) then
        modify fun r => { r with point := .done }
        return some .done
      else if r.stopping then
        modify fun r => { r with stopping := false }
        return some .stopped
      else if r.target = some r.steps then
        return some .paused
      else
        return none) (Proceeds whole) :=
    .look fun r => (Filed.quiet (.lookup _)).bind fun _ => .ite
      (fun _ => (Brings.modify fun _ h => by
        exact show Filed whole .done [] [] _ from ⟨h.lined, h.tallied, rfl⟩).bind fun _ =>
        .pure fun _ h => ⟨_, rfl, h, by nofun⟩)
      fun _ => .ite
        (fun _ => (Filed.quiet (.modify fun _ => by exact ⟨rfl, rfl, rfl, rfl⟩)).bind fun _ =>
          .pure fun _ h => ⟨_, rfl, h, by nofun⟩)
        fun _ => .ite (fun _ => .pure fun _ h => ⟨_, rfl, h, by nofun⟩)
          fun _ => .pure fun _ h => h
  unfold completeStep
  exact .ite (fun _ => hcommit.bind fun _ => Filed.closes hend) fun _ => Filed.closes hend

/-- A run that goes back to its last decision has books that are right, or the run goes forward. -/
def Turns (whole : Prop) (a : Option Status) (r : Run) : Prop :=
  Proceeds whole a r ∨ a = none ∧ Filed whole (.reverse .backtrack) [] [] r

lemma brings_turnBack {e : Error} (he : e.isInInput = true) :
    Brings whole (Filed whole .start [] []) (do turnBack e; return none) (Turns whole) := by
  refine .bind (Q := fun _ => Filed whole (.reverse .backtrack) [] []) ?_
    fun _ => .pure fun _ h => .inr ⟨rfl, h⟩
  refine (Filed.quiet (.tell _)).bind fun _ => .look fun r => .ite
    (fun _ => .modify fun _ h => ⟨h.lined, h.tallied, rfl⟩) fun _ => ?_
  refine .bind (Q := fun _ => Halts whole) (.modify fun _ h => ?_) fun _ => .fail fun _ h => ?_
  · exact ⟨⟨h.lined, h.tallied, rfl⟩, rfl⟩
  · refine ⟨?_, h.tallied, fun _ => ⟨he, h⟩⟩
    intro hlapse
    cases e <;> first | cases hlapse | cases he

lemma brings_act (m : Machine) (id : NodeId) (decision : Grammar.Decision) (target : StateId)
    (commits : Bool) :
    Brings whole (fun r => Filed whole .start [] [] r ∧ r.queue.head? = some id)
      (act m id decision target commits) (Proceeds whole) := by
  unfold act
  split
  · exact (brings_shift m id _ _ _).bind fun _ => .pure fun _ h => h
  · exact (brings_reduce m _ _ _ _).conseq (fun _ h => h.1) fun _ _ h => h
  · exact (brings_shift m id _ _ _).bind fun _ => brings_reduce m _ _ _ _

lemma brings_step (m : Machine) (id : NodeId) :
    Brings whole (fun r => Filed whole .start [] [] r ∧ r.queue.head? = some id) (step m id)
      (Turns whole) := by
  have hquiet {α : Type} {op : Op α} (hop : Quiet op) :
      Brings whole (fun r => Filed whole .start [] [] r ∧ r.queue.head? = some id) op
        fun _ r => Filed whole .start [] [] r ∧ r.queue.head? = some id := by
    refine fun r h => ⟨fun a s hrun => ?_, fun e s hrun => ((Filed.quiet hop) h.1).2 hrun⟩
    exact ⟨h.1.same ((hop r).ok hrun), ((hop r).ok hrun).queue ▸ h.2⟩
  refine (hquiet (.node id)).bind fun lookahead => .look fun r =>
    (hquiet (.lookup _)).bind fun decided => ?_
  cases decided with
  | none => exact (brings_turnBack rfl).conseq (fun _ h => h.1) fun _ _ h => h
  | some decision =>
    refine (hquiet (.tell _)).bind fun _ =>
      (hquiet (.modify fun _ => by exact ⟨rfl, rfl, rfl, rfl⟩)).bind fun _ =>
      (hquiet (.lookup _)).bind fun commits => (hquiet (.lookup _)).bind fun target =>
      (brings_act m id decision target _).bind fun a => ?_
    cases a with
    | some status => exact .pure fun _ h => .inl h
    | none => exact (brings_completeStep m _).conseq (fun _ h => h) fun _ _ h => .inl h

lemma brings_goForward (m : Machine) :
    Brings whole (Filed whole .start [] []) (goForward m) (Turns whole) := by
  refine .get fun r hr => ?_
  cases hqueue : r.queue with
  | cons id rest =>
    refine (brings_step m id).conseq (fun s hs => ⟨hs.1, ?_⟩) fun _ _ h => h
    rw [hs.2, hqueue]
    rfl
  | nil =>
    refine ((brings_acquire m).conseq (fun _ h => h.1) fun _ _ h => h).bind fun found => ?_
    cases found with
    | queued => exact .pure fun _ h => .inl h
    | skipped => exact .pure fun _ h => .inl h
    | suspended status => exact .pure fun _ h => .inl h
    | noToken region => exact .look fun _ => brings_turnBack rfl

end Forward

end Rewind.Run
