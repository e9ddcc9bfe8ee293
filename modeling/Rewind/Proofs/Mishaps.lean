import Rewind.Proofs.Calls
import Rewind.Proofs.Climbing

/-!
# Operations that stop short

An operation that fails may leave its work half done.  None leaves a node that belongs nowhere: what
can fail comes before any node is changed, and once nodes are changed an operation goes on to its
end.
-/

namespace Rewind.Run

open Attempt Op

/-- No node was changed, and each is where it was, but perhaps for what is left of the stream.
The log tells of the same trees. -/
structure Unmoved (r s : Run) : Prop where
  forest : s.forest = r.forest
  stack : s.stack = r.stack
  queue : s.queue = r.queue
  aside : s.aside = r.aside
  state : s.state = r.state
  dropped : s.log.records.filterMap Record.dropped? = r.log.records.filterMap Record.dropped?
  trees : s.log.records.filterMap Record.tree? = r.log.records.filterMap Record.tree?

lemma Unmoved.refl (r : Run) : Unmoved r r :=
  ⟨rfl, rfl, rfl, rfl, rfl, rfl, rfl⟩

lemma Unmoved.trans {r s t : Run} (h : Unmoved r s) (h' : Unmoved s t) : Unmoved r t :=
  ⟨h'.forest.trans h.forest, h'.stack.trans h.stack, h'.queue.trans h.queue,
    h'.aside.trans h.aside, h'.state.trans h.state, h'.dropped.trans h.dropped,
    h'.trees.trans h.trees⟩

/-! ## Operations that never fail -/

/-- The law to report no error. -/
def Law.sure : Law where
  ok _ _ := True
  error _ _ _ := False
  fault _ _ _ := True

instance composes_sure : Law.sure.Composes where
  refl _ := trivial
  ok _ _ _ _ _ := trivial
  error _ _ _ _ _ h := h
  fault _ _ _ _ _ _ := trivial

/-- The operation never fails. -/
abbrev Sure {α : Type} (op : Op α) : Prop :=
  Law.sure.Governs op

variable {α β : Type} {m : Machine}

namespace Sure

lemma not_error {op : Op α} {r s : Run} {e : Error} (h : Sure op) :
    op r ≠ .error (.error e) s :=
  fun hrun => (h r).error hrun

lemma modify (f : Run → Run) : Sure (modify f) := Law.Governs.modify fun _ => trivial

lemma write (record : Record) : Sure (Op.write record) := modify _

lemma tell (event : Event) : Sure (Op.tell event) := modify _

lemma lookup (x : Except Fault α) : Sure (Op.lookup x) := Law.Governs.lookup fun _ _ _ => trivial

lemma completes : Law.sure.Completes where
  forest _ _ := trivial
  links _ _ _ := trivial
  point _ _ _ := trivial
  counts _ _ _ := trivial
  steps _ _ := trivial
  stopping _ _ := trivial
  writes := ⟨fun _ _ _ => trivial⟩

lemma edits : Law.sure.Edits := completes.toEdits

lemma putBack (id : NodeId) : Sure (Op.putBack id) := modify _

lemma putFront (id : NodeId) : Sure (Op.putFront id) := modify _

lemma setAside (id : NodeId) : Sure (Op.setAside id) :=
  .look fun _ => (edits.change _ _).bind fun _ => modify _

end Sure

/-! ## Operations that move no node -/

/-- The law to move no node, whether that fails or not. -/
def Law.still : Law where
  ok := Unmoved
  error r _ s := Unmoved r s
  fault _ _ _ := True

instance composes_still : Law.still.Composes where
  refl := .refl
  ok _ _ _ := .trans
  error _ _ _ _ := .trans
  fault _ _ _ _ _ _ := trivial

/-- The operation moves no node, whether it fails or not. -/
abbrev Still {α : Type} (op : Op α) : Prop :=
  Law.still.Governs op

namespace Still

lemma fail (e : Error) : Still (Op.fail e : Op α) := Law.Governs.fail fun r => .refl r

lemma lookup (x : Except Fault α) : Still (Op.lookup x) := Law.Governs.lookup fun _ _ _ => trivial

lemma node (id : NodeId) : Still (Op.node id) := .look fun _ => lookup _

lemma modify {f : Run → Run} (h : ∀ r, Unmoved r (f r)) : Still (modify f) := Law.Governs.modify h

lemma tells : Law.still.Tells :=
  ⟨fun _ _ => ⟨rfl, rfl, rfl, rfl, rfl, rfl, rfl⟩⟩

lemma write {record : Record} (hdropped : record.dropped? = none) (htree : record.tree? = none) :
    Still (Op.write record) :=
  .modify fun _ => ⟨rfl, rfl, rfl, rfl, rfl, List.filterMap_cons_none hdropped,
    List.filterMap_cons_none htree⟩

lemma onScanner (x : Attempt Scanner.Error Scanner α) : Still (Op.onScanner x) :=
  have hunmoved (r : Run) (scanner : Scanner) : Unmoved r { r with scanner } :=
    ⟨rfl, rfl, rfl, rfl, rfl, rfl, rfl⟩
  Law.Governs.onScanner hunmoved (fun r _ => hunmoved r) (fun _ _ _ => trivial) x

lemma tookInput : Still tookInput := by
  refine .look fun r => .ite ?_ (.pure _)
  exact (write rfl rfl).bind fun _ => .modify fun _ => ⟨rfl, rfl, rfl, rfl, rfl, rfl, rfl⟩

lemma turnBack (e : Error) : Still (turnBack e) := by
  refine (tells.tell _).bind fun _ => .look fun r => .ite ?_ ?_
  · exact modify fun _ => ⟨rfl, rfl, rfl, rfl, rfl, rfl, rfl⟩
  · exact (modify fun _ => by exact ⟨rfl, rfl, rfl, rfl, rfl, rfl, rfl⟩).bind fun _ => fail e

lemma frontSpan : Still frontSpan := by
  refine .look fun r => ?_
  cases r.queue with
  | nil => exact .pure _
  | cons tree rest => exact (node tree).bind fun _ => .pure _

end Still

/-! ## Operations that move no node before they fail -/

/-- Where the operation fails, it has not moved a node. -/
def Careful {α : Type} (op : Op α) : Prop :=
  ∀ ⦃r s : Run⦄ ⦃e : Error⦄, op r = .error (.error e) s → Unmoved r s

namespace Careful

lemma still {x : Op α} (h : Still x) : Careful x :=
  fun r _ _ hrun => (h r).error hrun

lemma sure {x : Op α} (h : Sure x) : Careful x :=
  fun _ _ _ hrun => absurd hrun h.not_error

lemma bind {x : Op α} {f : α → Op β} (hx : Still x) (hf : ∀ a, Careful (f a)) :
    Careful (x >>= f) := by
  intro r s e h
  rcases bind_eq_error.1 h with hrun | ⟨a, t, hrun, h1⟩
  · exact (hx r).error hrun
  · exact ((hx r).ok hrun).trans (hf a h1)

/-- What never fails may move nodes behind what may fail. -/
lemma last {x : Op α} {f : α → Op β} (hx : Careful x) (hf : ∀ a, Sure (f a)) :
    Careful (x >>= f) := by
  intro r s e h
  rcases bind_eq_error.1 h with hrun | ⟨a, t, -, h1⟩
  · exact hx hrun
  · exact absurd h1 (hf a).not_error

lemma look {f : Run → Op β} (h : ∀ r, Careful (f r)) : Careful (MonadState.get >>= f) :=
  fun r _ _ hrun => h r hrun

lemma ite {p : Prop} [Decidable p] {x y : Op α} (hx : Careful x) (hy : Careful y) :
    Careful (if p then x else y) := by
  split
  · exact hx
  · exact hy

lemma alloc (n : Node) : Careful (Op.alloc n) := by
  intro r s e h
  rw [alloc_error h]
  exact .refl r

lemma takeFront (id : NodeId) : Careful (Op.takeFront id) :=
  look fun _ => ite (sure (.modify _)) (still (.fail _))

lemma takeToken (region : RegionId) (element : ElementId) (length : Nat) :
    Careful (takeToken m region element length) := by
  refine look fun r => bind (.onScanner _) fun text => bind .tookInput fun _ => ite ?_ ?_
  · exact sure ((Sure.write _).bind fun _ => (Sure.modify _).bind fun _ => .pure _)
  · refine (alloc _).last fun id => (Sure.tell _).bind fun _ => .ite ?_ ?_
    · exact (Sure.setAside _).bind fun _ => (Sure.write _).bind fun _ => .pure _
    · exact (Sure.putBack _).bind fun _ => (Sure.write _).bind fun _ => .pure _

lemma takeTree (region : RegionId) (id : NodeId) (ignore : Bool) :
    Careful (takeTree region id ignore) := by
  refine bind (.onScanner _) fun _ => bind .tookInput fun _ => sure ?_
  refine (Sure.write _).bind fun _ => (Sure.edits.node _).bind fun _ => (Sure.tell _).bind fun _ =>
    .ite ?_ ?_
  · exact (Sure.setAside _).bind fun _ => .pure _
  · exact (Sure.putBack _).bind fun _ => .pure _

lemma meetEnd (region : RegionId) : Careful (meetEnd m region) := by
  refine look fun r => ite ?_ ?_
  · exact sure ((Sure.write _).bind fun _ => (Sure.modify _).bind fun _ => .pure _)
  · exact (alloc _).last fun id => (Sure.tell _).bind fun _ => (Sure.putBack _).bind fun _ =>
      (Sure.write _).bind fun _ => .pure _

lemma acquireIn (first : RegionId) (regions : List RegionId) :
    Careful (acquireIn m first regions) := by
  induction regions with
  | nil => exact still (.pure _)
  | cons region rest ih =>
    refine bind (.onScanner _) fun outcome => ?_
    cases outcome with
    | noToken => exact ih
    | eof => exact meetEnd region
    | tree id ignore => exact takeTree region id ignore
    | token element length => exact takeToken region element length

lemma acquire : Careful (acquire m) :=
  look fun _ => bind (.lookup _) fun _ => acquireIn _ _

lemma shift (id : NodeId) (target : StateId) (alternative : Nat) (more : Bool) :
    Careful (shift m id target alternative more) := by
  refine (takeFront id).last fun _ => (Sure.edits.node _).bind fun _ => .look fun _ =>
    .look fun _ => .look fun _ => .ite ?_ ?_
  · exact (Sure.modify _).bind fun _ => (Sure.edits.change _ _).bind fun _ =>
      (Sure.edits.change _ _).bind fun _ => (Sure.modify _).bind fun _ =>
      (Sure.write _).bind fun _ => Sure.modify _
  · exact (Sure.edits.change _ _).bind fun _ => (Sure.modify _).bind fun _ =>
      (Sure.write _).bind fun _ => Sure.modify _

lemma reduce (production : ProductionId) (alternative : Nat) (more commits : Bool) :
    Careful (reduce m production alternative more commits) := by
  refine bind (.lookup _) fun info => look fun _ => look fun _ => look fun _ =>
    bind (.lookup _) fun found => ?_
  cases found with
  | error count => exact still (.fail _)
  | ok found =>
    obtain ⟨children, below⟩ := found
    refine look fun _ => bind (.lookup _) fun span => (alloc _).last fun tree => ?_
    refine (Sure.edits.linkSiblings _).bind fun _ => .look fun _ => (Sure.lookup _).bind fun _ =>
      (Sure.modify _).bind fun _ => (Sure.putFront _).bind fun _ => (Sure.write _).bind fun _ => ?_
    exact .ite ((Sure.modify _).bind fun _ => .pure _) (.pure _)

lemma resumeReduction (production : ProductionId) (commits : Bool) :
    Careful (resumeReduction m production commits) := by
  refine bind (.modify fun _ => by exact ⟨rfl, rfl, rfl, rfl, rfl, rfl, rfl⟩) fun _ =>
    look fun r => ite ?_ (sure (Sure.completes.completeStep commits))
  refine still ((Still.modify fun _ => by
    exact ⟨rfl, rfl, rfl, rfl, rfl, rfl, rfl⟩).bind fun _ => ?_)
  exact Still.frontSpan.bind fun span => (Still.turnBack _).bind fun _ => .pure _

lemma enter (entry : Entry) : Careful (enter m entry) := by
  refine look fun r => ?_
  split
  · exact still (.pure _)
  · exact still (.pure _)
  · refine ite (still (.fail _)) ?_
    split
    · exact still (.pure _)
    · exact resumeReduction _ _
    · exact sure ((Sure.modify _).bind fun _ => .pure _)
    · exact sure ((Sure.modify _).bind fun _ => .pure _)
    · exact still (.fail _)

end Careful

end Rewind.Run
