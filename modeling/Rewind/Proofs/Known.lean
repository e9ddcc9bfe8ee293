import Rewind.Proofs.Garbage
import Rewind.Proofs.Ranges
import Rewind.Proofs.Requests

/-!
# States that a run knows of

A run enters a state by a shift, which the tables lead to.  Any other state that it is ever in, it
knows from somewhere: from where the machine starts, from a node on its stack, or from a record of
its log.  So what holds of all states known, and of those which the tables lead to, stays so,
however nodes are shared and whatever fails, as long as it holds of each state that a pushed node
brings along.
-/

namespace Rewind.Run

open Attempt Op

namespace Keeps

variable {α β : Type} {I J : Run → Prop}

/-- An operation that begins with a look at the run. -/
lemma get_bind {f : Run → Op β} (h : ∀ q, I q → Keeps I J (f q)) :
    Keeps I J (MonadState.get >>= f) :=
  .intro fun r hr => ⟨fun _ _ hrun => (h r hr).ok hr hrun, fun _ _ hrun => (h r hr).error hr hrun⟩

/-- An operation that begins with a lookup. -/
lemma lookup_bind {x : Except Fault α} {f : α → Op β} (hJ : ∀ ⦃r : Run⦄, I r → J r)
    (h : ∀ a, x = .ok a → Keeps I J (f a)) : Keeps I J (Op.lookup x >>= f) := by
  cases x with
  | ok a =>
    exact .intro fun _ hr => ⟨fun _ _ hrun => (h a rfl).ok hr hrun,
      fun _ _ hrun => (h a rfl).error hr hrun⟩
  | error f =>
    refine .intro fun r hr => ⟨fun a s hrun => ?_, fun x s hrun => ?_⟩
    · cases hrun
    · cases hrun
      exact hJ hr

end Keeps

/-- The state in which the decision was taken that a record tells of. -/
def Record.previous? : Record → Option StateId
  | .shifted _ previous _ _ _ => some previous
  | .reduced _ previous _ _ => some previous
  | _ => none

/-- The states that hold of `P` are enough for the machine: it starts in one, its tables lead to no
others, and a node that is made has one. -/
structure Admits (m : Machine) (P : StateId → Prop) : Prop where
  fresh : P 0
  start : P m.start
  target : ∀ (transition : Nat) (target : StateId), m.grammar.targets[transition]? = some target →
    P target

/-- Every state that the run knows of holds of `P`: its own, those of its nodes, and those in its
log. -/
structure Knows (P : StateId → Prop) (r : Run) : Prop where
  state : P r.state
  nodes : ∀ id n, Pool.get? r.forest id = some n → P n.state
  log : ∀ record ∈ r.log.records, ∀ previous, record.previous? = some previous → P previous

namespace Knows

variable {m : Machine} {P Q : StateId → Prop} {r s : Run} {α : Type}

/-! ## Small operations -/

lemma keep (h : Knows P r) (hstate : s.state = r.state) (hforest : s.forest = r.forest)
    (hlog : s.log = r.log) : Knows P s :=
  ⟨hstate ▸ h.state, hforest ▸ h.nodes, hlog ▸ h.log⟩

lemma fewer {forest : Forest} (h : Knows P r)
    (hfewer : Fewer (Pool.get? r.forest) (Pool.get? forest)) : Knows P { r with forest } :=
  ⟨h.state, fun id n hn => h.nodes id n (hfewer id n hn), h.log⟩

lemma put (h : Knows P r) {n : Node} (hn : P n.state) (id : NodeId) :
    Knows P { r with forest := r.forest.put id n } := by
  refine ⟨h.state, fun j n' hn' => ?_, h.log⟩
  by_cases hj : j = id
  · subst hj
    have hlive := Pool.lt_size_of_get? hn'
    simp only [Pool.put, Array.size_setIfInBounds] at hlive
    simp only [Pool.get?, Pool.put] at hn'
    rw [Array.getElem?_setIfInBounds_self_of_lt hlive] at hn'
    cases hn'
    exact hn
  · exact h.nodes j n' ((Pool.get?_put_of_ne hj).symm.trans hn')

/-- Nothing else that a run has is a state. -/
lemma elsewhere (h : Knows P r) (scanner : Scanner) (stack : Option NodeId)
    (queue : List NodeId) (aside : Option NodeId) (bindings : Bindings)
    (steps retries retry barrier : Nat) (point : Point)
    (stopping halted aborted rejecting endActionRan : Bool) (events : List Event) :
    Knows P { r with
      scanner, stack, queue, aside, bindings, steps, retries, retry, barrier, point, stopping
      halted, aborted, rejecting, endActionRan, events } :=
  h.keep rfl rfl rfl

lemma tell (event : Event) : Keeps (Knows P) (Knows P) (Op.tell event) :=
  .modify fun _ h => h.elsewhere ..

lemma write {record : Record}
    (h : ∀ previous, record.previous? = some previous → P previous) :
    Keeps (Knows P) (Knows P) (Op.write record) := by
  refine .modify fun r hr => ⟨hr.state, hr.nodes, fun x hx => ?_⟩
  rcases List.mem_cons.1 hx with rfl | hx
  · exact h
  · exact hr.log x hx

lemma enterState {state : StateId} (h : P state) :
    Keeps (Knows P) (Knows P) (modify fun r => { r with state }) :=
  .modify fun _ hr => ⟨h, hr.nodes, hr.log⟩

lemma onScanner (x : Attempt Scanner.Error Scanner α) : Keeps (Knows P) (Knows P) (onScanner x) :=
  .onScanner (fun _ _ h => h.keep rfl rfl rfl) x

lemma change (id : NodeId) {f : Node → Node}
    (hf : ∀ n, P n.state → P (f n).state) :
    Keeps (Knows P) (Knows P) (Op.change id f) := by
  refine .of_left fun r hr => ?_
  unfold Op.change
  cases hn : Pool.get? r.forest id with
  | some n => exact hr.put (hf n (hr.nodes id n hn)) id
  | none => exact hr

lemma alloc {n : Node} (hn : P n.state) : Keeps (Knows P) (Knows P) (Op.alloc n) := by
  refine .of_left fun r hr => ?_
  unfold Op.alloc Pool.alloc
  cases Pool.full? r.forest with
  | some e => exact hr
  | none =>
    simp only
    unfold Pool.place
    cases r.forest.released with
    | nil =>
      refine ⟨hr.state, fun j n' hn' => ?_, hr.log⟩
      simp only [Result.left, Pool.get?, Array.getElem?_push] at hn'
      by_cases hj : j = r.forest.slots.size
      · rw [if_pos hj] at hn'
        cases hn'
        exact hn
      · rw [if_neg hj] at hn'
        exact hr.nodes j n' hn'
    | cons id rest =>
      have hput := hr.put hn id
      exact ⟨hput.state, hput.nodes, hput.log⟩

lemma vacate (h : Knows P r) (id : NodeId) : Knows P { r with forest := r.forest.vacate id } := by
  refine h.fewer fun j n hn => ?_
  by_cases hj : j = id
  · rw [hj, Pool.get?_vacate_self] at hn
    cases hn
  · rwa [Pool.get?_vacate_of_ne hj] at hn

lemma release (id : NodeId) : Keeps (Knows P) (Knows P) (Op.release id) := by
  refine .of_left fun r hr => ?_
  unfold Op.release
  cases Pool.get? r.forest id with
  | some n => exact hr.vacate id
  | none => exact hr

lemma releaseTree (id : NodeId) : Keeps (Knows P) (Knows P) (Op.releaseTree id) := by
  refine .of_left fun r hr => ?_
  unfold Op.releaseTree
  cases hfree : Forest.freeTree r.forest id with
  | ok forest => exact hr.fewer (Forest.swept_freeAll hfree).fewer
  | error f => exact hr

lemma putBack (id : NodeId) : Keeps (Knows P) (Knows P) (Op.putBack id) :=
  .modify fun _ h => h.elsewhere ..

lemma putFront (id : NodeId) : Keeps (Knows P) (Knows P) (Op.putFront id) :=
  .modify fun _ h => h.elsewhere ..

lemma takeFront (id : NodeId) : Keeps (Knows P) (Knows P) (Op.takeFront id) :=
  .look fun _ => .ite (Law.Governs.modify fun _ h => h.elsewhere ..) (Keeps.fail _)

lemma takeBack (id : NodeId) : Keeps (Knows P) (Knows P) (Op.takeBack id) :=
  .look fun _ => .ite (Law.Governs.modify fun _ h => h.elsewhere ..) (Keeps.fail _)

lemma setAside (id : NodeId) : Keeps (Knows P) (Knows P) (Op.setAside id) :=
  .look fun _ => (change id (by exact fun _ h => h)).bind fun _ =>
    .modify fun _ h => h.elsewhere ..

/-! ## Going forward -/

lemma tookInput : Keeps (Knows P) (Knows P) tookInput :=
  .look fun _ => .ite
    ((write (by nofun)).bind fun _ => .modify fun _ h => h.elsewhere ..) (.pure _)

section Forward

variable (h0 : P 0)

include h0

lemma takeToken (region : RegionId) (element : ElementId) (length : Nat) :
    Keeps (Knows P) (Knows P) (takeToken m region element length) := by
  refine .look fun _ => (onScanner _).bind fun text => tookInput.bind fun _ => .ite ?_ ?_
  · exact (write (by nofun)).bind fun _ =>
      (Law.Governs.modify fun _ h => h.elsewhere ..).bind fun _ => .pure _
  · refine (alloc h0).bind fun id => (tell _).bind fun _ => .ite ?_ ?_
    · exact (setAside id).bind fun _ => (write (by nofun)).bind fun _ => .pure _
    · exact (putBack id).bind fun _ => (write (by nofun)).bind fun _ => .pure _

omit h0 in
lemma takeTree (region : RegionId) (id : NodeId) (ignore : Bool) :
    Keeps (Knows P) (Knows P) (takeTree region id ignore) := by
  refine (onScanner _).bind fun _ => tookInput.bind fun _ => (write (by nofun)).bind fun _ =>
    (Keeps.node id).bind fun _ => (tell _).bind fun _ => .ite ?_ ?_
  · exact (setAside id).bind fun _ => .pure _
  · exact (putBack id).bind fun _ => .pure _

lemma meetEnd (region : RegionId) : Keeps (Knows P) (Knows P) (meetEnd m region) := by
  refine .look fun _ => .ite ?_ ?_
  · exact (write (by nofun)).bind fun _ =>
      (Law.Governs.modify fun _ h => h.elsewhere ..).bind fun _ => .pure _
  · exact (alloc h0).bind fun id => (tell _).bind fun _ => (putBack id).bind fun _ =>
      (write (by nofun)).bind fun _ => .pure _

lemma acquire : Keeps (Knows P) (Knows P) (acquire m) := by
  refine .look fun q => (Keeps.lookup _).bind fun regions => ?_
  generalize regions.headD 0 = first
  induction regions with
  | nil => exact .pure _
  | cons region regions ih =>
    refine (onScanner _).bind fun outcome => ?_
    cases outcome with
    | noToken => exact ih
    | eof => exact meetEnd h0 region
    | tree id ignore => exact takeTree region id ignore
    | token element length => exact takeToken h0 region element length

end Forward

lemma shift {target : StateId} (htarget : P target) (id : NodeId)
    (alternative : Nat) (more : Bool) :
    Keeps (Knows P) (Knows P) (shift m id target alternative more) := by
  refine (takeFront id).bind fun _ => (Keeps.node id).bind fun lookahead => .look fun _ =>
    .look fun _ => Keeps.get_bind fun q hq => ?_
  have hrest (ignored below : Option NodeId) : Keeps (Knows P) (Knows P) (do
      Op.change id fun node => { node with state := target, next := below }
      modify fun r => { r with stack := some id }
      Op.write (.shifted id q.state ignored alternative more)
      modify fun r => { r with state := target }) := by
    refine (change id fun _ _ => htarget).bind fun _ =>
      (Law.Governs.modify fun _ h => h.elsewhere ..).bind
      fun _ => (write fun previous hprevious => ?_).bind fun _ => enterState htarget
    cases hprevious
    exact hq.state
  refine .ite ?_ (hrest _ _)
  exact (Law.Governs.modify fun _ h => h.elsewhere ..).bind fun _ =>
    (change id (by exact fun _ h => h)).bind fun _ =>
    hrest _ _

lemma linkSiblings (ids : List NodeId) : Keeps (Knows P) (Knows P) (linkSiblings ids) := by
  induction ids with
  | nil => exact .pure _
  | cons id ids ih => exact (change id (by exact fun _ h => h)).bind fun _ => ih

/-- The state of what is left of the stack is known. -/
lemma stateOf (hstart : P m.start) (h : Knows P r) {top : Option NodeId}
    {state : StateId} (hstate : stateOf m r.forest top = .ok state) : P state := by
  cases top with
  | none =>
    cases hstate
    exact hstart
  | some top =>
    obtain ⟨n, hread, hn⟩ := Except.bind_eq_ok.1 hstate
    cases hn
    exact h.nodes top n (read_eq_ok.1 hread)

lemma reduce (hP : Admits m P) (production : ProductionId) (alternative : Nat)
    (more commits : Bool) :
    Keeps (Knows P) (Knows P) (reduce m production alternative more commits) := by
  refine (Keeps.lookup _).bind fun info => Keeps.get_bind fun q hq => .look fun _ => .look fun _ =>
    (Keeps.lookup _).bind fun found => ?_
  cases found with
  | error found => exact Keeps.fail _
  | ok found =>
    refine .look fun _ => (Keeps.lookup _).bind fun span =>
      (alloc hP.fresh).bind fun tree =>
      (linkSiblings _).bind fun _ => Keeps.get_bind fun t ht =>
        Keeps.lookup_bind (fun _ h => h) fun state hstate =>
      (Law.Governs.modify fun r hr => ?_).bind fun _ => (putFront tree).bind fun _ =>
      (write fun previous hprevious => ?_).bind fun _ => .ite ?_ (.pure _)
    · exact ⟨ht.stateOf hP.start hstate, hr.nodes, hr.log⟩
    · cases hprevious
      exact hq.state
    · exact (Law.Governs.modify fun _ h => h.elsewhere ..).bind fun _ => .pure _

lemma completeStep (commits : Bool) : Keeps (Knows P) (Knows P) (completeStep m commits) := by
  have hclosed (r : Run) (hr : Knows P r) : Knows P (closed commits r) := by
    cases commits with
    | true =>
      have hwritten := (@write P (.committed r.barrier r.retries) nofun).left hr
      exact hwritten.keep rfl rfl rfl
    | false => exact hr
  have hend : Keeps (Knows P) (Knows P) (endStep m) :=
    (write (by nofun)).bind fun _ => (Law.Governs.modify fun _ h => h.elsewhere ..).bind fun _ =>
      .look fun _ => (Keeps.lookup _).bind fun _ =>
      .ite ((Law.Governs.modify fun _ h => h.elsewhere ..).bind fun _ => .pure _)
        (.ite ((Law.Governs.modify fun _ h => h.elsewhere ..).bind fun _ => .pure _)
          (.ite (.pure _) (.pure _)))
  refine .intro fun r hr => ?_
  rw [completeStep_eq]
  exact ⟨fun _ _ h => hend.ok (hclosed r hr) h, fun _ _ h => hend.error (hclosed r hr) h⟩

lemma turnBack (e : Error) : Keeps (Knows P) (Knows P) (turnBack e) :=
  (tell _).bind fun _ => .look fun _ => .ite
    (Law.Governs.modify fun _ h => h.elsewhere ..)
    ((Law.Governs.modify fun _ h => h.elsewhere ..).bind fun _ => Keeps.fail _)

section Steps

variable (hP : Admits m P)

include hP

lemma step (id : NodeId) : Keeps (Knows P) (Knows P) (step m id) := by
  refine (Keeps.node id).bind fun n => .look fun _ => (Keeps.lookup _).bind fun found => ?_
  cases found with
  | none => exact (turnBack _).bind fun _ => .pure _
  | some decision =>
    refine (tell _).bind fun _ => (Law.Governs.modify fun _ h => h.elsewhere ..).bind fun _ =>
      (Keeps.lookup _).bind fun commits => Keeps.lookup_bind (fun _ h => h) fun target htarget => ?_
    have hadmitted : P target := hP.target _ target (entry_eq_ok_iff.1 htarget)
    have hact : Keeps (Knows P) (Knows P) (act m id decision target (commits ≠ 0)) := by
      unfold Run.act
      cases decision.action with
      | shift => exact (shift hadmitted id _ _).bind fun _ => .pure _
      | reduce production => exact reduce hP production _ _ _
      | shiftReduce production =>
        exact (shift hadmitted id _ _).bind fun _ => reduce hP production _ _ _
    refine hact.bind fun status => ?_
    cases status with
    | some status => exact .pure _
    | none => exact completeStep _

lemma goForward : Keeps (Knows P) (Knows P) (goForward m) := by
  refine .look fun q => ?_
  cases q.queue with
  | cons id rest => exact step hP id
  | nil =>
    refine (acquire hP.fresh).bind fun found => ?_
    cases found with
    | noToken region => exact .look fun _ => (turnBack _).bind fun _ => .pure _
    | _ => exact .pure _

end Steps

/-! ## Taking back -/

lemma unscan (id : NodeId) (start : Position) : Keeps (Knows P) (Knows P) (unscan id start) := by
  refine (release id).bind fun found => ?_
  cases found with
  | none => exact onScanner _
  | some n => exact onScanner _

lemma restack (ids : List NodeId) : Keeps (Knows P) (Knows P) (restack ids) := by
  induction ids with
  | nil => exact .pure _
  | cons id ids ih =>
    exact .look fun _ => (change id (by exact fun _ h => h)).bind fun _ =>
      (Law.Governs.modify fun _ h => h.elsewhere ..).bind fun _ => ih

lemma takeBackDecision (alternative : Nat) (more : Bool) :
    Keeps (Knows P) (Knows P) (takeBackDecision alternative more) :=
  .ite ((Law.Governs.modify fun _ h => h.elsewhere ..).bind fun _ => .pure _) (.pure _)

/-- A state that is gone back to was in the log. -/
lemma undo {record : Record} (h0 : P 0)
    (h : ∀ previous, record.previous? = some previous → P previous) :
    Keeps (Knows P) (Knows P) (undo record) := by
  cases record with
  | scanned id start => exact (takeBack id).bind fun _ => (unscan id start).bind fun _ => .pure _
  | setAside id start =>
    exact (Keeps.node id).bind fun _ => (Law.Governs.modify fun _ h => h.elsewhere ..).bind fun _ =>
      (unscan id start).bind fun _ => .pure _
  | treeTaken id ignore =>
    cases ignore with
    | true =>
      exact (Keeps.node id).bind fun _ =>
        (Law.Governs.modify fun _ h => h.elsewhere ..).bind fun _ =>
        (change id (by exact fun _ h => h)).bind fun _ => (onScanner _).bind fun _ => .pure _
    | false => exact (takeBack id).bind fun _ => (onScanner _).bind fun _ => .pure _
  | consumed text start => exact (onScanner _).bind fun _ => .pure _
  | sent id => exact (takeBack id).bind fun _ => (releaseTree id).bind fun _ => .pure _
  | textPushed count => exact (onScanner _).bind fun _ => .pure _
  | treePushed id => exact (onScanner _).bind fun _ => (release id).bind fun _ => .pure _
  | shifted id previous ignored alternative more =>
    have hprevious := h previous rfl
    refine (Keeps.node id).bind fun _ =>
      (Law.Governs.modify fun _ h => h.elsewhere ..).bind fun _ =>
      (change id fun _ _ => h0).bind fun _ => .ite ?_ ?_
    · exact (change id (by exact fun _ h => h)).bind fun _ =>
        (Law.Governs.modify fun _ h => h.elsewhere ..).bind fun _ =>
        (putFront id).bind fun _ => (enterState hprevious).bind fun _ =>
        takeBackDecision alternative more
    · exact (putFront id).bind fun _ => (enterState hprevious).bind fun _ =>
        takeBackDecision alternative more
  | reduced tree previous alternative more =>
    exact (takeFront tree).bind fun _ => .look fun _ => (Keeps.lookup _).bind fun _ =>
      (restack _).bind fun _ => (release tree).bind fun _ =>
      (enterState (h previous rfl)).bind fun _ => takeBackDecision alternative more
  | bound name previous =>
    exact (Law.Governs.modify fun _ h => h.elsewhere ..).bind fun _ => .pure _
  | dropped chain => exact (Law.Governs.modify fun _ h => h.elsewhere ..).bind fun _ => .pure _
  | committed barrier retries =>
    exact (Law.Governs.modify fun _ h => h.elsewhere ..).bind fun _ => .pure _
  | endActionMarked previous =>
    exact (Law.Governs.modify fun _ h => h.elsewhere ..).bind fun _ => .pure _
  | action data => exact .pure _
  | stepEnded => exact (Law.Governs.modify fun _ h => h.elsewhere ..).bind fun _ => .pure _

/-- Records that were in the log are taken back. -/
lemma unwind (h0 : P 0) {goal : Goal} {records : List Record}
    (h : ∀ record ∈ records, ∀ previous, record.previous? = some previous → P previous) :
    Keeps (Knows P) (Knows P) (unwind m goal records) := by
  have hsettled : Keeps (Knows P) (Knows P) (do return some (← settle m) : Op (Option Status)) := by
    refine Law.Governs.bind ?_ fun _ => .pure _
    exact .look fun _ => (Keeps.lookup _).bind fun _ =>
      (Law.Governs.modify fun _ h => h.elsewhere ..).bind fun _ => .look fun _ => .pure _
  induction records with
  | nil =>
    rw [Run.unwind]
    exact .look fun _ => .ite hsettled (.look fun _ => Keeps.fail _)
  | cons record older ih =>
    rw [Run.unwind]
    have holder : ∀ x ∈ older, ∀ previous, x.previous? = some previous → P previous :=
      fun x hx => h x (List.mem_cons_of_mem _ hx)
    refine .look fun _ => .ite hsettled
      ((Law.Governs.modify fun r hr => ⟨hr.state, hr.nodes, holder⟩).bind fun _ =>
        (tell _).bind fun _ =>
      (undo h0 (h record List.mem_cons_self)).bind fun taken => ?_)
    cases taken with
    | action data => exact .pure _
    | plain => cases goal <;> exact ih holder
    | decision alternative =>
      cases goal with
      | step target => exact ih holder
      | backtrack =>
        exact (Law.Governs.modify fun _ h => h.elsewhere ..).bind fun _ => .pure _

/-! ## Turns and requests -/

section Turns

variable (hP : Admits m P)

include hP

lemma turn : Keeps (Knows P) (Knows P) (turn m) := by
  refine Keeps.get_bind fun q hq => ?_
  cases q.point with
  | start => exact goForward hP
  | reverse goal => exact unwind hP.fresh hq.log
  | done => exact .pure _
  | _ => exact Keeps.fail _

omit hP in
lemma enter (entry : Entry) : Keeps (Knows P) (Knows P) (enter m entry) := by
  have hspan : Keeps (Knows P) (Knows P) frontSpan := by
    refine .look fun q => ?_
    cases q.queue with
    | nil => exact .pure _
    | cons tree rest => exact (Keeps.node tree).bind fun _ => .pure _
  have hresume (production : ProductionId) (commits : Bool) :
      Keeps (Knows P) (Knows P) (resumeReduction m production commits) :=
    (Law.Governs.modify fun _ h => h.elsewhere ..).bind fun _ => .look fun _ => .ite
      ((Law.Governs.modify fun _ h => h.elsewhere ..).bind fun _ => hspan.bind fun _ =>
        (turnBack _).bind fun _ => .pure _) (completeStep commits)
  refine .look fun q => ?_
  cases q.point with
  | reduction production commits =>
    cases entry with
    | reduction => exact .ite (Keeps.fail _) (hresume production commits)
    | _ => exact .ite (Keeps.fail _) (Keeps.fail _)
  | _ =>
    cases entry <;> first
      | exact .pure _
      | exact .ite (Keeps.fail _) (.pure _)
      | exact .ite (Keeps.fail _) (Keeps.fail _)
      | exact .ite (Keeps.fail _)
          ((Law.Governs.modify fun _ h => h.elsewhere ..).bind fun _ => .pure _)

lemma resume (turns : Nat) (entry : Entry) : Keeps (Knows P) (Knows P) (resume m turns entry) := by
  refine (enter entry).bind fun a => ?_
  cases a with
  | some status => exact .pure _
  | none => exact (turn hP).takeTurns (fun _ h => h) turns

lemma goBack (target : Nat) : Keeps (Knows P) (Knows P) (goBack m target) := by
  refine .look fun q => .ite (Keeps.fail _) ?_
  cases q.point with
  | reverse goal => exact Keeps.fail _
  | _ =>
    exact (Law.Governs.modify fun _ h => h.elsewhere ..).bind fun _ =>
      (turn hP).takeTurns (fun _ h => h) 1

/-- Whatever is asked for, no other states are known, unless a node is pushed that brings one along,
or nodes are edited. -/
lemma perform (turns : Nat) {request : Request}
    (hpush : ∀ tree ignore, request = .pushTree tree ignore → P tree.state)
    (hedit : ∀ edit, request ≠ .editNodes edit) :
    Keeps (Knows P) (Knows P) (perform m turns request) := by
  have hguarded {op : Op Status} (h : Keeps (Knows P) (Knows P) op) :
      Keeps (Knows P) (Knows P) (unlessAborted op) :=
    h.unlessAborted fun _ _ _ hr => hr.keep rfl rfl rfl
  have hbind (name : VariableId) (id : NodeId) : Keeps (Knows P) (Knows P) (Run.bind name id) :=
    .look fun _ => (write (by nofun)).bind fun _ => .modify fun _ h => h.elsewhere ..
  cases request with
  | attach stream => exact (onScanner _).bind fun _ => .pure _
  | detach => exact (onScanner _).bind fun _ => .pure _
  | parse entry => exact (hguarded (resume hP turns entry)).bind fun _ => .pure _
  | undoTo target => exact (hguarded (goBack hP target)).bind fun _ => .pure _
  | pushText text =>
    exact (Law.Governs.ite ((onScanner _).bind fun _ => write (by nofun)) (.pure _)).bind
      fun _ => .pure _
  | pushTree tree ignore =>
    refine Law.Governs.bind ?_ fun _ => .pure _
    exact (onScanner _).bind fun _ => (alloc (hpush tree ignore rfl)).bind fun _ =>
      (onScanner _).bind fun _ => (write (by nofun)).bind fun _ => .pure _
  | queueToken element text name =>
    refine Law.Governs.bind ?_ fun _ => .pure _
    refine (alloc hP.fresh).bind fun id => (putBack id).bind fun _ =>
      (write (by nofun)).bind fun _ => ?_
    cases name with
    | none => exact .pure _
    | some name => exact (hbind name id).bind fun _ => .pure _
  | bind name id => exact (hbind name id).bind fun _ => .pure _
  | leaveData data => exact (write (by nofun)).bind fun _ => .pure _
  | dropAside =>
    refine Law.Governs.bind ?_ fun _ => .pure _
    exact .look fun _ => (write (by nofun)).bind fun _ => .modify fun _ h => h.elsewhere ..
  | reject =>
    refine Law.Governs.bind (Keeps.of_left fun r hr => ?_) fun _ => .pure _
    unfold rejectNow reject
    cases r.point with
    | reduction production commits => exact hr.keep rfl rfl rfl
    | _ => exact hr
  | giveUpLog =>
    refine Law.Governs.bind (Keeps.of_left fun r hr => ?_) fun _ => .pure _
    rw [giveUpLog, get_bind]
    cases hrelease : (r.log.records.filterMap Record.dropped?).foldlM releaseChain r.forest with
    | error f => exact hr
    | ok forest =>
      have hleft := hr.fewer (swept_releaseChains hrelease).2.fewer
      exact ⟨hleft.state, hleft.nodes, fun record hrecord => by cases hrecord⟩
  | editNodes edit => exact absurd rfl (hedit edit)

end Turns

end Knows

end Rewind.Run
