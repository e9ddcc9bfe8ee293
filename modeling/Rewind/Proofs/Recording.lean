import Rewind.Proofs.Frame
import Rewind.Proofs.Reversals
import Rewind.Proofs.Slots
import Rewind.Shape

/-!
# Every change is recorded

Whatever is done with a run, it goes from change to change, and a record tells of each of them.  So
every run that can be reached is logged, and taking back its records gives back, one after the
other, the runs that were about to change.
-/

namespace Rewind.Run

open Attempt Op

variable {m : Machine} {record : Record} {r s t q : Run} {a : Option Status} {id : NodeId}
  {n : Node}

/-! ## What changes leave alone -/

lemma alone_same (hforest : s.forest = r.forest) : LeavesAlone record r s :=
  ⟨fun id _ _ => by rw [hforest], fun id n _ hn => ⟨n, hforest ▸ hn, rfl⟩⟩

/-- A node was made, and may have been changed since. -/
lemma alone_alloc {forest : Forest} (ht : Tidy False r) (ho : Orderly r.view)
    (halloc : Pool.alloc r.forest n = (.ok id, forest))
    (helsewhere : ∀ j, j ≠ id → Pool.get? s.forest j = Pool.get? forest j) :
    LeavesAlone record r s := by
  obtain ⟨hvacant, hnodes⟩ := Pool.get?_of_alloc ht.pool halloc
  have hsame : ∀ j, j ≠ id → Pool.get? s.forest j = Pool.get? r.forest j := fun j hj => by
    rw [helsewhere j hj, hnodes, Function.update_of_ne hj]
  refine ⟨fun j hj _ => hsame j ?_, fun j n' _ hn' => ⟨n', (hsame j ?_).trans hn', rfl⟩⟩
  · rintro rfl
    exact ho.not_waiting (shown_eq_none_iff.2 hvacant) hj
  · rintro rfl
    rw [hvacant] at hn'
    cases hn'

/-- A node was changed that waits no more. -/
lemma alone_put {n' : Node} (hn : Pool.get? r.forest id = some n)
    (hforest : s.forest = r.forest.put id n') (hout : id ∉ s.waiting)
    (hstate : record.shifted? ≠ some id → n'.state = n.state) : LeavesAlone record r s := by
  refine ⟨fun j _ hj => ?_, fun j n'' hother hn'' => ?_⟩
  · rw [hforest]
    exact Pool.get?_put_of_ne fun heq => hout (heq ▸ hj)
  · rw [hforest]
    by_cases hj : j = id
    · subst hj
      cases hn.symm.trans hn''
      exact ⟨n', Pool.get?_put_self hn, hstate hother⟩
    · exact ⟨n'', (Pool.get?_put_of_ne hj).trans hn'', rfl⟩

/-- A tree was made of nodes that do not wait. -/
lemma alone_made {tree : NodeId} {children : List NodeId} (ho : Orderly r.view)
    (hmade : Made r tree children n s.forest) : LeavesAlone record r s := by
  have hne {j : NodeId} (hlive : (Pool.get? r.forest j).isSome) : j ≠ tree := by
    rintro rfl
    rw [hmade.vacant] at hlive
    cases hlive
  refine ⟨fun j hj _ => hmade.elsewhere (hne ?_) fun hmem => (hmade.apart j hmem).2 hj,
    fun j n' _ hn' => ?_⟩
  · rw [← isSome_shown]
    exact ho.live j hj
  · have hunlinked := hmade.relinked.unlinked j
    rw [Function.update_of_ne (hne (hn' ▸ rfl)), hn'] at hunlinked
    obtain ⟨n'', hn'', hsame⟩ := Option.map_eq_some_iff.1 hunlinked
    have hstate := congrArg Node.state hsame
    exact ⟨n'', hn'', hstate⟩

/-! ## Logged runs -/

/-- There is a juncture for every record of the log. -/
def Registered (m : Machine) (r : Run) : Prop :=
  ∃ past, Logged m past r

namespace Registered

lemma tidy (h : Registered m r) : Tidy False r :=
  h.elim fun _ hr => hr.recorded.toTidy

lemma orderly (h : Registered m r) : Orderly r.view :=
  h.elim fun _ hr => hr.recorded.orderly

/-- Nothing is different that a record could tell of. -/
lemma still (h : Registered m r) (hlog : s.log = r.log) (hview : s.view = r.view)
    (hforest : s.forest = r.forest) (hscanner : s.scanner = r.scanner) : Registered m s := by
  obtain ⟨past, hr⟩ := h
  refine ⟨past, hr.quiet ⟨hlog, hview, hforest, ?_, hscanner ▸ hr.recorded.attached⟩⟩
  exact Nat.le_of_eq (by rw [unread, unread, hscanner])

/-- A single record was written. -/
lemma wrote (h : Registered m r) (hmoves : Moves m False (fun _ _ => True) r s)
    (hlog : s.log = r.log.append record) (halone : LeavesAlone record r s) : Registered m s := by
  obtain ⟨past, hr⟩ := h
  have hpath := hmoves.path
  rw [hlog] at hpath
  exact ⟨_, hr.changed ⟨halone, hlog, hpath.of_single, hmoves.unread, hmoves.tidy⟩⟩

/-- The node that the record names was changed. -/
lemma put {n' : Node} (h : Registered m r) (hmoves : Moves m False (fun _ _ => True) r s)
    (hlog : s.log = r.log.append record) (hleaves : record.leaves? = some id)
    (hn : Pool.get? r.forest id = some n) (hforest : s.forest = r.forest.put id n')
    (hstate : record.shifted? ≠ some id → n'.state = n.state) : Registered m s := by
  have hpath := hmoves.path
  rw [hlog] at hpath
  exact h.wrote hmoves hlog
    (alone_put hn hforest (hpath.of_single.left h.orderly hleaves).2 hstate)

lemma settings (h : Registered m r) (target : Option Nat) (stopping rejecting : Bool)
    (events : List Event) : Registered m { r with target, stopping, rejecting, events } :=
  h.still rfl rfl rfl rfl

/-- The latest record is taken back, which gives back a juncture. -/
lemma undone {older : List Record} (h : Registered m r) (hlog : r.log.records = record :: older)
    (events : List Event) : ∃ s, undo record { r with log := ⟨older⟩, events } =
      .ok record.takenBack s ∧ Registered m s ∧ s.log.records = older := by
  obtain ⟨past, hr⟩ := h
  obtain ⟨p, before, s, rfl, hundo, -, hrecords, -⟩ := hr.recorded.undone hlog events
  exact ⟨s, hundo, ⟨_, hr.undone hlog hundo⟩, hrecords⟩

/-! ## Acquiring -/

lemma rescans (h : Registered m r) (hrescans : Rescans r s) : Registered m s := by
  have ht := h.tidy.rescans hrescans
  have hview := view_rescans hrescans
  have hunread := hrescans.content.2.2
  obtain ⟨stream, rest, scanner, -, -, -, rfl⟩ := hrescans
  exact h.elim fun past hr => ⟨past, hr.quiet ⟨rfl, hview, rfl, hunread, ht.attached⟩⟩

lemma marked (h : Registered m r) : Registered m (marked r) := by
  have hmoves : Moves m False (fun _ _ => True) r (Run.marked r) := moves_marked h.tidy
  unfold Run.marked at hmoves ⊢
  split
  · rename_i hran
    rw [if_pos hran] at hmoves
    exact h.wrote hmoves rfl (alone_same rfl)
  · exact h

lemma acquires {found : Acquired} (h : Registered m r) (hqueue : r.queue = [])
    (hacquires : Acquires m r found s) : Registered m s := by
  have hmarked := h.marked
  have ht := hmarked.tidy
  have ho := hmarked.orderly
  obtain ⟨hscanner, -, hqueue', -⟩ := sameCourse_marked r
  rw [hqueue] at hqueue'
  have hstream {stream : Stream} (hs : r.scanner.stream = some stream) :
      (Run.marked r).scanner.stream = some stream := by rw [hscanner, hs]
  cases hacquires with
  | consumed _ hgenerates hnames hs htakes =>
    rw [← position_marked] at ⊢
    exact hmarked.wrote ((writes_consumed ht (hstream hs) rfl htakes hqueue'
      ⟨hnames.1, hnames.2, hgenerates⟩ .generation).moves (by simp)) rfl (alone_same rfl)
  | skipped _ _ _ hnames hs htakes halloc =>
    rw [← position_marked] at halloc ⊢
    exact hmarked.wrote ((writes_setAside ht ho (hstream hs) rfl htakes hqueue' hnames
      halloc _).moves (by simp)) rfl (alone_alloc ht ho halloc fun _ hj => Pool.get?_put_of_ne hj)
  | queued _ _ _ hnames hs htakes halloc =>
    rw [← position_marked] at halloc ⊢
    exact hmarked.wrote ((writes_scanned ht ho (hstream hs) rfl htakes hqueue'
      (.inl hnames) halloc _).moves (by simp)) rfl (alone_alloc ht ho halloc fun _ _ => rfl)
  | treeSkipped _ hs hcontent hposition hunread hn =>
    exact hmarked.put (moves_treeSetAside ht ho (hstream hs) rfl hcontent hposition hunread hqueue'
      hn _) rfl rfl hn rfl fun _ => rfl
  | treeQueued _ hs hcontent hposition hunread _ =>
    exact hmarked.wrote (moves_treeQueued ht (hstream hs) rfl hcontent hposition hunread
      hqueue' _) rfl (alone_same rfl)
  | preEof _ _ _ hran =>
    exact h.wrote ((writes_endActionMarked h.tidy true hran _).moves (by simp)) rfl
      (alone_same rfl)
  | ended _ hempty _ halloc =>
    obtain ⟨stream, hs⟩ := h.tidy.stream
    exact h.wrote ((writes_scanned h.tidy h.orderly hs hs (takes_nothing stream) hqueue
      (.inr ⟨rfl, rfl, hempty⟩) halloc _).moves (by simp)) rfl
      (alone_alloc h.tidy h.orderly halloc fun _ _ => rfl)
  | noToken _ _ => exact h

/-! ## Stepping -/

section Act

variable {decision : Grammar.Decision} {target : StateId} {production : ProductionId}
  {alternative : Nat} {more commits : Bool}

/-- A shift, with the decision for it. -/
lemma shift {u : Unit} (h : Registered m r) (hn : Pool.get? r.forest id = some n)
    (hshifts : Shifts m r.state n.element decision.alternative decision.more target)
    (hshift : shift m id target decision.alternative decision.more (decided n.element decision r) =
      .ok u s) : Registered m s := by
  obtain ⟨rest, n', hqueue, hn', rfl⟩ := shift_ok hshift
  obtain rfl : n = n' := Option.some.inj (hn.symm.trans hn')
  exact h.put ((writes_shifted h.tidy h.orderly hqueue hn hshifts _ _).moves (by simp)) rfl rfl hn
    rfl fun hother => absurd rfl hother

/-- A reduction, with the decision for it. -/
lemma reduce (h : Registered m r)
    (hq : q = { r with
      events := q.events
      retry := q.retry
      retries := if more then r.retries + 1 else r.retries })
    (hreduce : reduce m production alternative more commits q = .ok a s) : Registered m s := by
  have hmoves : Moves m False (fun _ _ => True) r s :=
    (moves_reduce h.tidy h.orderly hq hreduce).1
  obtain ⟨info, children, below, span, tree, made, linked, state, -, hunstack, -, halloc, hlink,
    -, -, rfl⟩ := reduce_ok hreduce
  have hforest : q.forest = r.forest := by rw [hq]
  have hstack : q.stack = r.stack := by rw [hq]
  have hlog : q.log = r.log := by rw [hq]
  rw [hforest, hstack] at hunstack
  rw [hforest] at halloc
  have hmade := made_of_unstack h.tidy h.orderly hunstack halloc (hlink _ rfl)
  exact h.wrote hmoves (congrArg (Journal.append · _) hlog) (alone_made h.orderly hmade)

/-- What was decided is done, and the step is not completed yet. -/
lemma act (h : Registered m r) (hn : Pool.get? r.forest id = some n)
    (hdecide : m.grammar.decide r.state n.element r.retry = .ok (some decision))
    (htarget : m.grammar.targets[decision.transition]? = some target)
    (hact : act m id decision target commits (decided n.element decision r) = .ok a s) :
    Registered m s := by
  have hshifts (hshift : decision.action = .shift ∨
      ∃ production, decision.action = .shiftReduce production) :
      Shifts m r.state n.element decision.alternative decision.more target :=
    ⟨decision, by rw [decide_alternative hdecide, hdecide], rfl, htarget, hshift⟩
  unfold Run.act at hact
  cases haction : decision.action with
  | shift =>
    rw [haction] at hact
    obtain ⟨u, t, hrun, h1⟩ := bind_eq_ok.1 hact
    obtain ⟨rfl, rfl⟩ := EStateM.Result.ok.inj h1
    exact h.shift hn (hshifts (.inl haction)) hrun
  | reduce production =>
    rw [haction] at hact
    exact h.reduce rfl hact
  | shiftReduce production =>
    rw [haction] at hact
    obtain ⟨u, t, hrun, h1⟩ := bind_eq_ok.1 hact
    exact (h.shift hn (hshifts (.inr ⟨_, haction⟩)) hrun).reduce rfl h1

end Act

/-- The step is completed, which may commit. -/
lemma completeStep {commits : Bool} (h : Registered m r)
    (hcomplete : completeStep m commits r = .ok a s) : Registered m s := by
  have hclosed : Registered m (closed commits r) := by
    cases commits with
    | true => exact h.wrote ((writes_committed h.tidy).moves (by simp)) rfl (alone_same rfl)
    | false => exact h
  have hstepped : Registered m (stepped commits r) :=
    hclosed.wrote ((writes_stepEnded hclosed.tidy).moves fun _ => trivial) rfl (alone_same rfl)
  obtain ⟨reached, -, ⟨-, -, rfl⟩ | ⟨-, -, -, rfl⟩ | ⟨-, -, -, rfl⟩⟩ := completeStep_ok hcomplete
  · exact hstepped.still rfl rfl rfl rfl
  · exact hstepped.still rfl rfl rfl rfl
  · exact hstepped

lemma turned {e : Error} (h : Registered m r) : Registered m (turned e r) :=
  h.still rfl rfl rfl rfl

lemma stuck {e : Error} (h : Registered m r) : Registered m (stuck e r) :=
  h.still rfl rfl rfl rfl

lemma forwards (h : Registered m r) (hforwards : Forwards m r a s) : Registered m s := by
  have hacquired {t : Run} {found : Acquired} (hqueue : r.queue = []) (hrescans : Rescans r t)
      (hacquires : Acquires m t found s) : Registered m s := by
    have hqueue' : t.queue = r.queue := by
      obtain ⟨stream, rest, scanner, -, -, -, rfl⟩ := hrescans
      rfl
    exact (h.rescans hrescans).acquires (hqueue'.trans hqueue) hacquires
  cases hforwards with
  | stepped hqueue hsteps =>
    cases hsteps with
    | refused _ _ _ => exact h.turned
    | suspended hn hdecide _ htarget hact => exact h.act hn hdecide htarget hact
    | completed hn hdecide _ htarget hact hcomplete =>
      exact (h.act hn hdecide htarget hact).completeStep hcomplete
  | acquired hqueue hrescans hacquires =>
    exact hacquires.elim (hacquired hqueue hrescans) (hacquired hqueue hrescans)
  | suspended hqueue hrescans hacquires => exact hacquired hqueue hrescans hacquires
  | refused hqueue hrescans _ _ => exact (h.rescans hrescans).turned

lemma goForward (h : Registered m r) (hlasts : Lasts (goForward m) r s) : Registered m s := by
  have ht := h.tidy
  rcases hlasts with ⟨a, hrun⟩ | ⟨e, he, hrun⟩
  · exact h.forwards (goForward_ok ht.pool ht.attached hrun)
  · obtain ⟨t, -, rfl, ⟨id, rest, n, -, -, -, -, rfl⟩ | ⟨region, -, hrescans, -, -⟩⟩ :=
      goForward_error ht.pool ht.attached he hrun
    · exact h.stuck
    · exact (h.rescans hrescans).stuck

/-! ## Taking back -/

lemma settle {status : Status} (h : Registered m r) (hsettle : settle m r = .ok status s) :
    Registered m s := by
  rw [settle_ok h.orderly] at hsettle
  cases hsettle
  exact h.still rfl rfl rfl rfl

lemma unwind {goal : Goal} {records : List Record} (h : Registered m r)
    (hlog : r.log.records = records) (hunwind : unwind m goal records r = .ok a s) :
    Registered m s := by
  induction records generalizing r with
  | nil =>
    rw [Run.unwind, get_bind] at hunwind
    split at hunwind
    · obtain ⟨status, t, hsettle, h1⟩ := bind_eq_ok.1 hunwind
      cases h1
      exact h.settle hsettle
    · cases hunwind
  | cons record older ih =>
    rw [Run.unwind, get_bind] at hunwind
    split at hunwind
    · obtain ⟨status, t, hsettle, h1⟩ := bind_eq_ok.1 hunwind
      cases h1
      exact h.settle hsettle
    · obtain ⟨t, hundo, ht, hrest⟩ := h.undone hlog (.undone record :: r.events)
      rw [modify_bind, tell_bind, bind_ok hundo] at hunwind
      cases htaken : record.takenBack with
      | plain =>
        simp only [htaken] at hunwind
        exact ih ht hrest hunwind
      | action data =>
        simp only [htaken] at hunwind
        cases hunwind
        exact ht
      | decision alternative =>
        simp only [htaken] at hunwind
        cases goal with
        | step target => exact ih ht hrest hunwind
        | backtrack =>
          cases hunwind
          exact ht.still rfl rfl rfl rfl

/-! ## Parsing -/

lemma turn (h : Registered m r) (hlasts : Lasts (turn m) r s) : Registered m s := by
  rcases lasts_turn hlasts with ⟨hforward, -⟩ | ⟨goal, -, ⟨a, hrun⟩ | ⟨e, he, hrun⟩⟩ | rfl
  · exact h.goForward hforward
  · exact h.unwind rfl hrun
  · rw [grave_unwind m goal r.log.records hrun] at he
    cases he
  · exact h

lemma enter {entry : Entry} (h : Registered m r) (hlasts : Lasts (enter m entry) r s) :
    Registered m s := by
  have hstart (rejecting : Bool) : Registered m { r with point := .start, rejecting } :=
    h.still rfl rfl rfl rfl
  rcases hlasts with ⟨a, henter⟩ | ⟨e, he, henter⟩
  · cases enter_ok henter with
    | done _ => exact h
    | back _ => exact h
    | start _ _ => exact h
    | action _ _ => exact hstart r.rejecting
    | reduction _ _ hresume =>
      rcases resumeReduction_ok hresume with ⟨-, -, -, span, rfl⟩ | ⟨-, hcomplete⟩
      · exact (hstart false).turned
      · exact (hstart r.rejecting).completeStep hcomplete
  · rcases enter_error he henter with ⟨-, -, rfl⟩ | ⟨production, commits, -, -, hresume⟩
    · exact h
    · obtain ⟨-, -, span, -, rfl, -⟩ := resumeReduction_error he hresume
      exact (hstart false).stuck

end Registered

theorem steady_registered (m : Machine) : Steady m (Registered m) where
  enter _ _ _ h hlasts := h.enter hlasts
  turn _ _ h hlasts := h.turn hlasts
  events r events h := h.settings r.target r.stopping r.rejecting events

/-! ## Calls -/

namespace Registered

lemma bound (h : Registered m r) (name : VariableId) (id : NodeId) : Registered m { r with
    log := r.log.append (.bound name (r.bindings.get? name))
    bindings := r.bindings.insert name id } :=
  h.wrote (moves_bound h.tidy name id) rfl (alone_same rfl)

lemma pushText {text : Bytes} (h : Registered m r) (hpush : Ends (pushText text) r s) :
    Registered m s := by
  obtain ⟨stream, hs⟩ := h.tidy.stream
  rcases hpush with ⟨u, hpush⟩ | ⟨e, hpush⟩
  · rw [pushText_apply hs] at hpush
    cases hpush
    split
    · exact h
    · exact h.wrote (moves_textPushed h.tidy hs) rfl (alone_same rfl)
  · rw [pushText_apply hs] at hpush
    cases hpush

lemma pushTree {tree : Node} {ignore : Bool} (h : Registered m r)
    (hpush : Ends (pushTree tree ignore) r s) : Registered m s := by
  obtain ⟨stream, hs⟩ := h.tidy.stream
  rcases pushTree_ends hs hpush with rfl | ⟨slot, forest, halloc, rfl⟩
  · exact h
  · exact h.wrote (moves_treePushed h.tidy h.orderly hs nofun halloc) rfl
      (alone_alloc h.tidy h.orderly halloc fun _ _ => rfl)

lemma queueToken {element : ElementId} {text : Bytes} {name : Option VariableId}
    (h : Registered m r) (hqueue : Ends (queueToken element text name) r s) : Registered m s := by
  rcases hqueue with ⟨slot, hqueue⟩ | ⟨e, hqueue⟩
  · rw [Run.queueToken] at hqueue
    obtain ⟨id, t, hmake, h1⟩ := bind_eq_ok.1 hqueue
    obtain ⟨forest, halloc, rfl⟩ := alloc_eq_ok.1 hmake
    have hsent : Registered m { r with
        forest, queue := r.queue ++ [id], log := r.log.append (.sent id) } :=
      h.wrote (moves_sent h.tidy h.orderly halloc) rfl
        (alone_alloc h.tidy h.orderly halloc fun _ _ => rfl)
    simp only [putBack, modify_bind, write_bind] at h1
    cases name with
    | none =>
      cases h1
      exact hsent
    | some name =>
      cases h1
      exact hsent.bound name _
  · rw [Run.queueToken] at hqueue
    rcases bind_eq_error.1 hqueue with hfail | ⟨id, t, hmake, h1⟩
    · obtain rfl := alloc_error hfail
      exact h
    · cases name <;> cases h1

lemma aimed (h : Registered m r) (goal : Goal) : Registered m { r with point := .reverse goal } :=
  h.still rfl rfl rfl rfl

/-- Nothing was dropped, so the log is all that is given up. -/
lemma giveUpLog {u : Unit} (h : Registered m r) (hspared : ∀ id, r.Discarded id → ¬r.Needs id)
    (hgive : giveUpLog r = .ok u s) : Registered m s :=
  h.elim fun _ hr => ⟨_, hr.gaveUp hspared hgive⟩

/-- Whatever a sparing caller does, the run stays logged. -/
lemma call {call : Call} (h : Registered m r) (hpermitted : call.IsPermitted true r)
    (hcall : call.Leads m r s) (halive : s.aborted = false) : Registered m s := by
  cases call with
  | parse turns entry => exact (steady_registered m).parse h hcall halive
  | undoTo target => exact (steady_registered m).undoTo (h.aimed _) hcall halive
  | giveUpLog =>
    rcases hcall with ⟨u, hgive⟩ | ⟨e, hgive⟩
    · exact h.giveUpLog (hpermitted.2 rfl) hgive
    · exact absurd hgive giveUpLog_ne_error
  | attach stream =>
    -- A stream is attached already, and refuses another.
    obtain ⟨attached, hattached⟩ := h.tidy.stream
    rcases hcall with ⟨u, hrun⟩ | ⟨e, hrun⟩
    · unfold Run.attach onScanner Scanner.attach at hrun
      rw [hattached] at hrun
      cases hrun
    · unfold Run.attach onScanner Scanner.attach at hrun
      rw [hattached] at hrun
      cases hrun
      exact h
  | pushText text => exact h.pushText hcall
  | pushTree tree ignore => exact h.pushTree hcall
  | queueToken element text name => exact h.queueToken hcall
  | bind name id =>
    rcases hcall with ⟨u, hrun⟩ | ⟨e, hrun⟩ <;> cases hrun
    exact h.bound name id
  | leaveData data =>
    rcases hcall with ⟨u, hrun⟩ | ⟨e, hrun⟩ <;> cases hrun
    exact h.wrote (moves_action h.tidy data) rfl (alone_same rfl)
  | dropAside =>
    rcases hcall with ⟨u, hrun⟩ | ⟨e, hrun⟩ <;> cases hrun
    exact h.wrote (moves_dropped h.tidy) rfl (alone_same rfl)
  | reject =>
    rcases hcall with ⟨u, hrun⟩ | ⟨e, hrun⟩
    · unfold Run.reject at hrun
      split at hrun <;> cases hrun
      exact h.settings r.target r.stopping true r.events
    · unfold Run.reject at hrun
      split at hrun <;> cases hrun
      exact h
  | stop =>
    cases hcall
    exact h.settings r.target true r.rejecting r.events
  | pauseAt target =>
    cases hcall
    exact h.settings target r.stopping r.rejecting r.events
  | takeEvents =>
    cases hcall
    exact h.settings r.target r.stopping r.rejecting []

end Registered

/-- Every run that a sparing caller can reach is logged. -/
theorem reached_registered (h : Reached m true r) : Registered m r := by
  generalize hsparing : true = sparing at h
  induction h with
  | initial => cases hsparing
  | fresh hfresh => exact ⟨[], .fresh hfresh⟩
  | call _ hpermitted hcall halive ih =>
    subst hsparing
    exact (ih rfl).call hpermitted hcall halive
  | @passed _ call _ _ _ hs ih =>
    cases call with
    | parse turns entry => exact (steady_registered m).passed (ih hsparing) hs
    | _ => cases hs
  | aimed _ _ _ ih => exact (ih hsparing).aimed _
  | undone _ _ _ hlog hundo _ ih =>
    obtain ⟨t, hundo', ht, -⟩ := (ih hsparing).undone hlog _
    obtain ⟨-, rfl⟩ := EStateM.Result.ok.inj (hundo.symm.trans hundo')
    exact ht

/-! ## Taking back record by record -/

/-- Takes back so many records, the latest first. -/
def retract : Nat → Op Unit
  | 0 => return
  | count + 1 => do
    match (← get).log.records with
    | [] => return
    | record :: older =>
      modify fun r => { r with log := ⟨older⟩ }
      tell (.undone record)
      let _ ← undo record
      retract count

/-- The run is as it was at a juncture, but that taking back has cleared some nodes. -/
structure Regains (p : Juncture) (s : Run) : Prop where
  log : s.log.records = p.run.log.records
  state : s.state = p.run.state
  steps : s.steps = p.run.steps
  stack : s.stack = p.run.stack
  queue : s.queue = p.run.queue
  aside : s.aside = p.run.aside
  bindings : s.bindings = p.run.bindings
  barrier : s.barrier = p.run.barrier
  retries : s.retries = p.run.retries
  endActionRan : s.endActionRan = p.run.endActionRan
  content : s.content = p.run.content
  position : s.position = p.run.position
  nodes : ∀ id, Pool.get? s.forest id = (Pool.get? p.run.forest id).map (cleared p.undone id)

lemma Regains.of_view {p : Juncture} (hlog : s.log.records = p.run.log.records)
    (hview : s.view = p.run.view) (hnodes : Pool.get? s.forest = p.nodes) : Regains p s := by
  obtain ⟨hstate, hsteps, hstack, hqueue, haside, -, hbindings, hbarrier, hretries, hend, hitems,
    hposition⟩ := View.ext_iff.1 hview
  exact ⟨hlog, hstate, hsteps, hstack, hqueue, haside, hbindings, hbarrier, hretries, hend, hitems,
    hposition, congrFun hnodes⟩

/-- A node is what it was, but perhaps if it waited, was in a chain or in a state already, and was
taken from there by a change that was taken back. -/
lemma Regains.node {p : Juncture} (h : Regains p s) (hn : Pool.get? p.run.forest id = some n)
    (hkept : n.loose = n ∨ ∀ record ∈ p.undone, record.leaves? ≠ some id) :
    Pool.get? s.forest id = some n := by
  rw [h.nodes, hn, Option.map_some]
  rcases hkept with hloose | hother
  · rw [cleared_of_loose hloose]
  · rw [cleared_of_ne hother]

/-- The latest record is taken back, which regains its juncture. -/
lemma Logged.latest {p : Juncture} {past : List Juncture} (h : Logged m (p :: past) r) :
    ∃ record older s, r.log.records = record :: older ∧ s.log.records = older ∧
      (∀ count, retract (count + 1) r = retract count s) ∧
      Logged m (past.map (Juncture.note record)) s ∧ Regains (p.note record) s := by
  have hlength : 0 < r.log.records.length := by
    rw [← h.recorded.trail.length_eq]
    exact Nat.succ_pos _
  obtain ⟨record, older, hlog⟩ := List.exists_cons_of_length_pos hlength
  obtain ⟨p', before, s, hpast, hundo, -, hrecords, hview, hnodes, hjuncture⟩ :=
    h.recorded.undone hlog (.undone record :: r.events)
  obtain ⟨rfl, rfl⟩ := List.cons.inj hpast
  refine ⟨record, older, s, hlog, hrecords, fun count => ?_, h.undone hlog hundo,
    .of_view (hrecords.trans hjuncture.symm) hview hnodes⟩
  rw [retract, get_bind]
  simp only [hlog, modify_bind, tell_bind]
  exact bind_ok hundo _

/-- A logged run takes back its records one by one, and regains one juncture after the other. -/
lemma Logged.retracts {past : List Juncture} {p : Juncture} {count : Nat} (h : Logged m past r)
    (hp : past[count]? = some p) : ∃ s, retract (count + 1) r = .ok () s ∧
      Regains { p with undone := (r.log.records.take (count + 1)).reverse ++ p.undone } s := by
  induction count generalizing r past p with
  | zero =>
    obtain ⟨past, rfl⟩ := List.head?_eq_some_iff.1 (List.head?_eq_getElem? .. ▸ hp)
    obtain ⟨record, older, s, hlog, -, hretract, -, hregains⟩ := h.latest
    rw [hlog]
    exact ⟨s, hretract 0, hregains⟩
  | succ count ih =>
    obtain _ | ⟨q, past⟩ := past
    · cases hp
    obtain ⟨record, older, t, hlog, hrecords, hretract, ht, -⟩ := h.latest
    have hbefore : (past.map (Juncture.note record))[count]? = some (p.note record) := by
      rw [List.getElem?_map, ← List.getElem?_cons_succ, hp, Option.map_some]
    obtain ⟨s, hrest, hregains⟩ := ih ht hbefore
    refine ⟨s, (hretract _).trans hrest, ?_⟩
    rw [hrecords] at hregains
    rw [hlog, List.take_succ_cons, List.reverse_cons, List.append_assoc]
    exact hregains

/-- The run has been followed from change to change.  However that was done, there is a juncture for
each record of the log, and taking back as many records as are newer, and the record itself, regains
it. -/
structure Reversible (m : Machine) (r : Run) : Prop where
  followed : Registered m r
  regains : ∀ past, Logged m past r → past.length = r.log.length ∧
    ∀ count p, past[count]? = some p → ∃ s, retract (count + 1) r = .ok () s ∧
      Regains { p with undone := (r.log.records.take (count + 1)).reverse ++ p.undone } s

/-- Whatever trees a sparing caller pushes, its runs take back their changes, one by one. -/
theorem records_reversed (h : Reached m true r) : Reversible m r :=
  ⟨reached_registered h, fun _ hr =>
    ⟨hr.recorded.trail.length_eq, fun _ _ hp => hr.retracts hp⟩⟩

/-- A tree that has entered a state before is pushed, and is put on the stack at last. -/
theorem records_reversed_letter : ∃ r, Reached letterMachine true r ∧
    Record.shifted 1 2 none 0 false ∈ r.log.records ∧ Reversible letterMachine r := by
  have hqueue := Result.eq_ok_left (show Result.answer? (queueToken 1 [97] none letterStart) =
    some 0 by decide +kernel)
  generalize hq : Result.left (queueToken 1 [97] none letterStart) = q at hqueue
  have hpush := Result.eq_ok_left (show Result.answer?
    (pushTree { Node.fabricated 0 [] with state := 9 } false q) = some 1 by
      subst hq
      decide +kernel)
  generalize hp : Result.left (pushTree { Node.fabricated 0 [] with state := 9 } false q) = p
    at hpush
  have hparse := Result.eq_ok_left (show Result.answer? (parse letterMachine 30 .start p) =
    some .done by
      subst hp hq
      decide +kernel)
  generalize hr : Result.left (parse letterMachine 30 .start p) = r at hparse
  obtain ⟨hqueued, hpushed, hparsed, hmem⟩ : q.aborted = false ∧ p.aborted = false ∧
      r.aborted = false ∧ Record.shifted 1 2 none 0 false ∈ r.log.records := by
    subst hr hp hq
    decide +kernel
  have hfresh : Fresh letterMachine (Stream.ofBytes [97]) letterStart := ⟨rfl, 8, 8, none, rfl⟩
  have hstarted : Reached letterMachine true q :=
    @Reached.call _ _ (.queueToken 1 [97] none) _ _ (.fresh hfresh) trivial (.inl ⟨_, hqueue⟩)
      hqueued
  have hloaded : Reached letterMachine true p :=
    @Reached.call _ _ (.pushTree { Node.fabricated 0 [] with state := 9 } false) _ _ hstarted
      trivial (.inl ⟨_, hpush⟩) hpushed
  have hreached : Reached letterMachine true r :=
    @Reached.call _ _ (.parse 30 .start) _ _ hloaded trivial (.inl ⟨_, hparse⟩) hparsed
  exact ⟨r, hreached, hmem, records_reversed hreached⟩

/-- A tree in a state waits in the stream between two steps.  It is put on the stack in the next
step, that step is taken back, and the tree waits as before, but without its state. -/
theorem undo_unfaithful : Result.answer? ((do
    let _ ← queueToken 1 [97] none
    let tree ← pushTree { Node.fabricated 0 [] with state := 9 } false
    modify (pauseAt (some 2))
    let first ← parse letterMachine 30 .start
    let before ← get
    modify (pauseAt none)
    let second ← parse letterMachine 30 .start
    let third ← undoTo letterMachine 2
    let after ← get
    let state (r : Run) := (Forest.shape r.forest tree).toOption.map Shape.state
    return ([first, second, third], before.content, after.content, state before, state after))
      letterStart) =
    some ([.paused, .done, .reverted 2], [.tree 1 false, .byte 97], [.tree 1 false, .byte 97],
      some 9, some 0) := by
  decide +kernel

end Rewind.Run
