import Rewind.Proofs.Recurrence
import Rewind.Proofs.Reversals

/-!
# Since a step

While the log of a run leads back to the end of a step (`Since`), whatever the run does, forward or
back, keeps it so, as long as no more is taken back than was done since.  Taking everything back
leads to that end, and on the way nodes are as they were and nothing read is lost (`Withdraws`).  A
tree that was to be set aside then has never been put on the stack since, so its state is the one
that it had.
-/

namespace Rewind.Run

open Attempt Op

variable {m : Machine} {strict : Prop} {unread length : Nat} {record : Record} {v v' w : View}
  {id : NodeId}

/-! ## What changes leave of a node -/

/-- The node does not wait to be put on the stack. -/
def View.Exempts (v : View) (id : NodeId) : Prop :=
  id ∉ v.queue ∧ Item.tree id false ∉ v.items

/-- What a node that was there in the first view is in the second one. -/
structure Lasting (id : NodeId) (v v' : View) : Prop where
  live : (v'.nodes id).isSome
  exempt : v.Exempts id → v'.Exempts id
  ignored : .tree id true ∈ v'.items → .tree id true ∈ v.items
  waiting : id ∈ v'.waiting → id ∈ v.waiting

lemma mem_trees {items : List Item} : id ∈ trees items ↔ ∃ ignore, .tree id ignore ∈ items := by
  induction items with
  | nil => simp [trees]
  | cons item items ih => cases item <;> simp [trees, ih, exists_or]

lemma View.mem_waiting : id ∈ v.waiting ↔ id ∈ v.queue ∨ ∃ ignore, .tree id ignore ∈ v.items := by
  rw [View.waiting, List.mem_append, mem_trees]

/-- Only the lookahead is shifted. -/
lemma Change.shifted_mem (h : Change m strict unread length record v v')
    (hshifted : record.shifted? = some id) : id ∈ v.queue := by
  cases h with
  | shifted hqueue =>
    cases hshifted
    rw [hqueue]
    exact List.mem_cons_self
  | _ => cases hshifted

/-- Whatever changes, a node stays where it is or leaves for good. -/
lemma Change.lasting (h : Change m strict unread length record v v')
    (hlive : (v.nodes id).isSome) : Lasting id v v' := by
  have hlive' := h.live hlive
  have hne {j : NodeId} (hj : v.nodes j = none) : id ≠ j := by
    rintro rfl
    rw [hj] at hlive
    cases hlive
  cases h with
  | scanned _ hvacant | setAside _ hvacant | sent hvacant | treePushed hvacant =>
    have := hne hvacant
    constructor <;> simp_all [View.Exempts, View.mem_waiting]
  | reduced hreduces =>
    have := hne hreduces.vacant
    constructor <;> simp_all [View.Exempts, View.mem_waiting]
  | _ => constructor <;> simp_all [View.Exempts, View.mem_waiting] <;> tauto

lemma Lasting.refl (hlive : (v.nodes id).isSome) : Lasting id v v :=
  ⟨hlive, fun h => h, fun h => h, fun h => h⟩

lemma Lasting.trans (h : Lasting id v v') (h' : Lasting id v' w) : Lasting id v w :=
  ⟨h'.live, fun hv => h'.exempt (h.exempt hv), fun hid => h.ignored (h'.ignored hid),
    fun hid => h.waiting (h'.waiting hid)⟩

lemma Path.lasting {Noted : List Record → View → Prop} {before records : List Record}
    {base : View} (h : Path m strict Noted before base unread records v)
    (hlive : (base.nodes id).isSome) : Lasting id base v := by
  induction h with
  | start => exact .refl hlive
  | change _ hc _ ih => exact ih.trans (hc.lasting ih.live)

lemma ignore_unique {items : List Item} {ignore ignore' : Bool} (h : (trees items).Nodup)
    (hid : .tree id ignore ∈ items) (hid' : .tree id ignore' ∈ items) : ignore = ignore' := by
  induction items with
  | nil => cases hid
  | cons item items ih =>
    cases item with
    | byte b =>
      exact ih h ((List.mem_cons.1 hid).resolve_left nofun)
        ((List.mem_cons.1 hid').resolve_left nofun)
    | tree j ignored =>
      obtain ⟨hj, hrest⟩ := List.nodup_cons.1 h
      rcases List.mem_cons.1 hid with heq | hin <;> rcases List.mem_cons.1 hid' with heq' | hin'
      · cases heq
        cases heq'
        rfl
      · cases heq
        exact absurd (mem_trees.2 ⟨_, hin'⟩) hj
      · cases heq'
        exact absurd (mem_trees.2 ⟨_, hin⟩) hj
      · exact ih hrest hin hin'

/-- A tree that is to be set aside is not to be put on the stack. -/
lemma Orderly.exempts (h : Orderly v) (hid : .tree id true ∈ v.items) : v.Exempts id := by
  obtain ⟨ids, -, hnodup⟩ := h.stack
  obtain ⟨-, htrees, hapart⟩ := List.nodup_append'.1 (List.nodup_append'.1 hnodup).2.1
  exact ⟨fun hin => hapart hin (mem_trees.2 ⟨true, hid⟩),
    fun hin => Bool.false_ne_true (ignore_unique htrees hin hid)⟩

/-! ## Since a step -/

/-- The end of a step, or the beginning. -/
structure Footing (m : Machine) (base : View) (p : Run) : Prop where
  orderly : Orderly base
  sound : Sound m False (fun _ _ => True) base p
  inOrder : InOrder p.forest p
  ended : p.log.records = [] ∨ ∃ older, p.log.records = .stepEnded :: older

/-- The log of the second run leads back to the first one. -/
structure Since (m : Machine) (p r : Run) : Prop where
  tidy : Tidy False r
  path : Path m False (fun _ _ => True) p.log.records p.view r.unread r.log.records r.view
  unread : r.unread ≤ p.unread
  inOrder : InOrder p.forest r
  /-- A tree that is to be set aside has entered no other state. -/
  states : ∀ ⦃id k⦄, .tree id true ∈ p.content → Pool.get? p.forest id = some k →
    ∃ n, Pool.get? r.forest id = some n ∧ n.state = k.state

variable {base : View} {p r s t : Run}

/-- A pool in order has opened no fewer slots than itself. -/
lemma InOrder.again {first : Forest} (h : InOrder first r) : InOrder r.forest r :=
  ⟨rfl, rfl, h.order, Nat.le_refl _⟩

lemma Footing.since (h : Footing m base p) : Since m p p :=
  ⟨h.sound.toTidy, .start, Nat.le_refl _, h.inOrder, fun _ _ _ hk => ⟨_, hk, rfl⟩⟩

namespace Since

lemma sound (hp : Footing m base p) (h : Since m p r) :
    Sound m False (fun _ _ => True) base r :=
  ⟨h.tidy, (hp.sound.path.mono h.unread).trans h.path⟩

lemma orderly (hp : Footing m base p) (h : Since m p r) : Orderly r.view :=
  (h.sound hp).orderly hp.orderly

/-- A tree that was to be set aside is not to be put on the stack. -/
lemma exempts (hp : Footing m base p) (h : Since m p r) (hid : .tree id true ∈ p.content) :
    Lasting id p.view r.view ∧ r.view.Exempts id := by
  have horderly := hp.sound.orderly hp.orderly
  have hlasting := h.path.lasting (horderly.live id (View.mem_waiting.2 (.inr ⟨true, hid⟩)))
  exact ⟨hlasting, hlasting.exempt (horderly.exempts hid)⟩

/-- Whatever moves forward goes on from there. -/
lemma moves (hp : Footing m base p) (h : Since m p r)
    (hmoves : Moves m False (fun _ _ => True) r s) (haccounts : Accounts r s) : Since m p s := by
  refine ⟨hmoves.tidy, (h.path.mono hmoves.unread).trans hmoves.path,
    Nat.le_trans hmoves.unread h.unread, haccounts.slots h.inOrder, fun id k hid hk => ?_⟩
  obtain ⟨n, hn, hstate⟩ := h.states hid hk
  obtain ⟨n', hn', hstate'⟩ := haccounts.states h.tidy.pool (h.exempts hp hid).2.1 hn
  exact ⟨n', hn', hstate'.trans hstate⟩

/-- What no record tells of may change. -/
lemma quiet (h : Since m p r) (ht : Tidy False s) (hview : s.view = r.view)
    (hlog : s.log = r.log) (hunread : s.unread = r.unread) (hforest : s.forest = r.forest) :
    Since m p s := by
  refine ⟨ht, ?_, by rw [hunread]; exact h.unread, ?_, ?_⟩
  · rw [hview, hlog, hunread]
    exact h.path
  · rw [InOrder, hlog, hforest]
    exact h.inOrder
  · rw [hforest]
    exact h.states

end Since

/-- The second run is the first with records taken back. -/
structure Withdraws (r s : Run) : Prop extends SameSource r s where
  size : s.forest.slots.size = r.forest.slots.size
  live : ∀ ⦃id⦄, (Pool.get? s.forest id).isSome → (Pool.get? r.forest id).isSome
  /-- What waited waits, and is as it was, if it is still there. -/
  nodes : ∀ ⦃id⦄, id ∈ r.waiting → (Pool.get? s.forest id).isSome →
    id ∈ s.waiting ∧ Pool.get? s.forest id = Pool.get? r.forest id
  stopping : s.stopping = r.stopping
  aborted : s.aborted = r.aborted

lemma Withdraws.trans (h : Withdraws r s) (h' : Withdraws s t) : Withdraws r t := by
  refine ⟨⟨h'.unread.trans h.unread, h'.ended.trans h.ended⟩, h'.size.trans h.size,
    fun id hid => h.live (h'.live hid), fun id hid hlive => ?_, h'.stopping.trans h.stopping,
    h'.aborted.trans h.aborted⟩
  obtain ⟨hs, hsame⟩ := h.nodes hid (h'.live hlive)
  obtain ⟨ht, hsame'⟩ := h'.nodes hs hlive
  exact ⟨ht, hsame'.trans hsame⟩

/-- Only what no record tells of has changed. -/
lemma Withdraws.quiet (hscanner : s.scanner = r.scanner) (hforest : s.forest = r.forest)
    (hqueue : s.queue = r.queue) (hstopping : s.stopping = r.stopping)
    (haborted : s.aborted = r.aborted) : Withdraws r s := by
  have hwaiting : s.waiting = r.waiting := by
    rw [waiting, waiting, content, content, hscanner, hqueue]
  refine ⟨⟨by rw [Run.unread, Run.unread, hscanner], by rw [sourceEnded, sourceEnded, hscanner]⟩,
    by rw [hforest], fun id hid => hforest ▸ hid, fun id hid _ => ?_, hstopping, haborted⟩
  rw [hwaiting, hforest]
  exact ⟨hid, rfl⟩

lemma Withdraws.events (h : Withdraws r s) (events : List Event) :
    Withdraws r { s with events } :=
  h.trans (.quiet rfl rfl rfl rfl rfl)

lemma Returns.withdraws (h : Returns record r s) (hc : Change m strict unread length record s.view
    r.view) (hstopping : s.stopping = r.stopping) (haborted : s.aborted = r.aborted) :
    Withdraws r s := by
  refine ⟨h.toSameSource, h.slots.size, fun id hid => ?_, fun id hid hlive => ?_, hstopping,
    haborted⟩
  · obtain ⟨n', hn'⟩ := Option.isSome_iff_exists.1 hid
    obtain ⟨n, hn, -⟩ := h.node hn'
    rw [hn]
    rfl
  · have hnode : (s.view.nodes id).isSome = true := by
      rw [show s.view.nodes id = s.shown id from rfl, isSome_shown]
      exact hlive
    have hwaits : id ∈ s.waiting := (hc.lasting hnode).waiting hid
    obtain ⟨n', hn'⟩ := Option.isSome_iff_exists.1 hlive
    obtain ⟨n, hn, hnode, -⟩ := h.node hn'
    rw [hn', hn, hnode hwaits, if_pos hid]
    exact ⟨hwaits, rfl⟩

/-- One record is taken back, of those that were written since. -/
lemma Since.back {goal : Goal} {older : List Record} (hp : Footing m base p) (h : Since m p r)
    (hlog : r.log.records = record :: older) (hne : r.log.records ≠ p.log.records)
    (hgoal : atGoal r goal = false) :
    ∃ s, Since m p s ∧ Withdraws r s ∧ s.log.records = older ∧ s.point = r.point ∧
      unwind m goal r.log.records r = match record.takenBack, goal with
        | .action data, _ => .ok (some (.reverse data)) s
        | .decision alternative, .backtrack =>
          .ok none { s with retry := alternative + 1, point := .start }
        | _, _ => unwind m goal older s := by
  have hpath := h.path
  rw [hlog] at hpath hne
  generalize hview : r.view = w at hpath
  generalize hbefore : p.log.records = before at hpath hne
  cases hpath with
  | start => exact absurd rfl hne
  | change hpath hc _ =>
    subst hbefore
    rw [← hview] at hc
    have hbase := hp.sound.orderly hp.orderly
    obtain ⟨s, ht, rfl, hreturns, hcourse, hunwind⟩ :=
      unwind_back h.tidy (hpath.orderly hbase) hc hlog hgoal
    have holder : s.log.records = older := by rw [hcourse.log]
    refine ⟨s, ⟨ht, ?_, ?_, h.inOrder.back hlog hreturns holder, fun id k hid hk => ?_⟩,
      hreturns.withdraws hc hcourse.stopping hcourse.aborted, holder, hcourse.point, hunwind⟩
    · rw [holder, hreturns.unread]
      exact hpath
    · rw [hreturns.unread]
      exact h.unread
    · have hlive : (p.view.nodes id).isSome :=
        hbase.live id (View.mem_waiting.2 (.inr ⟨true, hid⟩))
      have hlasting := hpath.lasting hlive
      obtain ⟨n', hn'⟩ := Option.isSome_iff_exists.1 (by
        rw [← isSome_shown]
        exact hlasting.live)
      obtain ⟨n, hn, -, hstate⟩ := hreturns.node hn'
      refine ⟨n', hn', ?_⟩
      obtain ⟨n₁, hn₁, hk'⟩ := h.states hid hk
      obtain rfl := Option.some.inj (hn.symm.trans hn₁)
      refine (hstate fun hshifted => ?_).trans hk'
      exact (hlasting.exempt (hbase.exempts hid)).1 (hc.shifted_mem hshifted)

/-- The run waits behind the end of a step, or where it begins, and nothing is on its way. -/
structure Concluded (m : Machine) (k : Nat) (r : Run) : Prop where
  steps : r.steps = k
  ended : r.log.records = [] ∨ ∃ older, r.log.records = .stepEnded :: older
  point : r.point = settled m r.view
  halted : r.halted = false
  retry : r.retry = 0
  rejecting : r.rejecting = false

/-- Going back to a step comes there, or waits for the caller to act. -/
def Halfway (m : Machine) (target : Nat) (r : Run) (a : Option Status) (s : Run) : Prop :=
  (∃ data, a = some (.reverse data) ∧ s.point = r.point) ∨
    a = some (.reverted target) ∧ Concluded m target s

/-- Where a goal is reached, only what no record tells of changes. -/
lemma Since.arrives {goal : Goal} {a : Option Status} {records : List Record}
    (hp : Footing m base p) (h : Since m p r) (hgoal : atGoal r goal = true)
    (hrun : unwind m goal records r = .ok a s) :
    Since m p s ∧ Withdraws r s ∧ ∀ target, goal = .step target → Halfway m target r a s := by
  rw [unwind.eq_def, get_bind, if_pos hgoal, bind_ok (settle_ok (h.orderly hp))] at hrun
  cases hrun
  refine ⟨h.quiet ⟨h.tidy.attached, h.tidy.pool, h.tidy.loose⟩ rfl rfl rfl rfl,
    .quiet rfl rfl rfl rfl rfl, fun target heq => .inr ?_⟩
  subst heq
  obtain ⟨hsteps, hended⟩ := atGoal_step_iff.1 hgoal
  exact ⟨by rw [hsteps], hsteps, hended, rfl, rfl, rfl, rfl⟩

/-- Taking back further from where the step ended leads behind it. -/
lemma Since.behind {goal : Goal} {a : Option Status} (hp : Footing m base p) (h : Since m p r)
    (hlog : r.log.records = p.log.records) (hgoal : atGoal r goal = false)
    (hrun : unwind m goal r.log.records r = .ok a s) : s.steps < p.steps := by
  have hpath := h.path
  rw [hlog] at hpath
  have hsteps : r.steps = p.steps := congrArg View.steps hpath.of_same
  rcases hp.ended with hempty | ⟨older, hended⟩
  · rw [hlog, hempty, unwind, get_bind, hgoal] at hrun
    cases hrun
  · have hbase := hp.sound.orderly hp.orderly
    obtain ⟨t, ht, -, hless, holder, -, -, hunwind⟩ :=
      unwind_latest (h.sound hp).backed hp.orderly goal (hlog.trans hended) hgoal
    rw [if_pos rfl] at hless
    rw [hrun] at hunwind
    rcases unwind_backed ht hp.orderly goal with ⟨b, u, hunwind', -, hback⟩ | ⟨u, hunwind', -⟩
    · rw [holder] at hunwind'
      cases hunwind.trans hunwind'
      have := hback.steps
      omega
    · rw [holder] at hunwind'
      cases hunwind.trans hunwind'

/-- Taking back leads to where the log still leads back to the step, if it does not lead behind. -/
lemma Since.unwind {goal : Goal} {a : Option Status} (hp : Footing m base p) (h : Since m p r)
    (hrun : unwind m goal r.log.records r = .ok a s) (hsteps : p.steps ≤ s.steps) :
    Since m p s ∧ Withdraws r s ∧ ∀ target, goal = .step target → Halfway m target r a s := by
  generalize hrecords : r.log.records = records at hrun
  induction records generalizing r with
  | nil =>
    cases hgoal : atGoal r goal with
    | true => exact h.arrives hp hgoal hrun
    | false =>
      rw [Run.unwind, get_bind, hgoal] at hrun
      cases hrun
  | cons record older ih =>
    cases hgoal : atGoal r goal with
    | true => exact h.arrives hp hgoal hrun
    | false =>
      rw [← hrecords] at hrun
      have hne : r.log.records ≠ p.log.records := fun heq =>
        Nat.lt_irrefl _ (Nat.lt_of_lt_of_le (h.behind hp heq hgoal hrun) hsteps)
      obtain ⟨t, ht, hback, holder, hpoint, hunwind⟩ := h.back hp hrecords hne hgoal
      rw [hrun] at hunwind
      have hrest (hrun' : Run.unwind m goal older t = .ok a s) :
          Since m p s ∧ Withdraws r s ∧
            ∀ target, goal = .step target → Halfway m target r a s := by
        obtain ⟨hs, hback', hhalf⟩ := ih ht holder hrun'
        refine ⟨hs, hback.trans hback', fun target heq => ?_⟩
        rcases hhalf target heq with ⟨data, ha, hsame⟩ | hland
        · exact .inl ⟨data, ha, hsame.trans hpoint⟩
        · exact .inr hland
      cases htaken : record.takenBack with
      | plain =>
        rw [htaken] at hunwind
        exact hrest hunwind.symm
      | action data =>
        rw [htaken] at hunwind
        cases hunwind
        exact ⟨ht, hback, fun target _ => .inl ⟨data, rfl, hpoint⟩⟩
      | decision alternative =>
        rw [htaken] at hunwind
        cases goal with
        | step target => exact hrest hunwind.symm
        | backtrack =>
          cases hunwind
          refine ⟨ht.quiet ⟨ht.tidy.attached, ht.tidy.pool, ht.tidy.loose⟩ rfl rfl rfl rfl,
            hback.trans (.quiet rfl rfl rfl rfl rfl), ?_⟩
          intro target heq
          cases heq

/-! ## Moves -/

namespace Since

variable {a : Option Status} {entry : Entry} {turns : Nat}

lemma goForward (hp : Footing m base p) (h : Since m p r) (hpoint : r.point = .start)
    (hlasts : Lasts (goForward m) r s) : Since m p s := by
  have ho := h.orderly hp
  rcases hlasts with ⟨a, hrun⟩ | ⟨e, he, hrun⟩
  · have hforwards := goForward_ok h.tidy.pool h.tidy.attached hrun
    exact h.moves hp (moves_forwards h.tidy ho hpoint hforwards fun _ _ => trivial).1
      (accounts_forwards hforwards)
  · exact h.moves hp (moves_goForward_error h.tidy ho he hrun)
      (accounts_goForward_error h.tidy he hrun)

lemma enter (hp : Footing m base p) (h : Since m p r) (hlasts : Lasts (enter m entry) r s) :
    Since m p s := by
  rcases hlasts with ⟨a, hrun⟩ | ⟨e, he, hrun⟩
  · have henters := enter_ok hrun
    exact h.moves hp (moves_enters h.tidy (h.orderly hp) henters fun _ _ => trivial).1
      (accounts_enters henters)
  · exact h.moves hp (moves_enter_error h.tidy he hrun) (accounts_enter_error he hrun)

/-- A turn that does not lead behind the step. -/
lemma turn (hp : Footing m base p) (h : Since m p r) (hlasts : Lasts (turn m) r s)
    (hsteps : p.steps ≤ s.steps) : Since m p s := by
  rcases lasts_turn hlasts with ⟨hforward, hpoint⟩ | ⟨goal, -, ⟨a, hrun⟩ | ⟨e, he, hrun⟩⟩ | rfl
  · exact h.goForward hp hpoint hforward
  · exact (h.unwind hp hrun hsteps).1
  · rw [grave_unwind m goal _ hrun] at he
    cases he
  · exact h

lemma events (h : Since m p r) (events : List Event) : Since m p { r with events } :=
  h.quiet ⟨h.tidy.attached, h.tidy.pool, nofun⟩ rfl rfl rfl rfl

end Since

end Rewind.Run
