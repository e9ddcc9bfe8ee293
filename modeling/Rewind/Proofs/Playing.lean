import Rewind.Proofs.Tracking

/-!
# Runs that play a plot

A run `Plays` a plot if it is about to do what the plot's next move is, and a turn of the run then
comes to what the move comes to (`Matches`), unless the pool has no slot left.  A turn that sets
something aside that the plot does not have is no move at all.
-/

namespace Rewind

/-- The targets of validated tables are states. -/
lemma Grammar.Tables.target_of_validate {t : Grammar.Tables} {transition : Nat} {target : StateId}
    (h : t.validate = .ok ()) (htarget : t.targets[transition]? = some target) :
    target < t.states := by
  simp only [validate, Except.bind_eq_ok] at h
  obtain ⟨-, -, -, -, -, -, -, -, -, -, -, -, -, -, -, -, -, -, -, -, ⟨⟩, htargets, -⟩ := h
  exact Check.range_eq_ok.1 (Check.each_eq_ok.1 htargets _ _ htarget)

namespace Run

open Attempt Op

/-- The run goes on as the plot does. -/
inductive Plays (m : Machine) (reads : Alphabet) (ground : Ground) : Run → Plot → Prop
  | going {r : Run} {γ : Gist} {left : List Fork} :
    Rests m reads ground r γ left → r.point = .start →
    Plays m reads ground r ⟨γ, left, .going r.retry⟩
  | back {r : Run} {γ : Gist} {fork : Fork} {left : List Fork} :
    Rests m reads ground r γ (fork :: left) → r.point = .reverse .backtrack →
    Plays m reads ground r ⟨γ, fork :: left, .back⟩

/-- The run waits for its caller, who was told this, and the plot is what is to follow. -/
inductive Attends (m : Machine) (reads : Alphabet) (ground : Ground) : Status → Run → Plot → Prop
  | reduction {r : Run} {γ : Gist} {left : List Fork} {production : ProductionId} {tree : NodeId}
      {ids : List NodeId} {children : List ElementId} {commits : Bool} :
    Rests m reads ground r γ left → r.point = .reduction production commits → r.retry = 0 →
    ids.map (elementAt r.view.nodes) = children.map some →
    Attends m reads ground (.reduction production tree ids) r
      ⟨γ, left, .acting production children commits⟩
  | generation {r : Run} {γ : Gist} {left : List Fork} {token : ElementId} {text : Bytes}
      {span : Span} :
    Rests m reads ground r γ left → r.point = .generation →
    Attends m reads ground (.generation token text span) r ⟨γ, left, .going r.retry⟩
  | preEof {r : Run} {γ : Gist} {left : List Fork} {region : RegionId} :
    Rests m reads ground r γ left → r.point = .preEof →
    Attends m reads ground (.preEof region) r ⟨γ, left, .going r.retry⟩

/-- What a turn comes to is what the outcome of a move says. -/
inductive Matches (m : Machine) (reads : Alphabet) (ground : Ground) :
    Result (Option Status) → Outcome → Prop
  | on {s : Run} {π : Plot} :
    Plays m reads ground s π → Matches m reads ground (.ok none s) (.on π)
  | waits {status : Status} {s : Run} {π : Plot} :
    Attends m reads ground status s π →
    Matches m reads ground (.ok (some status) s) (.waits status.kind π)
  | done {s : Run} : Matches m reads ground (.ok (some .done) s) (.stops (.ok .done))
  | failed {e : Error} {s : Run} :
    Matches m reads ground (.error (.error e) s) (.stops (.error (.error e.kind)))
  | faulted {f : Fault} {s : Run} :
    Matches m reads ground (.error (.fault f) s) (.stops (.error (.fault f)))

/-- What doing what was decided comes to, before the step is completed. -/
inductive Enacts (m : Machine) (reads : Alphabet) (ground : Ground) (left : List Fork)
    (commits : Bool) (q : Run) : Result (Option Status) →
    Except (Failure Error) (Gist × Option (ProductionId × List ElementId)) → Prop
  | plain {s : Run} {γ : Gist} :
    Rests m reads ground s γ left → s.point = q.point → s.retry = q.retry → s.events = q.events →
    Enacts m reads ground left commits q (.ok none s) (.ok (γ, none))
  | told {s : Run} {γ : Gist} {production : ProductionId} {tree : NodeId} {ids : List NodeId}
      {children : List ElementId} :
    Rests m reads ground s γ left → s.point = .reduction production commits →
    s.retry = q.retry → s.events = q.events →
    ids.map (elementAt s.view.nodes) = children.map some →
    Enacts m reads ground left commits q (.ok (some (.reduction production tree ids)) s)
      (.ok (γ, some (production, children)))
  | failed {e : Error} {s : Run} : s.events = q.events →
    Enacts m reads ground left commits q (.error (.error e) s) (.error (.error e.kind))
  | faulted {f : Fault} {s : Run} : s.events = q.events →
    Enacts m reads ground left commits q (.error (.fault f) s) (.error (.fault f))

lemma Enacts.congr {m : Machine} {reads : Alphabet} {ground : Ground} {left : List Fork}
    {commits : Bool} {q q' : Run} {x : Result (Option Status)}
    {y : Except (Failure Error) (Gist × Option (ProductionId × List ElementId))}
    (h : Enacts m reads ground left commits q x y) (hpoint : q.point = q'.point)
    (hretry : q.retry = q'.retry) (hevents : q.events = q'.events) :
    Enacts m reads ground left commits q' x y := by
  cases h with
  | plain hrests hp hr he =>
    exact .plain hrests (hp.trans hpoint) (hr.trans hretry) (he.trans hevents)
  | told hrests hp hr he hids => exact .told hrests hp (hr.trans hretry) (he.trans hevents) hids
  | failed he => exact .failed (he.trans hevents)
  | faulted he => exact .faulted (he.trans hevents)

variable {m : Machine} {reads : Alphabet} {ground : Ground} {γ : Gist} {left : List Fork}
  {r s q : Run} {x : Result (Option Status)} {commits more : Bool} {alternative : Nat}
  {production : ProductionId} {id : NodeId} {rest : List NodeId} {n : Node}

/-! ## What is seen of a move -/

lemma seen_congr (hevents : s.events = r.events) : seen s = seen r := by
  rw [seen, seen, hevents]

lemma seen_told {event told : Event} (hevents : s.events = event :: r.events)
    (hkind : event.kind? = some told) : seen s = seen r ++ [told] := by
  rw [seen, hevents, List.filterMap_cons_some hkind, List.reverse_cons]
  rfl

/-! ## Completing a step -/

lemma Rests.stepped (h : Rests m reads ground r γ left) (commits : Bool) :
    Rests m reads ground (stepped commits r) γ (if commits then [] else left) := by
  have hclosed : Rests m reads ground (closed commits r) γ (if commits then [] else left) := by
    cases commits with
    | true =>
      exact h.write (writes_committed h.tidy) rfl (h.outlines.count _ _ _) rfl rfl rfl rfl
    | false => exact h
  exact hclosed.write (writes_stepEnded hclosed.tidy) rfl (hclosed.outlines.count _ _ _) rfl rfl
    rfl rfl

lemma matches_completeStep (h : Rests m reads ground r γ left) (hpoint : r.point = .start)
    (hretry : r.retry = 0) (hrun : completeStep m commits r = x) :
    Matches m reads ground x (γ.complete m left commits) ∧ seen (Result.left x) = seen r := by
  have hs := h.stepped commits
  have hfields : (Run.stepped commits r).point = r.point ∧ (Run.stepped commits r).retry = r.retry ∧
      (Run.stepped commits r).events = r.events := by
    cases commits <;> exact ⟨rfl, rfl, rfl⟩
  cases x with
  | error y s => exact (completeStep_ne_error hs.orderly hrun).elim
  | ok a s =>
    obtain ⟨reached, hreached, hcases⟩ := completeStep_ok hrun
    rw [atEnd_ok hs.orderly, hs.outlines.ended_eq] at hreached
    obtain rfl := Except.ok.inj hreached
    rcases hcases with ⟨hended, rfl, rfl⟩ | ⟨-, hstopping, -⟩ | ⟨hended, -, rfl, rfl⟩
    · rw [Gist.complete, if_pos hended]
      exact ⟨.done, seen_congr hfields.2.2⟩
    · cases hs.stopping.symm.trans hstopping
    · rw [Gist.complete, if_neg (Bool.eq_false_iff.1 hended), hs.target, if_neg nofun]
      have hplays := Plays.going hs (hfields.1.trans hpoint)
      rw [hfields.2.1, hretry] at hplays
      exact ⟨.on hplays, seen_congr hfields.2.2⟩

/-! ## Shifting and reducing -/

section Act

variable {element : ElementId} {decision : Grammar.Decision} {target : StateId}

/-- A shift, with the decision for it. -/
lemma rests_shift (h : Rests m reads ground r γ left) (hn : Pool.get? r.forest id = some n)
    (htarget : target < m.grammar.states)
    (hshifts : Shifts m r.state n.element decision.alternative decision.more target)
    (hrun : shift m id target decision.alternative decision.more (decided n.element decision r) =
      .ok () s) :
    Rests m reads ground s (γ.shifted target)
        (γ.fork decision.alternative decision.more left) ∧
      s.point = r.point ∧ s.retry = 0 ∧ s.events = (decided n.element decision r).events := by
  obtain ⟨rest, n', hqueue, hn', rfl⟩ := shift_ok hrun
  obtain rfl : n = n' := Option.some.inj (hn.symm.trans hn')
  have hwaits : id ∈ r.waiting := by
    rw [waiting, show r.queue = id :: rest from hqueue]
    exact List.mem_cons_self
  have hshown : r.view.nodes id = some n.loose := by
    rw [show r.view.nodes id = r.shown id from rfl, shown_of_waiting hwaits, hn, Option.map_some]
  have hwrites := writes_shifted h.tidy h.orderly hqueue hn hshifts 0
    (decided n.element decision r).events
  refine ⟨h.write hwrites rfl ?_ rfl rfl rfl rfl, rfl, rfl, rfl⟩
  exact ((h.outlines.shifted h.orderly hqueue hshown htarget).aside _).count r.steps r.barrier _

/-- A reduction, with the decision for it.  What is decided otherwise makes no difference. -/
lemma enacts_reduce (h : Rests m reads ground r γ left) (hstart : m.start < m.grammar.states)
    (hq : q = { r with
      events := q.events
      retry := q.retry
      retries := if more then r.retries + 1 else r.retries })
    (hrun : reduce m production alternative more commits q = x) :
    (∃ y s, x = .error y s ∧ Refusal y) ∨
      Enacts m reads ground (γ.fork alternative more left) commits q x (γ.reduce m production) := by
  cases x with
  | ok a s =>
    right
    obtain ⟨info, children, below, span, tree, made, linked, state, hinfo, hunstack, hspan, halloc,
      hlink, hstate, rfl, rfl⟩ := reduce_ok hrun
    rw [hq] at hunstack hspan halloc ⊢
    obtain ⟨nodes, hreduces, hwrites⟩ := writes_reduced alternative more h.tidy h.orderly hinfo
      hunstack hspan halloc (hlink _ rfl) hstate q.retry
      (if info.hasAction then .reduction production commits else r.point) q.events
    obtain ⟨houtlines, hle, hchildren⟩ := h.outlines.reduced h.orderly hreduces hstart
    have hrests := h.write hwrites rfl (houtlines.count r.steps r.barrier _) rfl rfl rfl rfl
    rw [Gist.reduce, entry_eq_ok_iff.2 hinfo]
    simp only
    rw [if_pos hle]
    have hviewed := hwrites.view
    cases hacts : info.hasAction with
    | true =>
      simp only [hacts, if_true] at hrests hviewed ⊢
      refine .told hrests rfl rfl rfl ?_
      rw [hviewed]
      exact hchildren
    | false =>
      simp only [hacts, Bool.false_eq_true, if_false] at hrests ⊢
      exact .plain hrests (by rw [hq]) rfl rfl
  | error y s =>
    have hpool : Pool.Sound q.forest := by
      rw [hq]
      exact h.tidy.pool
    have ho : Orderly q.view := by
      rw [hq]
      exact ⟨h.orderly.stack, h.orderly.live⟩
    rcases reduce_error ho hpool hrun with
      ⟨f, hentry, rfl, rfl⟩ | ⟨info, ids, hentry, hlinked, hlt, rfl, rfl⟩ | hrefusal
    · right
      rw [Gist.reduce, hentry]
      exact .faulted rfl
    · right
      obtain ⟨ids', hlinked', hplaces⟩ := h.outlines.stack
      rw [hq] at hlinked
      obtain rfl : ids = ids' := hlinked.unique hlinked'
      have hlength : ids.length = γ.stack.length := by
        simpa using congrArg List.length hplaces
      rw [Gist.reduce, hentry, ← hlength]
      simp only
      rw [if_neg (Nat.not_le_of_lt hlt)]
      exact .failed rfl
    · exact .inl ⟨y, s, rfl, hrefusal⟩

/-- Doing what was decided, whose target is a state of the tables. -/
lemma enacts_act (h : Rests m reads ground r γ left) (hstart : m.start < m.grammar.states)
    (hqueue : r.queue = id :: rest) (hn : Pool.get? r.forest id = some n)
    (hdecide : m.grammar.decide r.state n.element r.retry = .ok (some decision))
    (htarget : m.grammar.targets[decision.transition]? = some target)
    (hknown : target < m.grammar.states)
    (hrun : act m id decision target commits (decided n.element decision r) = x) :
    (∃ y s, x = .error y s ∧ Refusal y) ∨
      Enacts m reads ground (γ.fork decision.alternative decision.more left) commits
        (decided n.element decision r) x (γ.act m target decision.action) := by
  have hshifts (hact : decision.action = .shift ∨
      ∃ production, decision.action = .shiftReduce production) :
      Shifts m r.state n.element decision.alternative decision.more target :=
    ⟨decision, by rw [decide_alternative hdecide, hdecide], rfl, htarget, hact⟩
  have hshift {y : Failure Error} {s : Run} :
      Run.shift m id target decision.alternative decision.more (decided n.element decision r) ≠
        .error y s :=
    shift_ne_error (r := decided n.element decision r) hqueue hn
  unfold act at hrun
  cases haction : decision.action with
  | shift =>
    rw [haction] at hrun
    cases x with
    | error y s =>
      rcases bind_eq_error.1 hrun with hfail | ⟨u, t, -, h1⟩
      · exact (hshift hfail).elim
      · cases h1
    | ok a s =>
      obtain ⟨u, t, hrun, h1⟩ := bind_eq_ok.1 hrun
      cases h1
      obtain ⟨hrests, hpoint, hretry, hevents⟩ :=
        rests_shift h hn hknown (hshifts (.inl haction)) hrun
      exact .inr (.plain hrests hpoint hretry hevents)
  | reduce production =>
    rw [haction] at hrun
    exact enacts_reduce h hstart rfl hrun
  | shiftReduce production =>
    rw [haction] at hrun
    cases hshifted : Run.shift m id target decision.alternative decision.more
        (decided n.element decision r) with
    | error y s => exact (hshift hshifted).elim
    | ok u t =>
      obtain ⟨hrests, hpoint, hretry, hevents⟩ :=
        rests_shift h hn hknown (hshifts (.inr ⟨_, haction⟩)) hshifted
      have hreduce : reduce m production 0 false commits t = x :=
        (bind_ok hshifted fun _ => reduce m production 0 false commits).symm.trans hrun
      have hkept : t = { t with
          events := t.events
          retry := t.retry
          retries := if false then t.retries + 1 else t.retries } := rfl
      rcases enacts_reduce hrests hstart hkept hreduce with hrefused | henacts
      · exact .inl hrefused
      · exact .inr (henacts.congr hpoint hretry hevents)

end Act

/-! ## Turning back -/

lemma turnBack_eq (e : Error) (r : Run) :
    turnBack e r =
      if 0 < r.retries then .ok () (turned e r) else .error (.error e) (stuck e r) := by
  rw [turnBack, tell_bind, get_bind]
  split <;> rfl

/-- A run turns back to the latest choice left open, or ends with the error. -/
lemma matches_turnBack {e : Error} (h : Rests m reads ground r γ left)
    (hrun : (do turnBack e; return none : Op (Option Status)) r = x) :
    Matches m reads ground x (γ.turnBack e.kind left) ∧
      seen (Result.left x) = seen r ++ [.failed e.kind] := by
  have hturn := turnBack_eq e r
  by_cases hpos : 0 < r.retries
  · rw [if_pos hpos] at hturn
    obtain rfl := (bind_ok hturn _).symm.trans hrun
    obtain ⟨fork, others, rfl⟩ := h.exists_fork hpos
    exact ⟨.on (.back (h.await (.reverse .backtrack) r.retry _) rfl), seen_told rfl rfl⟩
  · rw [if_neg hpos] at hturn
    obtain rfl := (bind_error hturn _).symm.trans hrun
    obtain rfl := h.no_fork (Nat.eq_zero_of_not_pos hpos)
    exact ⟨.failed, seen_told rfl rfl⟩

/-! ## Steps -/

lemma elementAt_view (r : Run) (id : NodeId) :
    elementAt r.view.nodes id = (Pool.get? r.forest id).map Node.element := by
  rw [elementAt, show r.view.nodes id = r.shown id from rfl, shown]
  split
  · rw [Option.map_map]
    rfl
  · rfl

/-- What was decided is done, and the step is completed if nobody has to act first. -/
lemma matches_follow {decision : Grammar.Decision} (hvalid : m.grammar.validate = .ok ())
    (hstart : m.start < m.grammar.states) (h : Rests m reads ground r γ left)
    (hpoint : r.point = .start) (hqueue : r.queue = id :: rest)
    (hn : Pool.get? r.forest id = some n)
    (hdecide : m.grammar.decide r.state n.element r.retry = .ok (some decision))
    (hrun : (do
      let commits := (← lookup (entry m.grammar.commits decision.transition)) ≠ 0
      let target ← lookup (entry m.grammar.targets decision.transition)
      match ← act m id decision target commits with
      | some status => return some status
      | none => completeStep m commits : Op (Option Status)) (decided n.element decision r) = x) :
    (∃ y s, x = .error y s ∧ Refusal y) ∨
      Matches m reads ground x (γ.follow m left decision) ∧
        seen (Result.left x) = seen (decided n.element decision r) := by
  rw [Gist.follow]
  cases hcommits : entry m.grammar.commits decision.transition with
  | error f =>
    rw [hcommits] at hrun
    obtain rfl := (bind_error rfl _).symm.trans hrun
    exact .inr ⟨.faulted, rfl⟩
  | ok commits =>
    rw [hcommits, lookup_ok_bind] at hrun
    cases htarget : entry m.grammar.targets decision.transition with
    | error f =>
      rw [htarget] at hrun
      obtain rfl := (bind_error rfl _).symm.trans hrun
      exact .inr ⟨.faulted, rfl⟩
    | ok target =>
      rw [htarget, lookup_ok_bind] at hrun
      have htarget := entry_eq_ok_iff.1 htarget
      cases hact : act m id decision target (commits ≠ 0) (decided n.element decision r) with
      | error y s =>
        obtain rfl := (bind_error hact _).symm.trans hrun
        have henacts := enacts_act h hstart hqueue hn hdecide htarget
          (Grammar.Tables.target_of_validate hvalid htarget) hact
        simp only
        generalize γ.act m target decision.action = acted at henacts
        rcases henacts with hrefused | henacts
        · exact .inl hrefused
        · cases henacts with
          | failed hevents => exact .inr ⟨.failed, seen_congr hevents⟩
          | faulted hevents => exact .inr ⟨.faulted, seen_congr hevents⟩
      | ok a s =>
        rw [bind_ok hact] at hrun
        have henacts := enacts_act h hstart hqueue hn hdecide htarget
          (Grammar.Tables.target_of_validate hvalid htarget) hact
        simp only
        generalize γ.act m target decision.action = acted at henacts
        obtain ⟨y, s', hfails, -⟩ | henacts := henacts
        · cases hfails
        · cases henacts with
          | plain hrests hp hr hevents =>
            obtain ⟨hmatches, hseen⟩ :=
              matches_completeStep hrests (hp.trans hpoint) hr hrun
            exact .inr ⟨hmatches, hseen.trans (seen_congr hevents)⟩
          | told hrests hp hr hevents hids =>
            cases hrun
            exact .inr ⟨.waits (.reduction hrests hp hr hids), seen_congr hevents⟩

/-- A step of a run is that of its gist. -/
lemma matches_step {lookahead : ElementId} {queue : List ElementId}
    (hvalid : m.grammar.validate = .ok ()) (hstart : m.start < m.grammar.states)
    (h : Rests m reads ground r γ left) (hpoint : r.point = .start) (hqueue : r.queue = id :: rest)
    (hγ : γ.queue = lookahead :: queue) (hrun : step m id r = x) :
    (∃ y s, x = .error y s ∧ Refusal y) ∨
      Matches m reads ground x (γ.step m left r.retry lookahead).2 ∧
        seen (Result.left x) = seen r ++ (γ.step m left r.retry lookahead).1 := by
  obtain ⟨element, queue', hγ', helement, -⟩ := h.outlines.queue_cons hqueue
  obtain ⟨rfl, -⟩ := List.cons.inj (hγ.symm.trans hγ')
  rw [elementAt_view] at helement
  obtain ⟨n, hn, rfl⟩ := Option.map_eq_some_iff.1 helement
  rw [step, bind_ok (node_ok hn), get_bind] at hrun
  rw [Gist.step, ← show r.state = γ.state from h.outlines.state]
  cases hdecide : m.grammar.decide r.state n.element r.retry with
  | error f =>
    rw [hdecide] at hrun
    obtain rfl := (bind_error rfl _).symm.trans hrun
    exact .inr ⟨.faulted, (List.append_nil _).symm⟩
  | ok found =>
    rw [hdecide, lookup_ok_bind] at hrun
    cases found with
    | none => exact .inr (matches_turnBack h hrun)
    | some decision =>
      simp only [tell_bind, modify_bind] at hrun
      refine (matches_follow hvalid hstart h hpoint hqueue hn hdecide hrun).imp_right
        fun hfollows =>
        ⟨hfollows.1, hfollows.2.trans (seen_told rfl rfl)⟩

/-! ## Looking for a lookahead -/

lemma Rests.rescans (h : Rests m reads ground r γ left) (hrescans : Rescans r s) :
    Rests m reads ground s γ left ∧ s.point = r.point ∧ s.retry = r.retry ∧
      s.events = r.events := by
  have hview := view_rescans hrescans
  have htidy := h.tidy.rescans hrescans
  obtain ⟨stream, rest, scanner, -, -, -, rfl⟩ := hrescans
  exact ⟨h.keep htidy rfl hview h.target h.stopping h.halted h.aborted h.rejecting, rfl, rfl, rfl⟩

/-- A run that waits after acquiring goes on as before when it is resumed. -/
lemma attends_of_suspends {status : Status} (h : Rests m reads ground r γ left)
    (hsuspends : Suspends r status) (hpoint : r.point = .generation ∨ r.point = .preEof) :
    Attends m reads ground status r ⟨γ, left, .going r.retry⟩ := by
  cases status with
  | reduction production tree children =>
    obtain ⟨⟨commits, hacting⟩, -⟩ := hsuspends
    rw [hacting] at hpoint
    rcases hpoint with hpoint | hpoint <;> cases hpoint
  | generation token text span => exact .generation h hsuspends
  | preEof region => exact .preEof h hsuspends
  | _ => exact hsuspends.elim

/-- Nothing but a unit that the gist does not have was taken from the input. -/
structure Skips (m : Machine) (reads : Alphabet) (ground : Ground) (r s : Run) (π : Plot) :
    Prop where
  plays : Plays m reads ground s π
  content : s.content.length < r.content.length
  seen : seen s = Run.seen r

/-- Looking for a lookahead comes to what it does for the gist, unless something is ignored. -/
lemma matches_look (hm : Bytewise m reads) (h : Rests m reads ground r γ left) (hr : Reads r)
    (hpoint : r.point = .start) (hqueue : r.queue = []) (hrun : goForward m r = x) :
    (∃ y s, x = .error y s ∧ Refusal y) ∨
      (∃ s, x = .ok none s ∧ Skips m reads ground r s ⟨γ, left, .going r.retry⟩) ∨
      Matches m reads ground x (γ.look m reads left r.retry).2 ∧
        seen (Result.left x) = seen r ++ (γ.look m reads left r.retry).1 := by
  rw [goForward, get_bind] at hrun
  simp only [hqueue] at hrun
  rw [Gist.look, ← show r.state = γ.state from h.outlines.state]
  cases hacquire : acquire m r with
  | error y s =>
    obtain rfl := (bind_error hacquire _).symm.trans hrun
    rcases acquire_error hm h.known h.tidy h.orderly hr hacquire with
      ⟨f, hregions, rfl, rfl⟩ | hrefusal
    · rw [hregions]
      exact .inr (.inr ⟨.faulted, (List.append_nil _).symm⟩)
    · exact .inl ⟨y, s, rfl, hrefusal⟩
  | ok found s =>
    rw [bind_ok hacquire] at hrun
    have hlooked := hacquire
    rw [acquire, get_bind] at hlooked
    obtain ⟨regions, u, hlook, -⟩ := bind_eq_ok.1 hlooked
    obtain ⟨hregions, -⟩ := lookup_eq_ok.1 hlook
    obtain ⟨t, hrescans, hacquires⟩ := acquire_ok h.tidy.pool h.tidy.attached hacquire
    obtain ⟨ht, hpoint', hretry, hevents⟩ := h.rescans hrescans
    have hfields : t.state = r.state ∧ t.queue = r.queue := by
      obtain ⟨stream, rest, scanner, -, -, -, rfl⟩ := hrescans
      exact ⟨rfl, rfl⟩
    obtain ⟨hunseen, huntried⟩ := seen_acquires hacquires
    have hseen : seen s = seen r := hunseen.trans (seen_congr hevents)
    have hkept : s.retry = r.retry := huntried.trans hretry
    obtain ⟨hquiet, hsuspended⟩ := point_acquires hacquires
    have hobtains := obtains_acquires hm ht (hfields.2.trans hqueue)
      ((congrArg m.grammar.regionsOf hfields.1).trans hregions) hacquires
    rw [hregions]
    simp only
    cases hobtains with
    | ignored hrests hcontent =>
      obtain rfl : EStateM.Result.ok none s = x := hrun
      refine .inr (.inl ⟨s, rfl, ?_, by rwa [hrescans.content.1] at hcontent, hseen⟩)
      rw [← hkept]
      exact .going hrests ((hquiet (.inr rfl)).trans (hpoint'.trans hpoint))
    | @taken _ _ g hsome hgist hrests =>
      rw [hgist]
      have hgoing (hqueued : found = .queued ∨ found = .skipped) :
          Plays m reads ground s ⟨g, left, .going r.retry⟩ := by
        rw [← hkept]
        exact .going hrests ((hquiet hqueued).trans (hpoint'.trans hpoint))
      cases found with
      | queued =>
        obtain rfl : EStateM.Result.ok none s = x := hrun
        exact .inr (.inr ⟨.on (hgoing (.inl rfl)), hseen.trans (List.append_nil _).symm⟩)
      | skipped =>
        obtain rfl : EStateM.Result.ok none s = x := hrun
        exact .inr (.inr ⟨.on (hgoing (.inr rfl)), hseen.trans (List.append_nil _).symm⟩)
      | suspended status =>
        obtain rfl : EStateM.Result.ok (some status) s = x := hrun
        obtain ⟨hsuspends, hwaits⟩ := hsuspended status rfl
        have hattends := attends_of_suspends hrests hsuspends hwaits
        rw [hkept] at hattends
        exact .inr (.inr ⟨.waits hattends, hseen.trans (List.append_nil _).symm⟩)
      | noToken region => exact absurd rfl (hsome region)
    | nothing hgist =>
      rw [hgist]
      obtain ⟨hmatches, hturned⟩ := matches_turnBack ht hrun
      exact .inr (.inr ⟨hmatches, hturned.trans (congrArg (· ++ _) hseen)⟩)

/-! ## Turns -/

/-- A turn of a run is a move of its plot, unless something is ignored. -/
theorem matches_turn {π : Plot} (rejects : ProductionId → List ElementId → Bool)
    (hm : Bytewise m reads) (hvalid : m.grammar.validate = .ok ())
    (hstart : m.start < m.grammar.states) (h : Plays m reads ground r π) (hr : Reads r)
    (hrun : turn m r = x) :
    (∃ y s, x = .error y s ∧ Refusal y) ∨
      (∃ s, x = .ok none s ∧ Skips m reads ground r s π) ∨
      Matches m reads ground x (π.tick m reads rejects).2 ∧
        seen (Result.left x) = seen r ++ (π.tick m reads rejects).1 := by
  rw [turn, get_bind] at hrun
  cases h with
  | @going γ left h hpoint =>
    simp only [hpoint] at hrun
    rw [Plot.tick]
    cases hqueue : r.queue with
    | nil =>
      simp only [h.outlines.queue_nil hqueue]
      exact matches_look hm h hr hpoint hqueue hrun
    | cons id rest =>
      obtain ⟨lookahead, queue, hγ, -, -⟩ := h.outlines.queue_cons hqueue
      rw [goForward, get_bind] at hrun
      simp only [hqueue] at hrun
      simp only [hγ]
      exact (matches_step hvalid hstart h hpoint hqueue hγ hrun).imp_right .inr
  | @back γ fork left h hpoint =>
    simp only [hpoint] at hrun
    obtain ⟨s, hunwind, hrests, hstarts, hretry, hseen⟩ := unwind_forks h
    obtain rfl := hunwind.symm.trans hrun
    refine .inr (.inr ⟨?_, hseen.trans (List.append_nil _).symm⟩)
    have hplays := Plays.going hrests hstarts
    rw [hretry] at hplays
    exact .on hplays

end Run

end Rewind
