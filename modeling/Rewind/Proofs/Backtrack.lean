import Rewind.Proofs.Balance
import Rewind.Proofs.Laws

/-!
# Taking back in balance

Each record that is taken back puts the counters back to what they were before it was written,
whatever else has become of the run.  So turning back stops at the latest decision that could have
been another: it meets neither a commit nor the end of the log on the way.
-/

namespace Rewind.Run

open Attempt Op

variable {m : Machine} {r s t : Run} {a : Option Status}

/-! ## Taking back -/

/-- The barrier and the retries behind a change that was taken back. -/
def Record.restores (record : Record) (r : Run) : Nat × Nat :=
  match record with
  | .committed barrier retries => (barrier, retries)
  | _ => (r.barrier, if record.decides then r.retries - 1 else r.retries)

/-- A decision is given back as one. -/
lemma Record.decides_iff {record : Record} :
    record.decides = true ↔ ∃ alternative, record.takenBack = .decision alternative := by
  cases record with
  | shifted _ _ _ _ more => cases more <;> simp [decides, takenBack]
  | reduced _ _ _ more => cases more <;> simp [decides, takenBack]
  | _ => simp [decides, takenBack]

lemma Record.restores_of_decides {record : Record} (h : record.decides = true) (r : Run) :
    record.restores r = (r.barrier, r.retries - 1) := by
  cases record with
  | committed barrier retries => cases h
  | _ => simp [restores, h]

lemma Record.restores_of_isPlain {record : Record} (h : record.isPlain = true) (r : Run) :
    record.restores r = (r.barrier, r.retries) := by
  have hnot := Balanced.not_decides h
  cases record with
  | committed barrier retries => cases h
  | _ => simp [restores, hnot]

/-- Taking back a change puts the counters back, and leaves the log alone. -/
structure PutsBack (record : Record) (b : TakenBack) (r s : Run) : Prop where
  log : s.log = r.log
  counters : (s.barrier, s.retries) = record.restores r
  point : s.point = r.point
  reported : b = record.takenBack

/-- An operation that takes back the change of a record, as far as the counters go. -/
structure Restores (record : Record) (op : Op TakenBack) : Prop where
  ok : ∀ ⦃r s : Run⦄ ⦃b : TakenBack⦄, op r = .ok b s → PutsBack record b r s
  error : ∀ ⦃r s : Run⦄ ⦃e : Error⦄, op r = .error (.error e) s → e.isMishap = true

namespace Restores

variable {record : Record} {α : Type}

/-- What leaves log and counters alone may come before. -/
lemma after {x : Op α} {f : α → Op TakenBack} (hx : Relates SameCount x)
    (hf : ∀ a, Restores record (f a)) : Restores record (x >>= f) := by
  constructor
  · intro r s b h
    obtain ⟨a, t, hxt, hft⟩ := bind_eq_ok.1 h
    obtain ⟨hlog, hbarrier, hretries, hpoint⟩ := (hx r).ok hxt
    obtain ⟨hlog', hcounters, hpoint', hb⟩ := (hf a).ok hft
    refine ⟨hlog'.trans hlog, hcounters.trans ?_, hpoint'.trans hpoint, hb⟩
    unfold Record.restores
    rw [hbarrier, hretries]
  · intro r s e h
    obtain h | ⟨a, t, -, h⟩ := bind_eq_error.1 h
    · exact ((hx r).error h).2
    · exact (hf a).error h

lemma of_ok {op : Op TakenBack} (h : ∀ r, ∃ b s, op r = .ok b s ∧ PutsBack record b r s) :
    Restores record op := by
  constructor
  · intro r s b hop
    obtain ⟨b', s', hop', hback⟩ := h r
    rw [hop'] at hop
    cases hop
    exact hback
  · intro r s e hop
    obtain ⟨b, s', hop', -⟩ := h r
    rw [hop'] at hop
    cases hop

lemma plain (hrecord : record.isPlain = true) (hb : record.takenBack = .plain) :
    Restores record (pure .plain) := by
  refine of_ok fun r => ⟨.plain, r, rfl, rfl, ?_, rfl, hb.symm⟩
  cases record with
  | committed _ _ => cases hrecord
  | _ => simp_all [Record.restores, Record.isPlain, Record.decides]

lemma decision {alternative : Nat} {more : Bool}
    (hrestores : ∀ r, record.restores r =
      (r.barrier, if more then r.retries - 1 else r.retries))
    (hb : record.takenBack = if more then .decision alternative else .plain) :
    Restores record (takeBackDecision alternative more) :=
  of_ok fun r => ⟨_, _, takeBackDecision_ok alternative more r, rfl, (hrestores r).symm,
    rfl, hb.symm⟩

end Restores

lemma restores_undo (record : Record) : Restores record (undo record) := by
  have hmodify {f : Run → Run} (h : ∀ r, SameCount r (f r)) {g : Unit → Op TakenBack}
      (hg : ∀ a, Restores record (g a)) : Restores record (modify f >>= g) :=
    .after (Law.Governs.modify h) hg
  have hc := sameCount_handles
  cases record with
  | scanned id start =>
    exact .after (hc.takeBack id) fun _ => .after (hc.unscan sameCount_streams id start) fun _ =>
      .plain rfl rfl
  | setAside id start =>
    exact .after (hc.node id) fun n =>
      hmodify (fun _ => by exact ⟨rfl, rfl, rfl, rfl⟩) fun _ =>
      .after (hc.unscan sameCount_streams id start) fun _ => .plain rfl rfl
  | treeTaken id ignore =>
    cases ignore with
    | true =>
      exact .after (hc.node id) fun n =>
        hmodify (fun _ => by exact ⟨rfl, rfl, rfl, rfl⟩) fun _ =>
        .after (hc.change id _) fun _ =>
          .after (sameCount_streams.changeStream fun _ => rfl) fun _ =>
        .plain rfl rfl
    | false =>
      exact .after (hc.takeBack id) fun _ =>
        .after (sameCount_streams.changeStream fun _ => rfl) fun _ =>
        .plain rfl rfl
  | consumed text start =>
    exact .after (sameCount_streams.changeStream fun _ => rfl) fun _ => .plain rfl rfl
  | sent id =>
    exact .after (hc.takeBack id) fun _ => .after (hc.releaseTree id) fun _ =>
      .plain rfl rfl
  | textPushed count =>
    exact .after (sameCount_streams.changeStream fun _ => rfl) fun _ => .plain rfl rfl
  | treePushed id =>
    exact .after (sameCount_streams.changeStream fun _ => rfl) fun _ =>
      .after (hc.release id) fun _ =>
      .plain rfl rfl
  | shifted id previous ignored alternative more =>
    have hend : ∀ u : Unit, Restores (.shifted id previous ignored alternative more) (do
        putFront id
        modify fun r => { r with state := previous }
        takeBackDecision alternative more) :=
      fun _ => .after (hc.putFront id) fun _ =>
        hmodify (fun _ => by exact ⟨rfl, rfl, rfl, rfl⟩) fun _ =>
        .decision (fun _ => rfl) rfl
    refine .after (hc.node id) fun n =>
      hmodify (fun _ => by exact ⟨rfl, rfl, rfl, rfl⟩) fun _ =>
      .after (hc.change id _) ?_
    intro u
    cases ignored with
    | none => exact hend u
    | some first =>
      exact .after (hc.change id _) fun _ =>
        hmodify (fun _ => by exact ⟨rfl, rfl, rfl, rfl⟩) hend
  | reduced tree previous alternative more =>
    exact .after (hc.takeFront tree) fun _ => .after Law.Governs.get fun _ =>
      .after (Law.Governs.lookup fun _ _ _ => trivial) fun _ =>
        .after (hc.restack hc.stack _) fun _ =>
      .after (hc.release tree) fun _ =>
      hmodify (fun _ => by exact ⟨rfl, rfl, rfl, rfl⟩) fun _ =>
      .decision (fun _ => rfl) rfl
  | bound name previous =>
    exact hmodify (fun _ => by exact ⟨rfl, rfl, rfl, rfl⟩) fun _ => .plain rfl rfl
  | dropped chain =>
    exact hmodify (fun _ => by exact ⟨rfl, rfl, rfl, rfl⟩) fun _ => .plain rfl rfl
  | committed barrier retries =>
    exact .of_ok fun r => ⟨_, _, rfl, rfl, rfl, rfl, rfl⟩
  | endActionMarked previous =>
    exact hmodify (fun _ => by exact ⟨rfl, rfl, rfl, rfl⟩) fun _ => .plain rfl rfl
  | action data =>
    exact .of_ok fun r => ⟨_, _, rfl, rfl, rfl, rfl, rfl⟩
  | stepEnded =>
    exact hmodify (fun _ => by exact ⟨rfl, rfl, rfl, rfl⟩) fun _ => .plain rfl rfl

/-- Whatever taking back a record comes to, it leaves the log alone. -/
lemma keeps_log_undo (log : Journal Record) (record : Record) :
    (Law.keeping (·.log = log) (·.log = log)).Governs (undo record) :=
  Law.TakesBack.undo
    { forest := fun _ _ h => h
      links := fun _ _ _ h => h
      queue := fun _ _ h => h
      mismatch := fun _ _ _ h => h
      state := fun _ _ h => h
      stack := fun _ _ h => h
      aside := fun _ _ h => h
      bindings := fun _ _ h => h
      counts := fun _ _ _ h => h }
    (fun _ => ⟨fun _ _ => .onScanner (fun _ _ h => h) (fun _ _ _ h => h) (fun _ _ _ h => h) _⟩)
    (fun _ _ _ h => h) fun _ _ _ h => h

/-- What taking back the latest record makes of the counters. -/
structure Undone (record : Record) (older : List Record) (r s : Run) : Prop where
  log : s.log.records = older
  counted : Counted s
  point : s.point = r.point
  counters : record = .committed s.barrier s.retries ∧ r.retries = 0 ∨
    record.decides = true ∧ s.barrier = r.barrier ∧ s.retries + 1 = r.retries ∨
    record.isPlain = true ∧ s.barrier = r.barrier ∧ s.retries = r.retries

lemma PutsBack.undone {record : Record} {older : List Record} {b : TakenBack} {q : Run}
    (hback : PutsBack record b q s)
    (hq : q = { r with log := ⟨older⟩, events := q.events }) (h : Counted r)
    (hlog : r.log.records = record :: older) : Undone record older r s := by
  have hrecords : s.log.records = older := by rw [hback.log, hq]
  have hpoint : s.point = r.point := by rw [hback.point, hq]
  have hcounters : (s.barrier, s.retries) = record.restores r := by
    rw [hback.counters, hq]
    rfl
  rw [Counted, hlog] at h
  rcases h.of_cons with ⟨barrier, retries, rfl, hbalanced, hzero⟩ |
    ⟨hdecides, fewer, hfewer, hbalanced⟩ | ⟨hplain, hbalanced⟩
  · obtain ⟨rfl, rfl⟩ := Prod.mk.inj hcounters
    refine ⟨hrecords, ?_, hpoint, .inl ⟨rfl, hzero⟩⟩
    rw [Counted, hrecords]
    exact hbalanced
  · rw [Record.restores_of_decides hdecides] at hcounters
    obtain ⟨hbarrier, hretries⟩ := Prod.mk.inj hcounters
    rw [hfewer, Nat.add_sub_cancel] at hretries
    refine ⟨hrecords, ?_, hpoint, .inr (.inl ⟨hdecides, hbarrier, by omega⟩)⟩
    rw [Counted, hrecords, hbarrier, hretries]
    exact hbalanced
  · rw [Record.restores_of_isPlain hplain] at hcounters
    obtain ⟨hbarrier, hretries⟩ := Prod.mk.inj hcounters
    refine ⟨hrecords, ?_, hpoint, .inr (.inr ⟨hplain, hbarrier, hretries⟩)⟩
    rw [Counted, hrecords, hbarrier, hretries]
    exact hbalanced

lemma Undone.of_isPlain {record : Record} {older : List Record} (h : Undone record older r s)
    (hplain : record.isPlain = true) : s.barrier = r.barrier ∧ s.retries = r.retries := by
  rcases h.counters with ⟨rfl, -⟩ | ⟨hdecides, -⟩ | ⟨-, hsame⟩
  · cases hplain
  · rw [Balanced.not_decides hplain] at hdecides
    cases hdecides
  · exact hsame

lemma Undone.of_decides {record : Record} {older : List Record} (h : Undone record older r s)
    (hdecides : record.decides = true) : s.barrier = r.barrier ∧ s.retries + 1 = r.retries := by
  rcases h.counters with ⟨rfl, -⟩ | ⟨-, hfewer⟩ | ⟨hplain, -⟩
  · cases hdecides
  · exact hfewer
  · rw [Balanced.not_decides hplain] at hdecides
    cases hdecides

/-- A step of an unwinding that does not end it. -/
lemma unwind_undone {goal : Goal} {record : Record} {older : List Record} (h : Counted r)
    (hlog : r.log.records = record :: older) (hgoal : atGoal r goal = false) :
    (∃ s, Undone record older r s ∧
      unwind m goal r.log.records r = match record.takenBack, goal with
        | .action data, _ => .ok (some (.reverse data)) s
        | .decision alternative, .backtrack =>
          .ok none { s with retry := alternative + 1, point := .start }
        | _, _ => unwind m goal older s) ∨
      (∃ e s, unwind m goal r.log.records r = .error (.error e) s ∧ e.isMishap = true) ∨
      ∃ f s, unwind m goal r.log.records r = .error (.fault f) s ∧ s.log.records = older := by
  rw [hlog, unwind, get_bind, hgoal]
  simp only [Bool.false_eq_true, if_false, modify_bind, tell_bind]
  cases hundo : undo record { r with log := ⟨older⟩, events := .undone record :: r.events } with
  | ok b s =>
    have hback := (restores_undo record).ok hundo
    refine .inl ⟨s, hback.undone rfl h hlog, ?_⟩
    rw [bind_ok hundo, hback.reported]
    cases record.takenBack with
    | plain => rfl
    | decision alternative => cases goal <;> rfl
    | action data => cases goal <;> rfl
  | error e s =>
    refine .inr ?_
    rw [bind_error hundo]
    cases e with
    | error e => exact .inl ⟨e, s, rfl, (restores_undo record).error hundo⟩
    | fault f =>
      have hkept : s.log = ⟨older⟩ := (keeps_log_undo ⟨older⟩ record _).fault hundo rfl
      exact .inr ⟨f, s, rfl, congrArg Journal.records hkept⟩

/-- Taking back ends with fatal errors only. -/
theorem grave_unwind (m : Machine) (goal : Goal) (records : List Record) :
    Grave (unwind m goal records) :=
  ((Law.grave_unwinds goal).unwind (fun _ _ _ => trivial)
    (fun _ _ _ => Law.grave_takes.streams) fun _ _ _ => trivial).grave

lemma retriesCounted_settle {status : Status} (h : Counted r) (hrun : settle m r = .ok status s) :
    RetriesCounted s := by
  rw [settle, get_bind] at hrun
  obtain ⟨reached, t, hreached, h1⟩ := bind_eq_ok.1 hrun
  obtain ⟨-, rfl⟩ := lookup_eq_ok.1 hreached
  cases h1
  refine ⟨h, fun hpoint => ?_⟩
  dsimp only at hpoint
  split at hpoint <;> cases hpoint

/-- Taking back keeps the counters right, wherever it ends. -/
theorem retriesCounted_unwind {goal : Goal} (h : RetriesCounted r)
    (hpoint : r.point = .reverse goal)
    (hrun : unwind m goal r.log.records r = .ok a s) : RetriesCounted s := by
  generalize hrecords : r.log.records = records at hrun
  induction records generalizing r with
  | nil =>
    rw [unwind, get_bind] at hrun
    split at hrun
    · obtain ⟨status, t, hsettle, h1⟩ := bind_eq_ok.1 hrun
      cases h1
      exact retriesCounted_settle h.counted hsettle
    · cases hrun
  | cons record older ih =>
    cases hgoal : atGoal r goal with
    | true =>
      rw [unwind, get_bind, if_pos hgoal] at hrun
      obtain ⟨status, t, hsettle, h1⟩ := bind_eq_ok.1 hrun
      cases h1
      exact retriesCounted_settle h.counted hsettle
    | false =>
      rw [← hrecords] at hrun
      rcases unwind_undone h.counted hrecords hgoal with ⟨t, ht, hunwind⟩ | ⟨e, t, hunwind, -⟩ |
        ⟨f, t, hunwind, -⟩
      · rw [hunwind] at hrun
        have hpoint' : t.point = .reverse goal := ht.point.trans hpoint
        -- Turning back only goes on below records that were no decisions.
        have hhopeful (hnot : record.decides = false) (hback : t.point = .reverse .backtrack) :
            0 < t.retries := by
          have hpos := h.hopeful (ht.point ▸ hback)
          rcases ht.counters with ⟨-, hzero⟩ | ⟨hdecides, -⟩ | ⟨-, -, hsame⟩
          · omega
          · rw [hnot] at hdecides
            cases hdecides
          · omega
        have hrest (hnot : record.decides = false) (h1 : unwind m goal older t = .ok a s) :
            RetriesCounted s :=
          ih ⟨ht.counted, hhopeful hnot⟩ hpoint' ht.log h1
        cases htaken : record.takenBack with
        | plain =>
          rw [htaken] at hrun
          refine hrest ?_ hrun
          rw [← Bool.not_eq_true, Record.decides_iff]
          simp [htaken]
        | action data =>
          rw [htaken] at hrun
          obtain ⟨-, rfl⟩ := EStateM.Result.ok.inj hrun
          refine ⟨ht.counted, hhopeful ?_⟩
          rw [← Bool.not_eq_true, Record.decides_iff]
          simp [htaken]
        | decision alternative =>
          rw [htaken] at hrun
          cases goal with
          | backtrack =>
            obtain ⟨-, rfl⟩ := EStateM.Result.ok.inj hrun
            exact ⟨ht.counted, fun hback => by cases hback⟩
          | step target =>
            refine ih ⟨ht.counted, fun hback => ?_⟩ hpoint' ht.log hrun
            rw [hpoint'] at hback
            cases hback
      · rw [hunwind] at hrun
        cases hrun
      · rw [hunwind] at hrun
        cases hrun

/-! ## Turning back -/

/-- What turning back comes to: a decision is taken back, to be another one, or the run waits for
its caller on the way there. -/
inductive TurnsBack (decision : Record) (older : List Record) (r : Run) :
    Option Status → Run → Prop
  | decided {alternative : Nat} {s : Run} :
    decision.takenBack = .decision alternative → s.log.records = older →
    s.barrier = r.barrier → s.retries + 1 = r.retries → s.retry = alternative + 1 →
    s.point = .start → TurnsBack decision older r none s
  | waiting {data : Bytes} {newer above : List Record} {s : Run} :
    r.log.records = newer ++ .action data :: (above ++ decision :: older) →
    s.log.records = above ++ decision :: older → s.barrier = r.barrier → s.retries = r.retries →
    s.point = .reverse .backtrack → TurnsBack decision older r (some (.reverse data)) s

/-- A plain record makes no difference to how turning back ends. -/
lemma TurnsBack.cons {decision record : Record} {above older : List Record} {t : Run}
    (ht : Undone record above r t) (hrecord : record.isPlain = true)
    (hlog : r.log.records = record :: above) (h : TurnsBack decision older t a s) :
    TurnsBack decision older r a s := by
  obtain ⟨hbarrier, hretries⟩ := ht.of_isPlain hrecord
  cases h with
  | decided htaken holder hb hr hretry hpoint =>
    exact .decided htaken holder (hb.trans hbarrier) (hr.trans hretries) hretry hpoint
  | @waiting data newer above' _ hrecords hs hb hr hpoint =>
    refine @TurnsBack.waiting _ _ _ data (record :: newer) above' s ?_ hs (hb.trans hbarrier)
      (hr.trans hretries) hpoint
    rw [hlog, ← ht.log, hrecords]
    rfl

/-- Turning back stops at the latest decision that could have been another, unless something else
than the log is at fault, and takes back nothing behind it then either. -/
theorem unwind_backtrack {newer older : List Record} {decision : Record} (h : Counted r)
    (hpoint : r.point = .reverse .backtrack) (hlog : r.log.records = newer ++ decision :: older)
    (hnewer : ∀ x ∈ newer, x.isPlain = true) (hdecides : decision.decides = true) :
    (∃ a s, unwind m .backtrack r.log.records r = .ok a s ∧ TurnsBack decision older r a s) ∨
      (∃ e s, unwind m .backtrack r.log.records r = .error (.error e) s ∧ e.isMishap = true) ∨
      ∃ f s, unwind m .backtrack r.log.records r = .error (.fault f) s ∧
        older <:+ s.log.records := by
  have hgoal (q : Run) : atGoal q .backtrack = false := rfl
  induction newer generalizing r with
  | nil =>
    rcases unwind_undone h hlog (hgoal r) with ⟨s, hs, hunwind⟩ | hmishap | ⟨f, s, hunwind, hs⟩
    · obtain ⟨alternative, htaken⟩ := Record.decides_iff.1 hdecides
      rw [htaken] at hunwind
      obtain ⟨hbarrier, hretries⟩ := hs.of_decides hdecides
      exact .inl ⟨none, _, hunwind, .decided htaken hs.log hbarrier hretries rfl rfl⟩
    · exact .inr (.inl hmishap)
    · exact .inr (.inr ⟨f, s, hunwind, hs ▸ List.suffix_refl _⟩)
  | cons record newer ih =>
    have hrecord := hnewer record List.mem_cons_self
    rcases unwind_undone h hlog (hgoal r) with ⟨t, ht, hunwind⟩ | hmishap | ⟨f, s, hunwind, hs⟩
    · rw [hunwind]
      have hrest := ih ht.counted (ht.point.trans hpoint) ht.log
        fun x hx => hnewer x (List.mem_cons_of_mem _ hx)
      rw [ht.log] at hrest
      cases htaken : record.takenBack with
      | plain =>
        refine hrest.imp_left ?_
        rintro ⟨a, s, hrun, hs⟩
        exact ⟨a, s, hrun, hs.cons ht hrecord hlog⟩
      | decision alternative =>
        have hnot := Record.decides_iff.2 ⟨alternative, htaken⟩
        rw [Balanced.not_decides hrecord] at hnot
        cases hnot
      | action data =>
        have haction : record = .action data := by
          cases record with
          | shifted _ _ _ _ more => cases more <;> cases htaken
          | reduced _ _ _ more => cases more <;> cases htaken
          | action _ =>
            cases htaken
            rfl
          | _ => cases htaken
        subst haction
        obtain ⟨hbarrier, hretries⟩ := ht.of_isPlain hrecord
        exact .inl ⟨_, t, rfl, .waiting (show _ = [] ++ _ from hlog) ht.log hbarrier hretries
          (ht.point.trans hpoint)⟩
    · exact .inr (.inl hmishap)
    · refine .inr (.inr ⟨f, s, hunwind, ?_⟩)
      rw [hs]
      exact (List.suffix_cons _ _).trans (List.suffix_append _ _)

end Rewind.Run
