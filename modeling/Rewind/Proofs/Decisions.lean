import Rewind.Proofs.Retries
import Rewind.Proofs.Written

/-!
# Backtracking is exact

A turn back after an error ends at the latest decision that could have been another.  The run is
then what it was before that decision was taken, but that the next alternative is due: every record
above the decision is taken back on the way, those of the caller and those of half a step, and the
lookahead is in front again.
-/

namespace Rewind.Run

open Attempt Op

/-! ## Moments of decisions -/

/-- For each length of the log, the run of that length that a parse has passed through last. -/
abbrev Moments := Nat → Run

namespace Moments

/-- A parse passes through a run. -/
def note (c : Moments) (r : Run) : Moments :=
  Function.update c r.log.length r

/-- A parse passes through runs, one after the other. -/
def notes (c : Moments) (runs : List Run) : Moments :=
  runs.foldl note c

end Moments

/-- What was done with a run since the start, without a fatal error, with the moments that its
parses passed through.  A run that a parse passes through is such a run too, while the turns behind
it are yet to come. -/
inductive Remembered (m : Machine) (start : Run) : Moments → Run → Prop
  | start : Remembered m start (fun _ => start) start
  | call {c : Moments} {call : Call} {r s : Run} :
    Remembered m start c r → (∀ stream, call ≠ .attach stream) → call ≠ .giveUpLog → call.IsLoose →
    call.Leads m r s → s.aborted = false → Remembered m start (c.notes (call.passed m r)) s
  | passed {c : Moments} {call : Call} {r s : Run} {earlier later : List Run} :
    Remembered m start c r → call.passed m r = earlier ++ s :: later →
    Remembered m start (c.notes earlier) s

/-- A turn from this run takes the decision that the record tells of, for the node in front. -/
structure Decided (m : Machine) (q : Run) (id : NodeId) (record : Record) : Prop where
  point : q.point = .start
  front : ∃ rest, q.queue = id :: rest
  decides : ∃ n decision, Pool.get? q.forest id = some n ∧
    m.grammar.decide q.state n.element q.retry = .ok (some decision) ∧ decision.more = true
  told : record.takenBack = .decision q.retry
  written : ∃ a t newer, turn m q = .ok a t ∧ t.log.records = newer ++ record :: q.log.records

/-- Of a decision that could have been another, the moments tell from where it was taken. -/
def Remembers (m : Machine) (c : Moments) (record : Record) (older : List Record) (v _ : View) :
    Prop :=
  record.decides = true → (c older.length).log.records = older ∧ (c older.length).view = v ∧
    ∃ id, Decided m (c older.length) id record

/-- The log leads back to the base, and the moments of its decisions are known. -/
structure Traced (m : Machine) (base : View) (c : Moments) (r : Run) : Prop where
  backed : Backed m True (Remembers m c) base r
  tidy : ∀ length, Tidy True (c length)

variable {m : Machine} {strict : Prop} {stream : Stream} {base : View} {before : List Record}
  {c : Moments} {start r s t : Run} {a : Option Status}

/-! ## What decides -/

/-- A record of anything but a decision that could have been another. -/
def Record.isSettled (record : Record) : Bool :=
  !record.decides

lemma Written.settled (h : Written Record.isRoutine before r) :
    Written Record.isSettled before r :=
  h.mono fun _ hrecord => (Bool.and_eq_true_iff.1 hrecord).2

lemma Adds.settled (h : Adds r s) : Written Record.isSettled r.log.records s := by
  obtain ⟨newer, hlog, hplain⟩ := h.log
  refine ⟨newer, hlog, fun record hrecord => ?_⟩
  rw [Record.isSettled, Balanced.not_decides (hplain record hrecord)]
  rfl

/-- What was decided is the first thing written down, and nothing behind it decides. -/
lemma decided_act {id : NodeId} {element : ElementId} {decision : Grammar.Decision}
    {target : StateId} {commits : Bool}
    (h : act m id decision target commits (decided element decision r) = .ok a s) :
    ∃ record, Written Record.isSettled (record :: r.log.records) s ∧
      record.decides = decision.more ∧
      (decision.more = true → record.takenBack = .decision decision.alternative) := by
  have htold {record : Record}
      (h : record.takenBack = if decision.more then .decision decision.alternative else .plain)
      (hmore : decision.more = true) : record.takenBack = .decision decision.alternative := by
    rw [h, if_pos hmore]
  unfold act at h
  cases haction : decision.action with
  | shift =>
    rw [haction] at h
    obtain ⟨u, t, hshift, h1⟩ := bind_eq_ok.1 h
    obtain ⟨-, rfl⟩ := EStateM.Result.ok.inj h1
    obtain ⟨rest, n, -, -, rfl⟩ := shift_ok hshift
    exact ⟨_, .refl _, rfl, htold rfl⟩
  | reduce production =>
    rw [haction] at h
    obtain ⟨info, children, below, span, tree, made, linked, state, -, -, -, -, -, -, -, rfl⟩ :=
      reduce_ok h
    exact ⟨_, .refl _, rfl, htold rfl⟩
  | shiftReduce production =>
    rw [haction] at h
    obtain ⟨u, t, hshift, hreduce⟩ := bind_eq_ok.1 h
    obtain ⟨rest, n, -, -, ht⟩ := shift_ok hshift
    obtain ⟨info, children, below, span, tree, made, linked, state, -, -, -, -, -, -, -, rfl⟩ :=
      reduce_ok hreduce
    have hlog : t.log = r.log.append (.shifted id r.state (carried m n r.aside)
      decision.alternative decision.more) := by rw [ht]; rfl
    have hshifted : Written Record.isSettled t.log.records t := .refl t
    rw [hlog] at hshifted
    exact ⟨_, hshifted.write rfl rfl, rfl, htold rfl⟩

/-- A turn forward takes one decision at most, for the node in front. -/
lemma decided_goForward (hpool : Pool.Sound r.forest) (hattached : r.scanner.stream.isSome)
    (hpoint : r.point = .start) (h : goForward m r = .ok a s) :
    Written Record.isSettled r.log.records s ∨
      ∃ record id, Written Record.isSettled (record :: r.log.records) s ∧
        (record.decides = true → Decided m r id record) := by
  have hturn : turn m r = .ok a s := by
    rw [turn, get_bind]
    simp only [hpoint]
    exact h
  have hdecided {id : NodeId} {rest : List NodeId} {n : Node} {decision : Grammar.Decision}
      {record : Record} (hqueue : r.queue = id :: rest) (hn : Pool.get? r.forest id = some n)
      (hdecide : m.grammar.decide r.state n.element r.retry = .ok (some decision))
      (hmore : record.decides = decision.more)
      (htold : decision.more = true → record.takenBack = .decision decision.alternative)
      (hwritten : Written Record.isSettled (record :: r.log.records) s)
      (hrecord : record.decides = true) : Decided m r id record := by
    obtain ⟨newer, hnewer, -⟩ := hwritten
    have hmore := hmore.symm.trans hrecord
    refine ⟨hpoint, ⟨rest, hqueue⟩, ⟨n, decision, hn, hdecide, hmore⟩, ?_, a, s, newer, hturn,
      hnewer⟩
    rw [htold hmore, decide_alternative hdecide]
  cases goForward_ok hpool hattached h with
  | @stepped id rest _ _ hqueue hsteps =>
    cases hsteps with
    | refused _ _ _ => exact .inl (.refl r)
    | suspended hn hdecide _ _ hact =>
      obtain ⟨record, hwritten, hmore, htold⟩ := decided_act hact
      exact .inr ⟨record, id, hwritten, hdecided hqueue hn hdecide hmore htold hwritten⟩
    | completed hn hdecide _ _ hact hcomplete =>
      obtain ⟨record, hwritten, hmore, htold⟩ := decided_act hact
      have hended := hwritten.trans (written_completeStep hcomplete).settled
      exact .inr ⟨record, id, hended, hdecided hqueue hn hdecide hmore htold hended⟩
  | acquired _ hrescans hacquires =>
    exact .inl (hacquires.elim (fun h => (written_acquired hrescans h).settled)
      fun h => (written_acquired hrescans h).settled)
  | suspended _ hrescans hacquires => exact .inl (written_acquired hrescans hacquires).settled
  | refused _ hrescans hacquires _ => exact .inl (written_acquired hrescans hacquires).settled

/-! ## What moments remember -/

namespace Traced

/-- That a parse passes through a run changes no moment that its log knows of. -/
lemma note (h : Traced m base c r) : Traced m base (c.note r) r := by
  refine ⟨⟨h.backed.toTidy, h.backed.course.weaken ?_⟩, fun length => ?_⟩
  · rintro record older v v' ⟨newer, hsplit⟩ hremembers
    have hshorter : older.length ≠ r.log.length := by
      rw [Journal.length, hsplit, List.length_append, List.length_cons]
      omega
    rw [Remembers, Moments.note, Function.update_of_ne hshorter]
    exact hremembers
  · rw [Moments.note]
    by_cases hlength : length = r.log.length
    · rw [hlength, Function.update_self]
      exact h.backed.toTidy
    · rw [Function.update_of_ne hlength]
      exact h.tidy length

/-- Moves after which the moments tell what was decided. -/
lemma moves (h : Traced m base c r) (hmoves : Moves m True (fun _ _ => True) r s)
    (hremembers : ∀ newer record older v w,
      s.log.records = newer ++ record :: older →
      Path m True (fun _ _ => True) r.log.records r.view s.unread older v →
      Remembers m c record older v w) : Traced m base c s :=
  ⟨⟨hmoves.tidy, (h.backed.course.mono hmoves.unread).trans hmoves.path
    fun newer record older v w hsplit hpath _ => hremembers newer record older v w hsplit hpath⟩,
    h.tidy⟩

/-- Moves that decide nothing. -/
lemma moves_settled (h : Traced m base c r) (hmoves : Moves m True (fun _ _ => True) r s)
    (hwritten : Written Record.isSettled r.log.records s) : Traced m base c s := by
  refine h.moves hmoves fun newer record older v w hsplit hpath hdecides => ?_
  obtain ⟨between, rfl⟩ := hpath.suffix
  have hsettled := hwritten.of_split hsplit
  rw [Record.isSettled, hdecides] at hsettled
  cases hsettled

/-- Moves that decide first, from a run that the moments know of. -/
lemma moves_decided {id : NodeId} {decision : Record} (h : Traced m base c r)
    (hnow : c r.log.length = r) (hmoves : Moves m True (fun _ _ => True) r s)
    (hwritten : Written Record.isSettled (decision :: r.log.records) s)
    (hdecided : decision.decides = true → Decided m r id decision) : Traced m base c s := by
  refine h.moves hmoves fun newer record older v w hsplit hpath hdecides => ?_
  obtain ⟨between, rfl⟩ := hpath.suffix
  rcases hwritten.first_or hsplit with ⟨rfl, rfl⟩ | hsettled
  · rw [List.nil_append, ← Journal.length, hnow]
    exact ⟨rfl, hpath.of_same.symm, id, hdecided hdecides⟩
  · rw [Record.isSettled, hdecides] at hsettled
    cases hsettled

end Traced

/-! ## Parses are remembered -/

lemma unwind_traced {goal : Goal} (h : Traced m base c r) (hbase : Orderly base)
    (hlasts : Lasts (unwind m goal r.log.records) r s) : Traced m base c s := by
  rcases unwind_backed h.backed hbase goal with ⟨b, t, hunwind, ht, -⟩ | ⟨t, hunwind, -⟩
  · rcases hlasts with ⟨a, hrun⟩ | ⟨e, he, hrun⟩
    · obtain ⟨-, rfl⟩ := EStateM.Result.ok.inj (hrun.symm.trans hunwind)
      exact ⟨ht, h.tidy⟩
    · rw [hunwind] at hrun
      cases hrun
  · rcases hlasts with ⟨a, hrun⟩ | ⟨e, he, hrun⟩
    · rw [hunwind] at hrun
      cases hrun
    · rw [hunwind] at hrun
      cases hrun
      cases he

lemma turn_traced (h : Traced m base c r) (hbase : Orderly base)
    (hlasts : Lasts (turn m) r s) : Traced m base (c.note r) s := by
  have hr := h.note
  have ho := h.backed.orderly hbase
  have htidy := h.backed.toTidy
  rcases lasts_turn hlasts with ⟨⟨a, hrun⟩ | ⟨e, he, hrun⟩, hpoint⟩ | ⟨goal, -, hunwind⟩ | rfl
  · have hmoves : Moves m True (fun _ _ => True) r s :=
      (moves_forwards htidy ho hpoint (goForward_ok htidy.pool htidy.attached hrun)
        fun _ _ => trivial).1
    rcases decided_goForward htidy.pool htidy.attached hpoint hrun with
      hwritten | ⟨record, id, hwritten, hdecided⟩
    · exact hr.moves_settled hmoves hwritten
    · exact hr.moves_decided (Function.update_self ..) hmoves hwritten hdecided
  · exact hr.moves_settled (moves_goForward_error htidy ho he hrun)
      (written_goForward_error htidy he hrun).settled
  · exact unwind_traced hr hbase hunwind
  · exact hr

lemma enter_traced {entry : Entry} (h : Traced m base c r) (hbase : Orderly base)
    (hlasts : Lasts (enter m entry) r s) : Traced m base c s := by
  have ho := h.backed.orderly hbase
  have htidy := h.backed.toTidy
  rcases hlasts with ⟨a, henter⟩ | ⟨e, he, henter⟩
  · exact h.moves_settled (moves_enters htidy ho (enter_ok henter) fun _ _ => trivial).1
      (written_enters (enter_ok henter)).settled
  · exact h.moves_settled (moves_enter_error htidy he henter)
      (written_enter_error he henter).settled

lemma takeTurns_traced {turns : Nat} (h : Traced m base c r) (hbase : Orderly base)
    (hlasts : Lasts (takeTurns m turns) r s) :
    Traced m base (c.notes (r :: turnsTaken m turns r)) s := by
  induction turns generalizing r c with
  | zero => rcases hlasts with ⟨status, h⟩ | ⟨e, -, h⟩ <;> cases h
  | succ turns ih =>
    rw [takeTurns] at hlasts
    rcases lasts_bind hlasts with ⟨e, he, hturn⟩ | ⟨a, t, hturn, hrest⟩
    · rw [turnsTaken, hturn]
      exact turn_traced h hbase (.inr ⟨e, he, hturn⟩)
    · have ht := turn_traced h hbase (lasts_ok hturn)
      rw [turnsTaken, hturn]
      cases a with
      | some status =>
        rcases hrest with ⟨status', hrun⟩ | ⟨e, -, hrun⟩ <;> cases hrun
        exact ht.note
      | none => exact ih ht hrest

lemma resume_traced {turns : Nat} {entry : Entry} (h : Traced m base c r) (hbase : Orderly base)
    (hlasts : Lasts (resume m turns entry) r s) :
    Traced m base (c.notes (passed m turns entry r)) s := by
  rw [resume] at hlasts
  rcases lasts_bind hlasts with ⟨e, he, henter⟩ | ⟨a, t, henter, hrest⟩
  · rw [passed, henter]
    exact enter_traced h hbase (.inr ⟨e, he, henter⟩)
  · have ht := enter_traced h hbase (lasts_ok henter)
    rw [passed, henter]
    cases a with
    | some status =>
      rcases hrest with ⟨status', hrun⟩ | ⟨e, -, hrun⟩ <;> cases hrun
      exact ht.note
    | none => exact takeTurns_traced ht hbase hrest

/-- So are the runs that a parse passes through, each with the moments before it. -/
lemma turnsTaken_traced {turns : Nat} {earlier later : List Run} (h : Traced m base c r)
    (hbase : Orderly base) (hsplit : turnsTaken m turns r = earlier ++ s :: later) :
    Traced m base (c.notes (r :: earlier)) s := by
  induction turns generalizing r c earlier with
  | zero => simp [turnsTaken] at hsplit
  | succ turns ih =>
    rw [turnsTaken] at hsplit
    cases hturn : turn m r with
    | error e t =>
      rw [hturn] at hsplit
      simp at hsplit
    | ok a t =>
      have ht := turn_traced h hbase (lasts_ok hturn)
      obtain ⟨rest, htaken, hrest⟩ : ∃ rest, t :: rest = earlier ++ s :: later ∧
          (rest = [] ∨ rest = turnsTaken m turns t) := by
        rw [hturn] at hsplit
        cases a with
        | some status => exact ⟨[], hsplit, .inl rfl⟩
        | none => exact ⟨_, hsplit, .inr rfl⟩
      cases earlier with
      | nil =>
        obtain ⟨rfl, -⟩ := List.cons.inj htaken
        exact ht
      | cons first earlier =>
        obtain ⟨rfl, htail⟩ := List.cons.inj htaken
        rcases hrest with rfl | rfl
        · simp at htail
        · have hs := ih ht htail
          exact hs

lemma passed_traced {turns : Nat} {entry : Entry} {earlier later : List Run}
    (h : Traced m base c r) (hbase : Orderly base)
    (hsplit : passed m turns entry r = earlier ++ s :: later) :
    Traced m base (c.notes earlier) s := by
  rw [passed] at hsplit
  cases henter : enter m entry r with
  | error e t =>
    rw [henter] at hsplit
    simp at hsplit
  | ok a t =>
    have ht := enter_traced h hbase (lasts_ok henter)
    obtain ⟨rest, htaken, hrest⟩ : ∃ rest, t :: rest = earlier ++ s :: later ∧
        (rest = [] ∨ rest = turnsTaken m turns t) := by
      rw [henter] at hsplit
      cases a with
      | some status => exact ⟨[], hsplit, .inl rfl⟩
      | none => exact ⟨_, hsplit, .inr rfl⟩
    cases earlier with
    | nil =>
      obtain ⟨rfl, -⟩ := List.cons.inj htaken
      exact ht
    | cons first earlier =>
      obtain ⟨rfl, htail⟩ := List.cons.inj htaken
      rcases hrest with rfl | rfl
      · simp at htail
      · exact turnsTaken_traced ht hbase htail

/-! ## Calls are remembered -/

/-- Events are nothing that moments tell of. -/
lemma Traced.events (h : Traced m base c r) (events : List Event) :
    Traced m base c { r with events } :=
  ⟨h.backed.quiet ⟨h.backed.attached, h.backed.pool, h.backed.loose⟩ rfl rfl rfl, h.tidy⟩

lemma goBack_traced {target : Nat} (h : Traced m base c r) (hbase : Orderly base)
    (hlasts : Lasts (goBack m target) r s) : Traced m base c s := by
  obtain ⟨-, -, hturns⟩ := lasts_goBack hlasts
  have haimed : Traced m base c { r with point := .reverse (.step target) } :=
    ⟨h.backed.quiet ⟨h.backed.attached, h.backed.pool, h.backed.loose⟩ rfl rfl rfl, h.tidy⟩
  rw [takeTurns] at hturns
  rcases lasts_bind hturns with ⟨e, he, hturn⟩ | ⟨a, t, hturn, hrest⟩
  · exact unwind_traced haimed hbase (.inr ⟨e, he, hturn⟩)
  · have ht := unwind_traced haimed hbase (lasts_ok hturn)
    cases a with
    | some status =>
      rcases hrest with ⟨status', hrun⟩ | ⟨e, -, hrun⟩ <;> cases hrun
      exact ht
    | none => rcases hrest with ⟨status, hrun⟩ | ⟨e, -, hrun⟩ <;> cases hrun

lemma call_traced {call : Call} (h : Traced m base c r) (hbase : Orderly base)
    (hattach : ∀ stream, call ≠ .attach stream) (hgive : call ≠ .giveUpLog)
    (hloose : call.IsLoose) (hcall : call.Leads m r s) (halive : s.aborted = false) :
    Traced m base (c.notes (call.passed m r)) s := by
  by_cases haside : call.IsAside
  · obtain ⟨hmoves, -⟩ := moves_call h.backed.toTidy (h.backed.orderly hbase) haside
      (fun _ => hloose) hcall
    have hpassed : call.passed m r = [] := by
      cases call with
      | parse turns entry => exact haside.elim
      | _ => rfl
    rw [hpassed]
    exact h.moves_settled hmoves (adds_call (.inl haside) hcall).settled
  cases call with
  | attach stream => exact absurd rfl (hattach stream)
  | giveUpLog => exact absurd rfl hgive
  | parse turns entry =>
    obtain ⟨-, t, events, hlasts, rfl⟩ := lasts_of_unlessAborted hcall halive
    exact (resume_traced h hbase hlasts).events events
  | undoTo target =>
    obtain ⟨-, t, events, hlasts, rfl⟩ := lasts_of_unlessAborted hcall halive
    exact (goBack_traced h hbase hlasts).events events
  | _ => exact absurd trivial haside

/-- Whatever is remembered is traced, and has its counters right. -/
lemma remembered_traced (hfresh : Fresh m stream start) (h : Remembered m start c r) :
    Traced m start.view c r ∧ RetriesCounted r := by
  have hlog : start.log = Journal.empty := by
    obtain ⟨blockLength, blockLimit, target, rfl⟩ := hfresh.eq
    rfl
  induction h with
  | start =>
    refine ⟨⟨⟨hfresh.tidy, ?_⟩, fun _ => hfresh.tidy⟩, reached_retriesCounted (.fresh hfresh)⟩
    rw [hlog]
    exact .start
  | @call c call r s _ hattach hgive hloose hcall halive ih =>
    have hpermitted : call.IsPermitted false r := by
      cases call with
      | giveUpLog => exact absurd rfl hgive
      | _ => trivial
    exact ⟨call_traced ih.1 hfresh.orderly hattach hgive hloose hcall halive,
      retriesCounted_call ih.2 hpermitted hcall halive⟩
  | @passed c call r s earlier later _ hsplit ih =>
    cases call with
    | parse turns entry =>
      have hmem : s ∈ passed m turns entry r := by
        rw [show passed m turns entry r = earlier ++ s :: later from hsplit]
        simp
      exact ⟨passed_traced ih.1 hfresh.orderly hsplit, (steady_retriesCounted m).passed ih.2 hmem⟩
    | _ => simp [Call.passed] at hsplit

/-! ## Back to a decision -/

/-- What a turn back comes to when the latest decision that could have been another lies under
`newer`: the run is in front of that decision, or waits for its caller on the way. -/
inductive Rewound (m : Machine) (Step : Record → List Record → View → View → Prop) (base : View)
    (decision : Record) (older newer : List Record) : Option Status → Run → Prop
  | decided {alternative : Nat} {w : View} {s : Run} :
    decision.takenBack = .decision alternative → s.log.records = older →
    s.retry = alternative + 1 → s.point = .start → Step decision older s.view w →
    Rewound m Step base decision older newer none s
  | waiting {data : Bytes} {above : List Record} {s : Run} :
    s.log.records = above ++ decision :: older → above.length < newer.length →
    above <:+ newer → s.point = .reverse .backtrack →
    Rewound m Step base decision older newer (some (.reverse data)) s

section Rewound

variable {Step : Record → List Record → View → View → Prop} {decision : Record}
  {older newer : List Record}

lemma Rewound.cons {record : Record} (h : Rewound m Step base decision older newer a s) :
    Rewound m Step base decision older (record :: newer) a s := by
  cases h with
  | decided htaken hlog hretry hpoint hstep => exact .decided htaken hlog hretry hpoint hstep
  | waiting hlog hshorter hsuffix hpoint =>
    exact .waiting hlog (Nat.lt_succ_of_lt hshorter)
      (hsuffix.trans (List.suffix_cons record newer)) hpoint

/-- Taking back the records above a decision cannot fail, and puts its lookahead in front again. -/
lemma unwind_rewound (h : Backed m strict Step base r) (hbase : Orderly base)
    (hpoint : r.point = .reverse .backtrack) (hlog : r.log.records = newer ++ decision :: older)
    (hnewer : ∀ record ∈ newer, record.decides = false) (hdecides : decision.decides = true) :
    ∃ a s, unwind m .backtrack r.log.records r = .ok a s ∧ Backed m strict Step base s ∧
      Rewound m Step base decision older newer a s := by
  induction newer generalizing r with
  | nil =>
    obtain ⟨s, hs, hstep, -, holder, -, -, hunwind⟩ :=
      unwind_latest h hbase .backtrack hlog rfl
    obtain ⟨alternative, htaken⟩ := Record.decides_iff.1 hdecides
    rw [htaken] at hunwind
    exact ⟨none, _, hunwind, hs.quiet ⟨hs.attached, hs.pool, hs.loose⟩ rfl rfl rfl,
      .decided htaken holder rfl rfl hstep⟩
  | cons record newer ih =>
    obtain ⟨s, hs, -, -, habove, -, hsame, hunwind⟩ :=
      unwind_latest h hbase .backtrack hlog rfl
    have hpoint' : s.point = .reverse .backtrack := hsame.point.trans hpoint
    rw [hunwind]
    cases htaken : record.takenBack with
    | plain =>
      obtain ⟨a, t, hrest, ht, hrewound⟩ := ih hs hpoint' habove
        fun x hx => hnewer x (List.mem_cons_of_mem _ hx)
      rw [habove] at hrest
      exact ⟨a, t, hrest, ht, hrewound.cons⟩
    | decision alternative =>
      have hdecides := Record.decides_iff.2 ⟨alternative, htaken⟩
      rw [hnewer record List.mem_cons_self] at hdecides
      cases hdecides
    | action data =>
      exact ⟨_, s, rfl, hs,
        .waiting habove (Nat.lt_succ_self _) (List.suffix_cons record newer) hpoint'⟩

end Rewound

/-- Turns back to a decision.  Whatever the caller is given back on the way, it only goes on. -/
def reconsider (m : Machine) : (answers : Nat) → Op Unit
  | 0 => lookup (.error .unfinished)
  | answers + 1 => do
    match ← turn m with
    | none => return
    | some status => do
      tell (.suspended status)
      reconsider m answers

/-- The run is in front of a decision again that it took for the node in front, and the next
alternative is due. -/
structure Reconsidered (m : Machine) (q : Run) (id : NodeId) (decision : Record) (s : Run) :
    Prop extends Decided m q id decision where
  agrees : Agrees q s
  retry : s.retry = q.retry + 1
  next : turn m s = step m id s

lemma reconsider_ok {older newer : List Record} {decision : Record} {answers : Nat}
    (h : Traced m base c r) (hbase : Orderly base) (hpoint : r.point = .reverse .backtrack)
    (hlog : r.log.records = newer ++ decision :: older)
    (hnewer : ∀ record ∈ newer, record.decides = false) (hdecides : decision.decides = true)
    (hanswers : newer.length < answers) :
    ∃ id s, reconsider m answers r = .ok () s ∧
      Reconsidered m (c older.length) id decision s := by
  induction answers generalizing r newer with
  | zero => omega
  | succ answers ih =>
    obtain ⟨a, s, hunwind, hs, hrewound⟩ :=
      unwind_rewound h.backed hbase hpoint hlog hnewer hdecides
    have hturn : turn m r = .ok a s := by
      rw [turn, get_bind]
      simp only [hpoint]
      exact hunwind
    rw [reconsider, bind_ok hturn]
    cases hrewound with
    | decided htaken holder hretry hstart hremembers =>
      obtain ⟨hrecords, hview, id, hdecided⟩ := hremembers hdecides
      have hagrees : Agrees (c older.length) s :=
        agrees_of_view (h.tidy _) hs.toTidy hview.symm
          (congrArg Journal.mk (holder.trans hrecords.symm)) (hstart.trans hdecided.point.symm)
      obtain ⟨rest, hfront⟩ := hdecided.front
      refine ⟨id, s, rfl, hdecided, hagrees, ?_, ?_⟩
      · rw [hretry, TakenBack.decision.inj (htaken.symm.trans hdecided.told)]
      · rw [turn, get_bind]
        simp only [hstart]
        rw [goForward, get_bind]
        simp only [hagrees.queue, hfront]
    | waiting habove hshorter hsuffix hpoint' =>
      exact ih ((Traced.mk hs h.tidy).events (.suspended _ :: s.events)) hpoint' habove
        (fun x hx => hnewer x (hsuffix.subset hx)) (by omega)

/-- Turning back ends at the latest decision that could have been another.  The run is what it was
before that decision was taken, but for the alternative that is due. -/
theorem reconsider_restores (hfresh : Fresh m stream start) (h : Remembered m start c r)
    (hpoint : r.point = .reverse .backtrack) :
    ∃ newer decision older id s, r.log.records = newer ++ decision :: older ∧
      (∀ record ∈ newer, record.decides = false) ∧ decision.decides = true ∧
      reconsider m r.log.length r = .ok () s ∧
      Reconsidered m (c older.length) id decision s := by
  obtain ⟨htraced, hcounts⟩ := remembered_traced hfresh h
  obtain ⟨fewer, hfewer⟩ := Nat.exists_eq_succ_of_ne_zero (Nat.ne_of_gt (hcounts.hopeful hpoint))
  have hcounted := hcounts.counted
  rw [Counted, hfewer] at hcounted
  obtain ⟨newer, decision, older, hlog, hplain, hdecides, -⟩ := hcounted.split
  have hnewer : ∀ record ∈ newer, record.decides = false :=
    fun record hrecord => Balanced.not_decides (hplain record hrecord)
  have hanswers : newer.length < r.log.length := by
    rw [Journal.length, hlog, List.length_append, List.length_cons]
    omega
  obtain ⟨id, s, hreconsider, hs⟩ :=
    reconsider_ok htraced hfresh.orderly hpoint hlog hnewer hdecides hanswers
  exact ⟨newer, decision, older, id, s, hlog, hnewer, hdecides, hreconsider, hs⟩

/-- The letter is shifted, which leads nowhere, and the run turns back to make a word of it. -/
theorem reconsider_restores_letter : ∃ c r, Remembered letterMachine letterStart c r ∧
    r.point = .reverse .backtrack ∧ ∃ newer decision older id s,
      r.log.records = newer ++ decision :: older ∧
      (∀ record ∈ newer, record.decides = false) ∧ decision.decides = true ∧
      reconsider letterMachine r.log.length r = .ok () s ∧
      Reconsidered letterMachine (c older.length) id decision s := by
  have hturns : ∃ r ∈ passed letterMachine 20 .start letterStart,
      r.point = .reverse .backtrack := by decide +kernel
  obtain ⟨r, hpassed, hpoint⟩ := hturns
  obtain ⟨earlier, later, hsplit⟩ := List.append_of_mem hpassed
  have hfresh : Fresh letterMachine (Stream.ofBytes [97]) letterStart :=
    ⟨rfl, 8, 8, none, rfl⟩
  have hr : Remembered letterMachine letterStart _ r :=
    @Remembered.passed _ _ _ (.parse 20 .start) _ _ _ _ .start hsplit
  exact ⟨_, r, hr, hpoint, reconsider_restores hfresh hr hpoint⟩

end Rewind.Run
