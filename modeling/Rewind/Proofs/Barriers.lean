import Rewind.Grammar.Validation
import Rewind.Proofs.Frame
import Rewind.Proofs.Protocol
import Rewind.Proofs.Scripts
import Rewind.Scanner.Validation

/-!
# The barrier

A run that turns back always finds a decision that could have been another, and finds it before it
meets a commit: its retries count just these decisions.  Nothing else than a link between nodes can
be in its way, since the log tells which nodes are in the lookahead, and tells of nothing that came
from a stream unless one is attached.

Links lead back as long as the nodes are there that the run needs.  A caller who drops a copy of a
tree, and gives up the log while the tree is still on the stack, loses nodes that it shares with the
copy; other nodes get their slots, and turning back follows links that lead nowhere.
-/

namespace Rewind.Run

open Attempt Op

variable {m : Machine} {sparing : Bool} {r s : Run} {request : Request} {turns : Nat}
  {answer : Except Error Reply}

/-! ## What came from a stream -/

/-- There is a stream. -/
def Streaming (r : Run) : Prop :=
  r.scanner.stream.isSome = true

/-- There is no stream, and the log tells of nothing that came from one. -/
structure Streamless (r : Run) : Prop where
  none : r.scanner.stream = none
  elsewhere : ∀ record ∈ r.log.records, record.ofStream = false

/-- There is a stream, or the log tells of nothing that came from one. -/
def Attended (r : Run) : Prop :=
  Streaming r ∨ Streamless r

/-- A stream stays attached. -/
lemma detached_streaming : Detached Streaming where
  stream f _ := Keeps.of_left fun r hr => by
    obtain ⟨stream, hs⟩ := Option.isSome_iff_exists.1 hr
    unfold onStream onScanner Scanner.onStream
    simp only [hs]
    rfl
  scan m region := Keeps.of_left fun r hr => by
    obtain ⟨stream, hs⟩ := Option.isSome_iff_exists.1 hr
    unfold Op.scan onScanner Scanner.run
    cases m.scanner.entries[region]? with
    | none => exact hr
    | some state =>
      simp only [hs]
      rcases Scanner.Scan.run m.scanner { stream, state } with ⟨outcome, scan⟩ | ⟨e | f, scan⟩
      · cases outcome <;> rfl
      · rfl
      · rfl
  forest _ _ h := h
  state _ _ h := h
  stack _ _ h := h
  queue _ _ h := h
  aside _ _ h := h
  log _ _ h := h
  bindings _ _ h := h
  counts _ _ _ h := h
  endActionRan _ _ h := h
  events _ _ h := h
  point _ _ h := h
  steps _ _ h := h
  retry _ _ h := h
  rejecting _ _ h := h
  stopping _ _ h := h
  halted _ _ h := h

lemma Streamless.writes {record : Record} (h : Streamless r) (hrecord : record.ofStream = false) :
    Streamless { r with log := r.log.append record } := by
  refine ⟨h.none, fun x hx => ?_⟩
  rcases List.mem_cons.1 hx with rfl | hx
  · exact hrecord
  · exact h.elsewhere x hx

lemma streamless_enters : (Law.keeping Streamless Streamless).Enters where
  forest _ _ h := ⟨h.none, h.elsewhere⟩
  links _ _ _ h := h
  queue _ _ h := ⟨h.none, h.elsewhere⟩
  mismatch _ _ _ h := h
  state _ _ h := ⟨h.none, h.elsewhere⟩
  stack _ _ h := ⟨h.none, h.elsewhere⟩
  aside _ _ h := ⟨h.none, h.elsewhere⟩
  bindings _ _ h := ⟨h.none, h.elsewhere⟩
  full _ _ h := h
  tells := ⟨fun _ _ h => ⟨h.none, h.elsewhere⟩⟩
  point _ _ _ h := ⟨h.none, h.elsewhere⟩
  counts _ _ _ h := ⟨h.none, h.elsewhere⟩
  steps _ _ h := ⟨h.none, h.elsewhere⟩
  retry _ _ h := ⟨h.none, h.elsewhere⟩
  rejecting _ _ h := ⟨h.none, h.elsewhere⟩
  stopping _ _ h := ⟨h.none, h.elsewhere⟩
  decisions := ⟨fun record hkind _ h =>
    h.writes (by cases record <;> first | rfl | cases hkind)⟩
  boundaries := ⟨fun record hkind _ h =>
    h.writes (by cases record <;> first | rfl | cases hkind)⟩
  underflow _ _ _ _ h := h
  backtracks _ h := ⟨h.none, h.elsewhere⟩
  halts _ _ _ h := ⟨h.none, h.elsewhere⟩
  badEntry _ _ _ h := h
  refused _ h := h

/-- Without a stream nothing is acquired. -/
lemma streamless_acquire (m : Machine) : Keeps Streamless Streamless (acquire m) := by
  refine .look fun q => (Keeps.lookup _).bind fun regions => ?_
  generalize regions.headD 0 = first
  cases regions with
  | nil => exact .pure _
  | cons region rest =>
    refine Keeps.of_left fun r hr => ?_
    obtain ⟨e, hscan⟩ : ∃ e, scan m region r = .error (.error e) r := by
      unfold scan onScanner Scanner.run
      cases m.scanner.entries[region]? with
      | none => exact ⟨_, rfl⟩
      | some state => exact ⟨.scan .notAttached, by simp only [hr.none]⟩
    rw [acquireIn, bind_error hscan]
    exact hr

lemma streamless_goForward (m : Machine) : Keeps Streamless Streamless (goForward m) := by
  refine .look fun q => ?_
  cases q.queue with
  | cons id rest =>
    exact fun r => streamless_enters.step (Law.serves_keeping (fun _ h => h) m r.state) id
  | nil =>
    refine (streamless_acquire m).bind fun found => ?_
    cases found with
    | noToken region =>
      exact .look fun _ => (streamless_enters.turnBack rfl).bind fun _ => .pure _
    | _ => exact .pure _

lemma streamless_unwind {records : List Record}
    (hrecords : ∀ record ∈ records, record.ofStream = false) (goal : Goal) :
    Keeps Streamless Streamless (unwind m goal records) := by
  refine Law.Unwinds.unwind
    { toTakesBack := streamless_enters.takesBack
      toTells := streamless_enters.tells
      endActionRan := fun _ _ h => ⟨h.none, h.elsewhere⟩
      settled := fun _ _ h => ⟨h.none, h.elsewhere⟩
      returned := fun _ _ _ h => ⟨h.none, h.elsewhere⟩
      exhausted := fun _ _ _ h => h }
    (fun older hsuffix r hr => ⟨hr.none, fun record hrecord => ?_⟩)
    (fun record hrecord hstream => ?_) fun _ => streamless_enters.steps
  · exact hrecords record (hsuffix.subset hrecord)
  · rw [hrecords record hrecord] at hstream
    cases hstream

/-- Moves of a parse bring nothing from a stream that is not there. -/
lemma steady_attended (m : Machine) : Steady m Attended where
  enter r s entry h hlasts := by
    rcases h with h | h
    · exact .inl (detached_streaming.steady.enter h hlasts)
    · exact .inr (Keeps.lasts (streamless_enters.enter entry) h hlasts)
  turn r s h hlasts := by
    rcases h with h | h
    · exact .inl (detached_streaming.steady.turn h hlasts)
    · rcases lasts_turn hlasts with ⟨hlasts, -⟩ | ⟨goal, -, hlasts⟩ | rfl
      · exact .inr ((streamless_goForward m).lasts h hlasts)
      · exact .inr ((streamless_unwind h.elsewhere goal).lasts h hlasts)
      · exact .inr h
  events r events h := h.imp (fun h => h) fun h => ⟨h.none, h.elsewhere⟩

namespace Attended

lemma aimed (h : Attended r) (goal : Goal) : Attended { r with point := .reverse goal } :=
  h.imp (fun h => h) fun h => ⟨h.none, h.elsewhere⟩

/-- A caller pushes nothing into a stream that is not there, and does not take it away. -/
lemma contributes (h : Attended r) (hcontributes : Contributes r request answer s)
    (hdetach : request ≠ .detach) : Attended s := by
  have hwrites {t : Run} {record : Record} (hrecord : record.ofStream = false)
      (hstream : t.scanner.stream = r.scanner.stream)
      (hlog : t.log.records = record :: r.log.records) : Attended t := by
    refine h.imp (fun h => by rwa [Streaming, hstream]) fun h => ⟨hstream.trans h.none, ?_⟩
    rw [hlog]
    exact List.forall_mem_cons.2 ⟨hrecord, h.elsewhere⟩
  cases hcontributes with
  | attached _ => exact .inl rfl
  | detached _ => exact absurd rfl hdetach
  | text _ _ => exact .inl rfl
  | tree _ _ => exact .inl rfl
  | token _ => exact hwrites rfl rfl rfl
  | named _ =>
    refine h.imp (fun h => h) fun h => ⟨h.none, ?_⟩
    exact List.forall_mem_cons.2 ⟨rfl, List.forall_mem_cons.2 ⟨rfl, h.elsewhere⟩⟩
  | bound => exact hwrites rfl rfl rfl
  | data => exact hwrites rfl rfl rfl
  | dropped => exact hwrites rfl rfl rfl
  | rejected _ => exact h.imp (fun h => h) fun h => ⟨h.none, h.elsewhere⟩
  | edited => exact h.imp (fun h => h) fun h => ⟨h.none, h.elsewhere⟩
  | _ => exact h

lemma undone {record : Record} {older : List Record} {b : TakenBack}
    (h : Attended r) (hlog : r.log.records = record :: older)
    (hundo : undo record { r with log := ⟨older⟩, events := .undone record :: r.events } =
      .ok b s) : Attended s := by
  rcases h with h | h
  · have hleft : Streaming { r with log := ⟨older⟩, events := .undone record :: r.events } := h
    exact .inl ((detached_streaming.undo fun _ => detached_streaming.steps).ok hleft hundo)
  · have helsewhere := h.elsewhere
    rw [hlog] at helsewhere
    obtain ⟨hrecord, holder⟩ := List.forall_mem_cons.1 helsewhere
    have hleft : Streamless { r with log := ⟨older⟩, events := .undone record :: r.events } :=
      ⟨h.none, holder⟩
    refine .inr (Keeps.ok (streamless_enters.takesBack.undo (fun hstream => ?_)
      (fun _ _ _ h => ⟨h.none, h.elsewhere⟩) fun _ => streamless_enters.steps) hleft hundo)
    rw [hrecord] at hstream
    cases hstream

end Attended

/-! ## What can be in the way -/

/-- The law to meet no faults but of links, and no errors but lapses, where a stream is if one is
attached. -/
def Law.linked (attached : Prop) : Law where
  ok r s := attached → Streaming r → Streaming s
  error r e _ := (attached → Streaming r) → e.isLapse = true
  fault _ f _ := f.ofLinks = true

instance composes_linked (attached : Prop) : (Law.linked attached).Composes where
  refl _ _ h := h
  ok _ _ _ h h' hattached hr := h' hattached (h hattached hr)
  error _ _ _ _ h h' hr := h' fun hattached => h hattached (hr hattached)
  fault _ _ _ _ _ h := h

lemma linked_unwinds (attached : Prop) (goal : Goal) : (Law.linked attached).Unwinds goal where
  forest _ _ _ h := h
  links _ _ h := h
  queue _ _ _ h := h
  mismatch _ _ _ _ := rfl
  state _ _ _ h := h
  stack _ _ _ h := h
  aside _ _ _ h := h
  bindings _ _ _ h := h
  endActionRan _ _ _ h := h
  counts _ _ _ _ h := h
  events _ _ _ h := h
  settled _ _ _ h := h
  returned _ _ _ _ h := h
  exhausted _ _ _ _ := rfl

lemma linked_streams : (Law.linked True).Streams := by
  refine ⟨fun f _ r => ?_⟩
  cases hs : r.scanner.stream with
  | none =>
    have hrun : onStream f r = .error (.error (.scan .notAttached)) r := by
      unfold onStream onScanner Scanner.onStream
      simp only [hs]
    refine .of_error hrun fun hr => ?_
    have hstreaming : r.scanner.stream.isSome = true := hr trivial
    rw [hs] at hstreaming
    cases hstreaming
  | some stream => exact .of_ok (onStream_eq_ok.2 ⟨stream, hs, rfl, rfl⟩) fun _ _ => rfl

/-- Taking back fails by lapses only, and meets faults of links only. -/
lemma Attended.unwind (h : Attended r) (m : Machine) (goal : Goal) :
    (∀ e s, unwind m goal r.log.records r = .error (.error e) s → e.isLapse = true) ∧
      ∀ f s, unwind m goal r.log.records r = .error (.fault f) s → f.ofLinks = true := by
  rcases h with h | h
  · have hobeys : Obeys (Law.linked True) (Run.unwind m goal r.log.records) r :=
      (linked_unwinds True goal).unwind (fun _ _ _ _ hr => hr) (fun _ _ _ => linked_streams)
        (fun _ _ _ _ hr => hr) r
    exact ⟨fun e s hrun => hobeys.error hrun fun _ => h, fun f s hrun => hobeys.fault hrun⟩
  · have hobeys : Obeys (Law.linked False) (Run.unwind m goal r.log.records) r :=
      (linked_unwinds False goal).unwind (fun _ _ _ _ hr => hr)
        (fun record hrecord hstream => by
          rw [h.elsewhere record hrecord] at hstream
          cases hstream)
        (fun _ _ _ _ hr => hr) r
    exact ⟨fun e s hrun => hobeys.error hrun nofun, fun f s hrun => hobeys.fault hrun⟩

/-! ## Every run that can be reached -/

/-- A run whose books are right, but for the number of its steps, and whose stream is there if
anything came from one. -/
structure Retraceable (r : Run) : Prop where
  booksRight : BooksRight False r
  attended : Attended r

/-- A log that was given up tells of nothing. -/
lemma Retraceable.givenUp (h : Retraceable r) (hgiven : GivenUp r s) (hcounts : RetriesCounted s) :
    Retraceable s := by
  have hlog : s.log.records = [] := by
    rw [hgiven.same]
    rfl
  have hstream : s.scanner.stream = r.scanner.stream := by rw [hgiven.same]
  refine ⟨⟨⟨hlog ▸ .empty, nofun, rfl⟩, hcounts, nofun⟩, ?_⟩
  exact h.attended.imp (fun hr => by rwa [Streaming, hstream]) fun hr =>
    ⟨hstream.trans hr.none, hlog ▸ List.forall_mem_nil _⟩

lemma retraceable_call {call : Call} (h : Retraceable r) (hpermitted : call.IsPermitted sparing r)
    (hcall : call.Leads m r s) (halive : s.aborted = false) : Retraceable s := by
  rcases Call.asked_of_leads hcall with ⟨turns, request, answer, hasks, hreplied⟩ | hsets
  · by_cases hgive : request = .giveUpLog
    · subst hgive
      obtain rfl := Call.eq_giveUpLog hasks
      have hcounts := retriesCounted_call h.booksRight.retriesCounted hpermitted hcall halive
      rcases hcall with ⟨u, hrun⟩ | ⟨e, hrun⟩
      · exact h.givenUp (givenUp_of_ok hrun) hcounts
      · exact absurd hrun giveUpLog_ne_error
    · exact ⟨h.booksRight.replied hgive hreplied halive, (steady_attended m).replied h.attended
        (fun _ _ => h.attended.aimed _)
        (h.attended.contributes · (Call.ne_of_asks? hasks).1) hgive hreplied halive⟩
  · refine hsets.keeps (I := Retraceable) (fun target stopping events hr => ?_) h
    exact ⟨⟨⟨hr.booksRight.filed.lined, nofun, rfl⟩,
      ⟨hr.booksRight.retriesCounted.counted, hr.booksRight.retriesCounted.hopeful⟩,
      nofun⟩, hr.attended.imp (fun h => h) fun h => ⟨h.none, h.elsewhere⟩⟩

lemma retraceable_undone {goal : Goal} {record : Record} {older : List Record} {b : TakenBack}
    (h : Retraceable r) (hpoint : r.point = .reverse goal) (hlog : r.log.records = record :: older)
    (hundo : undo record { r with log := ⟨older⟩, events := .undone record :: r.events } = .ok b s)
    (hgoes : b.goesOn goal = true) : Retraceable s := by
  have hlined := h.booksRight.filed.lined
  rw [hlog, List.nil_append, List.append_nil] at hlined
  have htorn : Torn False (.reverse goal) record
      { r with log := ⟨older⟩, events := .undone record :: r.events } := ⟨hlined, nofun, hpoint⟩
  have hfiled := ((brings_undo record) htorn).1 hundo
  have hcounts := retriesCounted_undone h.booksRight.retriesCounted hpoint hlog hundo hgoes
  exact ⟨⟨⟨hfiled.lined, nofun, rfl⟩, hcounts, nofun⟩, h.attended.undone hlog hundo⟩

theorem reached_retraceable (h : Reached m sparing r) : Retraceable r := by
  induction h with
  | initial blockLength blockLimit target =>
    exact ⟨⟨⟨.empty, nofun, rfl⟩, ⟨.empty, nofun⟩, nofun⟩, .inr ⟨rfl, List.forall_mem_nil _⟩⟩
  | fresh hfresh =>
    have htidy : Tidy False _ := hfresh.tidy
    refine ⟨?_, .inl htidy.attached⟩
    obtain ⟨blockLength, blockLimit, target, rfl⟩ := hfresh.eq
    exact ⟨⟨.empty, nofun, rfl⟩, ⟨.empty, nofun⟩, nofun⟩
  | call _ hpermitted hcall halive ih => exact retraceable_call ih hpermitted hcall halive
  | @passed _ call _ _ _ hs ih =>
    cases call with
    | parse turns entry =>
      exact ⟨(steady_booksRight m).passed ih.booksRight hs,
        (steady_attended m).passed ih.attended hs⟩
    | _ => cases hs
  | aimed _ _ _ ih => exact ⟨ih.booksRight.aimed nofun, ih.attended.aimed _⟩
  | undone _ hpoint _ hlog hundo hgoes ih => exact retraceable_undone ih hpoint hlog hundo hgoes

/-! ## Turning back -/

/-- Turning back stops at the latest decision that could have been another, unless it meets a link
that leads nowhere on the way there. -/
lemma Retraceable.backtracks {newer older : List Record} {decision : Record} (h : Retraceable r)
    (hpoint : r.point = .reverse .backtrack) (hlog : r.log.records = newer ++ decision :: older)
    (hnewer : ∀ record ∈ newer, record.isPlain = true) (hdecides : decision.decides = true) :
    (∃ a s, turn m r = .ok a s ∧ TurnsBack decision older r a s) ∨
      ∃ f s, turn m r = .error (.fault f) s ∧ f.ofLinks = true ∧ older <:+ s.log.records := by
  have hturn : turn m r = unwind m .backtrack r.log.records r := by
    rw [turn, get_bind]
    simp only [hpoint]
  obtain ⟨hlapses, hlinks⟩ := h.attended.unwind m .backtrack
  rw [hturn]
  rcases unwind_backtrack h.booksRight.retriesCounted.counted hpoint hlog hnewer hdecides with
    hback | ⟨e, s, hrun, hmishap⟩ | ⟨f, s, hrun, holder⟩
  · exact .inl hback
  · -- Of the lapses only an exhausted log is left, and the log is not exhausted.
    have hfails := ((brings_unwind m .backtrack r.log.records)
      ⟨rfl, hpoint ▸ h.booksRight.filed, h.booksRight.retriesCounted.within hpoint⟩).2 hrun
    obtain ⟨-, target, steps, rfl⟩ := hfails.lapse (hlapses e s hrun)
    cases hmishap
  · exact .inr ⟨f, s, hrun, hlinks f s hrun, holder⟩

/-- A run of a sparing caller meets no link that leads nowhere. -/
lemma reached_turns_back (h : Reached m true r) (hpoint : r.point = .reverse .backtrack)
    {f : Fault} :
    turn m r ≠ .error (.fault f) s := by
  intro hrun
  rw [turn, get_bind] at hrun
  simp only [hpoint] at hrun
  obtain ⟨base, hbase, hr⟩ := reached_grounded h
  rcases @unwind_sound _ _ _ _ _ .backtrack hr hbase with
    ⟨a, t, hunwind, -⟩ | ⟨misuse, t, hunwind, -⟩
  · cases hunwind.symm.trans hrun
  · cases hunwind.symm.trans hrun

/-- The counters of a run account for its log.  The decision to which it turns back is the latest
one, and was taken since its barrier.  Turning back stops there, or at an action of the caller on
the way there, if the caller is sparing; otherwise a link may lead nowhere, but nothing that is
older than the decision is taken back. -/
structure Accounted (m : Machine) (sparing : Bool) (r : Run) : Prop where
  barrier : r.barrier ≤ r.log.length
  retries : r.retries = (r.log.since r.barrier).countP Record.decides
  /-- A decision that can be taken back is counted. -/
  decided : ∀ ⦃record older⦄, r.log.records = record :: older → record.decides = true →
    0 < r.retries
  /-- Without the latest commit the counters are right as well. -/
  committed : ∀ ⦃barrier retries older⦄, r.log.records = .committed barrier retries :: older →
    ∃ s, undo (.committed barrier retries) { r with log := ⟨older⟩ } = .ok .plain s ∧
      s.barrier ≤ s.log.length ∧ s.retries = (s.log.since s.barrier).countP Record.decides
  backtracks : r.point = .reverse .backtrack → ∃ newer decision older,
    r.log.records = newer ++ decision :: older ∧ r.barrier ≤ older.length ∧
      decision.decides = true ∧ (∀ record ∈ newer, record.isPlain = true) ∧
      ((∃ a s, turn m r = .ok a s ∧ TurnsBack decision older r a s) ∨
        sparing = false ∧ ∃ f s, turn m r = .error (.fault f) s ∧ f.ofLinks = true ∧
          older <:+ s.log.records)

theorem retries_count (h : Reached m sparing r) : Accounted m sparing r := by
  have hretraceable := reached_retraceable h
  have hcounts := hretraceable.booksRight.retriesCounted
  have hcounted := hcounts.counted
  rw [Counted] at hcounted
  refine ⟨hcounted.barrier_le, hcounted.count, ?_, ?_, ?_⟩
  · intro record older hlog hdecides
    rw [hlog] at hcounted
    rcases hcounted.of_cons with ⟨barrier, retries, rfl, -⟩ | ⟨-, fewer, hfewer, -⟩ | ⟨hplain, -⟩
    · cases hdecides
    · omega
    · rw [Balanced.not_decides hplain] at hdecides
      cases hdecides
  · intro barrier retries older hlog
    rw [hlog] at hcounted
    rcases hcounted.of_cons with ⟨barrier', retries', heq, hbalanced, -⟩ | ⟨hdecides, -⟩ |
      ⟨hplain, -⟩
    · cases heq
      exact ⟨_, rfl, hbalanced.barrier_le, hbalanced.count⟩
    · cases hdecides
    · cases hplain
  · intro hpoint
    obtain ⟨fewer, hfewer⟩ := Nat.exists_eq_succ_of_ne_zero (Nat.ne_of_gt (hcounts.hopeful hpoint))
    rw [hfewer] at hcounted
    obtain ⟨newer, decision, older, hlog, hnewer, hdecides, hbalanced⟩ := hcounted.split
    refine ⟨newer, decision, older, hlog, hbalanced.barrier_le, hdecides, hnewer, ?_⟩
    refine (hretraceable.backtracks hpoint hlog hnewer hdecides).imp_right fun hfaults => ?_
    cases sparing with
    | false => exact ⟨rfl, hfaults⟩
    | true =>
      obtain ⟨f, s, hrun, -⟩ := hfaults
      exact absurd hrun (reached_turns_back h hpoint)

/-- The letter machine turns back once. -/
theorem retries_count_letter : ∃ r, Reached letterMachine true r ∧ r.point = .reverse .backtrack ∧
    r.retries = 1 ∧ Accounted letterMachine true r := by
  have hturns : ∃ r ∈ passed letterMachine 20 .start letterStart,
      r.point = .reverse .backtrack ∧ r.retries = 1 := by decide +kernel
  obtain ⟨r, hpassed, hpoint, hretries⟩ := hturns
  have hfresh : Fresh letterMachine (Stream.ofBytes [97]) letterStart :=
    ⟨rfl, 8, 8, none, rfl⟩
  have hr : Reached letterMachine true r :=
    @Reached.passed _ _ (.parse 20 .start) _ _ (.fresh hfresh) hpassed
  exact ⟨r, hr, hpoint, hretries, retries_count hr⟩

/-! ## Links that lead nowhere -/

/-- What a script leads to can be reached. -/
lemma Reached.play {script : List (Run → Call)} (h : Reached m false r)
    (hplay : play m script r = some s) : Reached m false s := by
  refine keeps_play (fun call q t hq hmade halive => ?_) h hplay
  refine .call hq ?_ (Call.leads_of_made? hmade) halive
  cases call with
  | giveUpLog => exact ⟨Call.not_reversing_of_made? hmade, nofun⟩
  | _ => trivial

/-- Letters are put together in threes, in sevens and in fours. -/
def tallMachine : Machine where
  grammar := {
    transitions := #[0, 1, 2, 3, 4, 5, 6, 7, 8, 9, 10, -1, 11, 12, 13, 14, 15, 16, 17, 18]
    owners := #[0, 0, 0, 1, 2, 3, 3, 4, 5, 5, 6, 0, 6, 7, 8, 9, 10, 12, 12, 12]
    bounds := #[1, 3, 1, 1, 1, 1, 2, 3, 3, 3, 2, 3, 1, 3, 1, 1, 1, 1, 2, 2, 1, 1, 1, 0, 1, 3, 1, 0]
    offsets := #[0, 3, 4, 5, 7, 8, 10, 13, 14, 15, 16, 0, 17, 0]
    targets := #[12, 13, 3, 2, 0, 10, 4, 5, 0, 6, 7, 9, 8, 11, 0, 11, 1, 0, 3]
    codeStarts := #[0, 2, 4, 6, 8, 10, 12, 14, 16, 18, 20, 22, 24, 26, 29, 31, 33, 35, 37]
    codes := #[1, 0, 1, 0, 1, 0, 1, 0, 3, 0, 1, 0, 1, 0, 1, 0, 6, 0, 1, 0, 1, 0, 1, 0, 1, 0, 10, 1,
      0, 14, 0, 1, 0, 1, 0, 7, 0, 1, 0]
    commits := Array.replicate 19 0
    regionStarts := Array.replicate 14 0
    regions := #[1, 0]
    elements := #[⟨"end", false, false⟩, ⟨"letter", false, false⟩, ⟨"tall", false, false⟩,
      ⟨"unit", false, false⟩]
    productions := #[⟨2, 3, false⟩, ⟨3, 1, false⟩, ⟨2, 7, false⟩, ⟨3, 4, false⟩]
    endActions := #[true, true]
    states := 14
    start := 0
    firstNonterminal := 2
    eof := 0 }
  scanner := letterMachine.scanner

/-- Copies of nodes that are in use are set aside, dropped, and given up with all below them, twice.
Tokens take the slots, before a decision for which there is another is taken. -/
def tallScript : List (Run → Call) := [
  fun _ => .attach (Stream.ofBytes [97, 97, 97, 97]), fun _ => .parse 60 .start,
  Call.copyAside 5, fun _ => .parse 60 .preEof, fun _ => .dropAside,
  Call.copyAside 4, fun _ => .parse 60 .preEof, fun _ => .giveUpLog,
  fun _ => .queueToken 3 [] none, fun _ => .queueToken 3 [] none,
  fun _ => .queueToken 3 [] none, fun _ => .queueToken 1 [] none,
  fun _ => .pauseAt (some 9), fun _ => .parse 60 .preEof,
  fun _ => .dropAside, fun _ => .giveUpLog,
  fun _ => .queueToken 1 [] none, fun _ => .queueToken 1 [] none, fun _ => .pauseAt none]

/-- Whether turning back to the one decision left meets a slot that holds nothing. -/
def strays (r : Run) : Bool :=
  r.point == .reverse .backtrack && r.retries == 1 &&
    match turn tallMachine r with
    | .error (.fault (.deadSlot 0)) _ => true
    | _ => false

/-- Tables that are valid do not help a run whose caller gave up what is still in use: it turns back
to a decision, and does not get there. -/
theorem backtrack_faults_tall :
    tallMachine.grammar.validate = .ok () ∧ tallMachine.scanner.validate = .ok () ∧
    tallMachine.start < tallMachine.grammar.states ∧
    ∃ r, Reached tallMachine false r ∧ r.point = .reverse .backtrack ∧ r.retries = 1 ∧
      ∃ s, turn tallMachine r = .error (.fault (.deadSlot 0)) s := by
  refine ⟨by decide +kernel, by decide +kernel, by decide, ?_⟩
  have hplayed : (play tallMachine tallScript (initial tallMachine (Pool.empty 8 8) none)).any
      (fun r => (passed tallMachine 60 .start r).any strays) = true := by
    decide +kernel
  obtain ⟨q, hplay, hstrays⟩ := (Option.any_eq_true _ _).1 hplayed
  obtain ⟨r, hpassed, hr⟩ := List.any_eq_true.1 hstrays
  have hreached : Reached tallMachine false r :=
    @Reached.passed _ _ (.parse 60 .start) _ _ ((Reached.initial 8 8 none).play hplay) hpassed
  simp only [strays, Bool.and_eq_true, beq_iff_eq] at hr
  obtain ⟨⟨hpoint, hretries⟩, hturn⟩ := hr
  refine ⟨r, hreached, hpoint, hretries, ?_⟩
  split at hturn
  · exact ⟨_, ‹_›⟩
  · cases hturn

end Rewind.Run
