import Rewind.Proofs.Contributions
import Rewind.Proofs.Upkeep
import Rewind.Proofs.Written

/-!
# The protocol of a run

A status names the entry by which its caller is to enter the run again.  A caller obeys if it enters
by no other one, takes back only to steps that were completed, and not while something is being
taken back already, rejects only where a reduction waits, and never gives up the log.  Whatever else
it asks for, and whenever, the run never fails by a lapse then, and it waits for the entry that it
has named.
-/

namespace Rewind.Run

open Attempt Op

/-- How things stand between a run and its caller. -/
inductive Standing where
  /-- The run waits for an entry. -/
  | waiting (entry : Entry)
  /-- The run waits for its caller to take something back. -/
  | halted
  /-- The run is over. -/
  | closed
  deriving DecidableEq

namespace Standing

/-- How things stand behind another reply.  Only a parse, or taking something back, tells of it. -/
def after (standing : Standing) (request : Request) (answer : Except Error Reply) : Standing :=
  if request.isGuarded then
    match answer with
    | .ok (.status status) => .waiting status.names
    | .ok _ => standing
    | .error e => if e.isFatal then .closed else if e.isInInput then .halted else standing
  else standing

end Standing

/-- How things stand after a dialogue. -/
def standing : Dialogue → Standing
  | [] => .waiting .start
  | (request, answer) :: before => (standing before).after request answer

/-- What the protocol permits a caller to ask for. -/
def Request.IsProper (standing : Standing) (r : Run) : Request → Prop
  | .parse entry => ∀ due, standing = .waiting due → entry = due
  | .undoTo target => target ≤ r.steps ∧ standing ≠ .waiting .reverse
  | .reject => standing = .waiting .reduction
  | .giveUpLog => False
  | _ => True

/-- A run after all that a caller who obeys asked for and set, with the replies, the latest first.
-/
inductive Obedient (m : Machine) (start : Run) : Dialogue → Run → Prop
  | start : Obedient m start [] start
  | asked {log : Dialogue} {r s : Run} {turns : Nat} {request : Request}
      {answer : Except Error Reply} :
    Obedient m start log r → request.IsProper (standing log) r →
    Replied (perform m turns request r) answer s →
    Obedient m start ((request, answer) :: log) s
  | set {log : Dialogue} {r s : Run} :
    Obedient m start log r → Sets r s → Obedient m start log s

lemma Obedient.replied {m : Machine} {start : Run} {log : Dialogue} {r s : Run} {turns : Nat}
    {request : Request} {x : Result Reply} {answer : Except Error Reply}
    (h : Obedient m start log r) (hproper : request.IsProper (standing log) r)
    (hperform : perform m turns request r = x) (hreplied : Replied x answer s) :
    Obedient m start ((request, answer) :: log) s :=
  .asked h hproper (hperform ▸ hreplied)

variable {whole : Prop} {m : Machine} {r s : Run} {turns : Nat} {request : Request}
  {answer : Except Error Reply}
  {log : Dialogue} {st : Standing}

/-! ## What callers contribute -/

namespace Contributes

/-- Nothing that is contributed changes where a run waits, and how far it has come. -/
lemma stance (h : Contributes r request answer s) :
    s.point = r.point ∧ s.halted = r.halted ∧ s.aborted = r.aborted ∧ s.steps = r.steps := by
  cases h <;> exact ⟨rfl, rfl, rfl, rfl⟩

/-- What is contributed is written down, with records that no parse would write. -/
lemma written (h : Contributes r request answer s) :
    Written (fun record => !record.isOwn) r.log.records s := by
  cases h with
  | named _ =>
    exact .write (.of_append (s := { r with log := r.log.append (.sent _) }) rfl rfl) rfl rfl
  | text _ _ => exact .of_append rfl rfl
  | tree _ _ => exact .of_append rfl rfl
  | token _ => exact .of_append rfl rfl
  | bound => exact .of_append rfl rfl
  | data => exact .of_append rfl rfl
  | dropped => exact .of_append rfl rfl
  | _ => exact .refl r

lemma adds (h : Contributes r request answer s) : Adds r s := by
  obtain ⟨newer, hlog, hnewer⟩ := h.written
  have hcounts : s.barrier = r.barrier ∧ s.retries = r.retries := by cases h <;> exact ⟨rfl, rfl⟩
  refine ⟨⟨newer, hlog, fun record hrecord => ?_⟩, hcounts.1, hcounts.2,
    fun hpoint => h.stance.1 ▸ hpoint⟩
  have hown := hnewer record hrecord
  cases record <;> first | rfl | cases hown

lemma tallied (h : Contributes r request answer s) (hr : Tallied r) : Tallied s := by
  obtain ⟨newer, hlog, hnewer⟩ := h.written
  have hnone : newer.count .stepEnded = 0 :=
    List.count_eq_zero.2 fun hmem => nomatch hnewer _ hmem
  rw [Tallied, h.stance.2.2.2, hlog, List.count_append, hnone, Nat.zero_add]
  exact hr

lemma lined (h : Contributes r request answer s) (hr : Lined r.log.records r.queue) :
    Lined s.log.records s.queue := by
  cases h with
  | token _ => exact .joined rfl hr
  | named _ => exact .elsewhere rfl (.joined rfl hr)
  | text _ _ => exact .elsewhere rfl hr
  | tree _ _ => exact .elsewhere rfl hr
  | bound => exact .elsewhere rfl hr
  | data => exact .elsewhere rfl hr
  | dropped => exact .elsewhere rfl hr
  | _ => exact hr

lemma filed {point : Point} (h : Contributes r request answer s) (hr : Filed whole point [] [] r) :
    Filed whole point [] [] s := by
  have hlined := hr.lined
  rw [List.nil_append, List.append_nil] at hlined
  refine ⟨?_, fun hwhole => h.tallied (hr.tallied hwhole), h.stance.1.trans hr.point⟩
  rw [List.nil_append, List.append_nil]
  exact h.lined hlined

lemma awaits {entry : Entry} (h : Contributes r request answer s) (hr : Awaits whole entry r) :
    Awaits whole entry s := by
  obtain ⟨point, hentry, hfiled, hbound⟩ := hr.filed
  obtain ⟨hpoint, hhalted, -, hsteps⟩ := h.stance
  refine ⟨⟨point, hentry, h.filed hfiled, ?_⟩, hr.retriesCounted.adds h.adds, ?_⟩
  · rwa [hsteps]
  · rw [Underway, hpoint, hhalted]
    exact hr.underway

lemma booksRight (h : Contributes r request answer s) (hbooks : BooksRight whole r) :
    BooksRight whole s := by
  obtain ⟨hpoint, -, -, hsteps⟩ := h.stance
  refine ⟨h.filed (hpoint ▸ hbooks.filed), hbooks.retriesCounted.adds h.adds,
    fun hwhole target hback => ?_⟩
  rw [hsteps]
  exact hbooks.bound hwhole target (hpoint ▸ hback)

end Contributes

/-- A guarded operation that lasts leads where an operation that lasts leads. -/
lemma Guarded.lasts {op : Op Status} (h : Guarded op r answer s) (hs : s.aborted = false) :
    ∃ t events, Lasts op r t ∧ s = { t with events } := by
  cases h with
  | refused haborted => cases haborted.symm.trans hs
  | answered _ hop => exact ⟨_, _, lasts_ok hop, rfl⟩
  | halted _ hop he => exact ⟨s, s.events, .inr ⟨_, he, hop⟩, rfl⟩
  | ended _ _ _ => cases hs

/-- What every move keeps, a reply leaves as it is, if what callers contribute does, and if the run
may go back to the steps that it has completed. -/
lemma Steady.replied {I : Run → Prop} (hsteady : Steady m I) (hr : I r)
    (haimed : ∀ ⦃target⦄, target ≤ r.steps → I { r with point := .reverse (.step target) })
    (hcontributes : Contributes r request answer s → I s) (hgive : request ≠ .giveUpLog)
    (hreplied : Replied (perform m turns request r) answer s) (hs : s.aborted = false) : I s := by
  cases hguarded : request.isGuarded with
  | false => exact hcontributes (contributes_of_replied hguarded hgive hreplied)
  | true =>
    rcases request.guarded_of_replied hguarded hreplied with ⟨entry, rfl, hg⟩ | ⟨target, rfl, hg⟩
    · obtain ⟨t, events, hlasts, rfl⟩ := hg.lasts hs
      exact hsteady.events events (hsteady.resume hr hlasts)
    · obtain ⟨t, events, hlasts, rfl⟩ := hg.lasts hs
      obtain ⟨hle, -, hturns⟩ := lasts_goBack hlasts
      exact hsteady.events events (hsteady.takeTurns (haimed hle) hturns)

/-- Unless the log is given up, the books stay right. -/
lemma BooksRight.replied (h : BooksRight whole r) (hgive : request ≠ .giveUpLog)
    (hreplied : Replied (perform m turns request r) answer s) (hs : s.aborted = false) :
    BooksRight whole s :=
  (steady_booksRight m).replied h (fun _ hle => h.aimed fun _ => hle) (·.booksRight h) hgive
    hreplied hs

/-! ## What obedience keeps -/

/-- What the standing of a caller says of the run. -/
def Upholds (r : Run) : Standing → Prop
  | .waiting entry => Awaits True entry r ∧ r.aborted = false
  | .halted => Halts True r ∧ RetriesCounted r ∧ r.aborted = false
  | .closed => Tallied r ∧ r.aborted = true

lemma Upholds.tallied (h : Upholds r st) : Tallied r := by
  cases st with
  | waiting entry =>
    obtain ⟨point, -, hfiled, -⟩ := h.1.filed
    exact hfiled.tallied trivial
  | halted => exact h.1.tallied trivial
  | closed => exact h.1

lemma Upholds.contributes (h : Upholds r st) (hcontributes : Contributes r request answer s) :
    Upholds s st := by
  obtain ⟨hpoint, hhalted, haborted, -⟩ := hcontributes.stance
  cases st with
  | waiting entry => exact ⟨hcontributes.awaits h.1, haborted.trans h.2⟩
  | halted =>
    exact ⟨⟨hcontributes.filed h.1.toFiled, hhalted.trans h.1.halted⟩,
      h.2.1.adds hcontributes.adds, haborted.trans h.2.2⟩
  | closed => exact ⟨hcontributes.tallied h.1, haborted.trans h.2⟩

/-- Contributing is no lapse, if a caller rejects only where a reduction waits. -/
lemma Upholds.no_lapse {e : Error} (h : Upholds r st) (hproper : request.IsProper st r)
    (hcontributes : Contributes r request (.error e) s) : e.isLapse = false := by
  cases hcontributes with
  | refused hfatal hother hreject =>
    by_cases hrequest : request = .reject
    · subst hrequest
      obtain rfl : st = .waiting .reduction := hproper
      obtain ⟨point, hentry, hfiled, -⟩ := h.1.filed
      cases point with
      | reduction production commits =>
        exact absurd hfiled.point (hreject rfl production commits)
      | _ => cases hentry
    · cases e with
      | misuse misuse => exact absurd rfl (hother hrequest misuse)
      | _ => rfl

lemma Upholds.sets (h : Upholds r st) (hsets : Sets r s) : Upholds s st := by
  refine hsets.keeps (I := (Upholds · st)) (fun target stopping events hr => ?_) h
  cases st with
  | waiting entry =>
    obtain ⟨⟨⟨point, hentry, hfiled, hbound⟩, hcounts, hunder⟩, halive⟩ := hr
    exact ⟨⟨⟨point, hentry, ⟨hfiled.lined, hfiled.tallied, hfiled.point⟩, hbound⟩,
      ⟨hcounts.counted, hcounts.hopeful⟩, hunder⟩, halive⟩
  | halted =>
    obtain ⟨⟨hfiled, hhalted⟩, hcounts, halive⟩ := hr
    exact ⟨⟨⟨hfiled.lined, hfiled.tallied, hfiled.point⟩, hhalted⟩,
      ⟨hcounts.counted, hcounts.hopeful⟩, halive⟩
  | closed => exact hr

/-- A guarded operation that keeps the books leaves the run as its reply says. -/
lemma Guarded.upholds {op : Op Status} (h : Guarded op r answer s)
    (hguarded : request.isGuarded = true) (halive : r.aborted = false)
    (hbooks : (∀ status t, op r = .ok status t → Proceeds True (some status) t) ∧
      ∀ e t, op r = .error (.error e) t → Fails True e t)
    (hcounts : ∀ t, Lasts op r t → RetriesCounted t)
    (hunder : ∀ status t, op r = .ok status t → Underway t)
    (hkeeps : Keeps (·.aborted = false) (·.aborted = false) op) :
    Upholds s (st.after request answer) ∧ ∀ e, answer = .error e → e.isLapse = false := by
  unfold Standing.after
  rw [if_pos hguarded]
  cases h with
  | refused haborted =>
    rw [haborted] at halive
    cases halive
  | @answered status t _ hop =>
    obtain ⟨point, hentry, hfiled, hbound⟩ := hbooks.1 status t hop
    have ht := hcounts t (lasts_ok hop)
    have hstays : t.aborted = false := hkeeps.ok halive hop
    exact ⟨⟨⟨⟨point, hentry, ⟨hfiled.lined, hfiled.tallied, hfiled.point⟩, hbound⟩,
      ⟨ht.counted, ht.hopeful⟩, hunder status t hop⟩, hstays⟩, nofun⟩
  | @halted e _ _ hop he =>
    have hfails := hbooks.2 e s hop
    obtain ⟨hinput, hhalts⟩ := hfails.halts he
    refine ⟨?_, fun e' he' => ?_⟩
    · simp only [he, hinput]
      exact ⟨hhalts, hcounts s (.inr ⟨e, he, hop⟩), hkeeps.error halive hop⟩
    · cases he'
      exact hfails.no_lapse
  | @ended e t _ hop he =>
    have hfails := hbooks.2 e t hop
    refine ⟨?_, fun e' he' => ?_⟩
    · simp only [he]
      exact ⟨hfails.tallied trivial, rfl⟩
    · cases he'
      exact hfails.no_lapse

/-- A run that is over refuses what is guarded, and stays as it is. -/
lemma Guarded.over {op : Op Status} (h : Guarded op r answer s) (hover : r.aborted = true) :
    s = r ∧ answer = .error .aborted := by
  cases h with
  | refused _ => exact ⟨rfl, rfl⟩
  | _ halive _ =>
    rw [hover] at halive
    cases halive

lemma Upholds.parses {entry : Entry} (h : Upholds r st)
    (hproper : (Request.parse entry).IsProper st r)
    (hreplied : Guarded (resume m turns entry) r answer s) :
    Upholds s (st.after (.parse entry) answer) ∧ ∀ e, answer = .error e → e.isLapse = false := by
  cases st with
  | waiting due =>
    obtain rfl : entry = due := hproper due rfl
    obtain ⟨hok, herror⟩ := brings_resume m turns entry h.1
    exact hreplied.upholds rfl h.2 ⟨fun _ _ hrun => hok hrun, fun _ _ hrun => herror hrun⟩
      (fun t ht => (steady_retriesCounted m).resume h.1.retriesCounted ht)
      (fun _ _ hrun => underway_resume h.1.underway hrun) (detached_alive.resume turns entry)
  | halted =>
    have hrefused := resume_halted (m := m) h.1 turns entry
    cases hreplied with
    | refused haborted => cases haborted.symm.trans h.2.2
    | answered _ hop =>
      rw [hrefused] at hop
      cases hop
    | halted _ hop _ =>
      rw [hrefused] at hop
      cases hop
      exact ⟨h, fun e he => by cases he; rfl⟩
    | ended _ hop he =>
      rw [hrefused] at hop
      cases hop
      cases he
  | closed =>
    obtain ⟨rfl, rfl⟩ := hreplied.over h.2
    exact ⟨h, fun e he => by cases he; rfl⟩

theorem Upholds.undoes {target : Nat} (h : Upholds r st)
    (hproper : (Request.undoTo target).IsProper st r)
    (hreplied : Guarded (goBack m target) r answer s) :
    Upholds s (st.after (.undoTo target) answer) ∧
      ∀ e, answer = .error e → e.isLapse = false := by
  obtain ⟨hle, hwaits⟩ := hproper
  have hgoes (point : Point) (hentry : point.entry ≠ .reverse) (hfiled : Filed True point [] [] r)
      (hcounts : RetriesCounted r) (halive : r.aborted = false) :
      Upholds s (st.after (.undoTo target) answer) ∧
        ∀ e, answer = .error e → e.isLapse = false := by
    obtain ⟨hok, herror⟩ := brings_goBack m target hentry ⟨⟨hfiled, hcounts⟩, hle⟩
    have hsteady (t : Run) (hlasts : Lasts (goBack m target) r t) : RetriesCounted t :=
      (steady_retriesCounted m).takeTurns (r := { r with point := .reverse (.step target) })
        ⟨hcounts.counted, nofun⟩ (lasts_goBack hlasts).2.2
    exact hreplied.upholds rfl halive ⟨fun _ _ hrun => hok hrun, fun _ _ hrun => herror hrun⟩
      hsteady (fun _ _ hrun => underway_goBack hrun) (detached_alive.goBack target)
  cases st with
  | waiting due =>
    obtain ⟨point, rfl, hfiled, -⟩ := h.1.filed
    exact hgoes point (fun hentry => hwaits (by rw [hentry])) hfiled h.1.retriesCounted h.2
  | halted => exact hgoes .start nofun h.1.toFiled h.2.1 h.2.2
  | closed =>
    obtain ⟨rfl, rfl⟩ := hreplied.over h.2
    exact ⟨h, fun e he => by cases he; rfl⟩

/-- What a proper request comes to is no lapse, and leaves the run as its reply says. -/
lemma Upholds.replied (h : Upholds r st) (hproper : request.IsProper st r)
    (hreplied : Replied (perform m turns request r) answer s) :
    Upholds s (st.after request answer) ∧ ∀ e, answer = .error e → e.isLapse = false := by
  cases hguarded : request.isGuarded with
  | true =>
    rcases request.guarded_of_replied hguarded hreplied with ⟨entry, rfl, hg⟩ | ⟨target, rfl, hg⟩
    · exact h.parses hproper hg
    · exact h.undoes hproper hg
  | false =>
    have hgive : request ≠ .giveUpLog := by
      rintro rfl
      exact hproper
    have hcontributes := contributes_of_replied hguarded hgive hreplied
    have hsame : st.after request answer = st := if_neg (by simp [hguarded])
    refine ⟨hsame.symm ▸ h.contributes hcontributes, fun e he => ?_⟩
    subst he
    exact h.no_lapse hproper hcontributes

/-- A caller who obeys never meets a lapse, and things stand as the replies say. -/
lemma Obedient.upholds {forest : Forest} {target : Option Nat}
    (h : Obedient m (initial m forest target) log r) :
    Upholds r (standing log) ∧ ∀ told ∈ log, ∀ e, told.2 = .error e → e.isLapse = false := by
  induction h with
  | start =>
    exact ⟨⟨⟨⟨.start, rfl, ⟨.empty, fun _ => rfl, rfl⟩, nofun⟩, ⟨.empty, nofun⟩, nofun⟩, rfl⟩,
      List.forall_mem_nil _⟩
  | asked _ hproper hreplied ih =>
    obtain ⟨hupholds, hlapse⟩ := ih.1.replied hproper hreplied
    exact ⟨hupholds, List.forall_mem_cons.2 ⟨hlapse, ih.2⟩⟩
  | set _ hsets ih => exact ⟨ih.1.sets hsets, ih.2⟩

/-- A run that waits for an entry does not refuse it. -/
lemma Awaits.accepts {entry : Entry} (h : Awaits True entry r) {e : Error}
    (hrun : resume m turns entry r = .error (.error e) s) : e ≠ .halted ∧ e ≠ .aborted := by
  have hfails := (brings_resume m turns entry h).2 hrun
  cases hfatal : e.isFatal with
  | true => constructor <;> rintro rfl <;> cases hfatal
  | false =>
    have hinput := (hfails.halts hfatal).1
    constructor <;> rintro rfl <;> cases hinput

/-- What a caller is told who obeys.  No reply is a lapse, and as many steps are counted as the log
tells of.  The run waits for the entry that it has named, and does not refuse it; once it has
halted, it refuses every entry and stays as it is, until something has been taken back. -/
theorem obedient_protocol {forest : Forest} {target : Option Nat}
    (h : Obedient m (initial m forest target) log r) :
    (∀ told ∈ log, ∀ e, told.2 = .error e → e.isLapse = false) ∧
    r.steps = r.log.records.count .stepEnded ∧
    (∀ entry, standing log = .waiting entry → r.point.entry = entry ∧
      ∀ turns answer s, Replied (perform m turns (.parse entry) r) answer s →
        answer ≠ .error .halted ∧ answer ≠ .error .aborted) ∧
    (standing log = .halted → ∀ turns entry,
      perform m turns (.parse entry) r = .error (.error .halted) r) ∧
    ∀ request steps before, request.isGuarded = true →
      log = (request, .ok (.status (.reverted steps))) :: before → r.halted = false := by
  obtain ⟨hupholds, hlapse⟩ := h.upholds
  refine ⟨hlapse, hupholds.tallied, fun entry hstanding => ?_, fun hstanding turns entry => ?_, ?_⟩
  · rw [hstanding] at hupholds
    obtain ⟨hawaits, halive⟩ := hupholds
    refine ⟨?_, fun turns answer s hreplied => ?_⟩
    · obtain ⟨point, hentry, hfiled, -⟩ := hawaits.filed
      rw [hfiled.point, hentry]
    · cases replied_unlessAborted hreplied with
      | refused haborted => cases haborted.symm.trans halive
      | answered _ _ => exact ⟨nofun, nofun⟩
      | halted _ hop _ => simpa using hawaits.accepts hop
      | ended _ hop _ => simpa using hawaits.accepts hop
  · rw [hstanding] at hupholds
    obtain ⟨hhalts, -, halive⟩ := hupholds
    refine bind_error ?_ _
    rw [parse, unlessAborted, if_neg (by simp [halive]), resume_halted hhalts turns entry]
    rfl
  · rintro request steps before hguarded rfl
    have hstanding : standing ((request, .ok (.status (.reverted steps))) :: before) =
        .waiting .start := if_pos hguarded
    rw [hstanding] at hupholds
    obtain ⟨hawaits, -⟩ := hupholds
    obtain ⟨point, hentry, hfiled, -⟩ := hawaits.filed
    by_contra hhalted
    obtain ⟨k, hpoint⟩ := hawaits.underway (by simpa using hhalted)
    rw [← hfiled.point, hpoint] at hentry
    cases hentry

/-- The text is no letter, and the run halts.  What the caller leaves then is taken back with the
rest, and the halt is lifted. -/
theorem obedient_protocol_letter : ∃ q r,
    Obedient letterMachine (initial letterMachine (Pool.empty 8 8) none)
      [(.leaveData [7], .ok .accepted), (.parse .start, .error (.lexical 1 Position.start)),
        (.attach (Stream.ofBytes [98]), .ok .accepted)] q ∧
    (∀ turns entry, perform letterMachine turns (.parse entry) q = .error (.error .halted) q) ∧
    Obedient letterMachine (initial letterMachine (Pool.empty 8 8) none)
      [(.parse .reverse, .ok (.status (.reverted 0))),
        (.undoTo 0, .ok (.status (.reverse [7]))),
        (.leaveData [7], .ok .accepted), (.parse .start, .error (.lexical 1 Position.start)),
        (.attach (Stream.ofBytes [98]), .ok .accepted)] r ∧
    r.point.entry = .start ∧ r.halted = false ∧ r.steps = r.log.records.count .stepEnded := by
  let start := initial letterMachine (Pool.empty 8 8) none
  have hattach : perform letterMachine 0 (.attach (Stream.ofBytes [98])) start =
      .ok .accepted { start with
        scanner := { start.scanner with stream := some (Stream.ofBytes [98]) } } := rfl
  have hparse := Result.eq_error_left (show Result.error? (perform letterMachine 20 (.parse .start)
    { start with scanner := { start.scanner with stream := some (Stream.ofBytes [98]) } }) =
      some (.lexical 1 Position.start) by decide +kernel)
  generalize hp : Result.left (perform letterMachine 20 _ _) = p at hparse
  have hleave : perform letterMachine 0 (.leaveData [7]) p =
    .ok .accepted { p with log := p.log.append (.action [7]) } := rfl
  generalize hq : { p with log := p.log.append (.action [7]) } = q at hleave
  have hundo := Result.eq_ok_left (show Result.answer? (undoTo letterMachine 0 q) =
    some (.reverse [7]) by
      subst hq hp
      decide +kernel)
  generalize ho : Result.left (undoTo letterMachine 0 q) = o at hundo
  have hback := Result.eq_ok_left (show Result.answer? (parse letterMachine 20 .reverse o) =
    some (.reverted 0) by
      subst ho hq hp
      decide +kernel)
  generalize Result.left (parse letterMachine 20 .reverse o) = r at hback
  have hundone : perform letterMachine 0 (.undoTo 0) q = .ok (.status (.reverse [7])) o :=
    bind_ok hundo _
  have hreverted : perform letterMachine 20 (.parse .reverse) o = .ok (.status (.reverted 0)) r :=
    bind_ok hback _
  have hhalted : Obedient letterMachine start
      [(.leaveData [7], .ok .accepted), (.parse .start, .error (.lexical 1 Position.start)),
        (.attach (Stream.ofBytes [98]), .ok .accepted)] q := by
    refine .replied (.replied (.replied .start trivial hattach (.ok _ _)) ?_ hparse (.error _ _))
      trivial hleave (.ok _ _)
    rintro due hdue
    cases hdue
    rfl
  have hlifted : Obedient letterMachine start
      [(.parse .reverse, .ok (.status (.reverted 0))),
        (.undoTo 0, .ok (.status (.reverse [7]))),
        (.leaveData [7], .ok .accepted), (.parse .start, .error (.lexical 1 Position.start)),
        (.attach (Stream.ofBytes [98]), .ok .accepted)] r := by
    refine .replied (.replied hhalted ⟨Nat.zero_le _, by decide⟩ hundone (.ok _ _)) ?_ hreverted
      (.ok _ _)
    rintro due hdue
    cases hdue
    rfl
  obtain ⟨-, -, -, hrefuses, -⟩ := obedient_protocol hhalted
  obtain ⟨-, hsteps, hwaits, -, hlift⟩ := obedient_protocol hlifted
  exact ⟨q, r, hhalted, hrefuses rfl, hlifted, (hwaits .start rfl).1, hlift _ _ _ rfl rfl, hsteps⟩

end Rewind.Run
