import Rewind.Proofs.Lossless
import Rewind.Proofs.Refinement
import Rewind.Proofs.Routes

/-!
# A driven parse is a search

A driver that does nothing but answer resumes whatever waits, and rejects the trees that it does not
like.  A parse so driven comes to the verdict of the search from the front of its stream: it is done
with the tree and the alternatives that the search finds, and fails with the error of the search.
-/

namespace Rewind.Run

open Attempt Op

/-- Rejects the reduction that waits, as a part of other operations. -/
def rejectNow : Op Unit := fun r =>
  match reject r with
  | .ok u s => .ok u s
  | .error (.error e) s => .error (.error (.misuse e)) s
  | .error (.fault f) s => .error (.fault f) s

/-- Rejects the reduction that waits if its tree is to be rejected. -/
def judge (rejects : Shape → Bool) (tree : NodeId) : Op Unit := do
  let shape ← lookup ((← get).forest.shape tree)
  if rejects shape then rejectNow

/-- Parses on, however often there is something to act on, and judges what was reduced. -/
def drive (m : Machine) (rejects : Shape → Bool) (turns : Nat) : (calls : Nat) → Entry → Op Status
  | 0, _ => lookup (.error .unfinished)
  | calls + 1, entry => do
    match ← parse m turns entry with
    | .reduction _ tree _ =>
      judge rejects tree
      drive m rejects turns calls .reduction
    | .generation _ _ _ => drive m rejects turns calls .generation
    | .preEof _ => drive m rejects turns calls .preEof
    | status => return status

variable {m : Machine} {rejects : Shape → Bool} {base : View} {σ : Scene} {c : Choice}
  {left before after : List Choice} {t : Tried} {r s : Run} {entry : Entry} {status : Status}
  {turns calls : Nat} {e : Error}

/-! ## Answering -/

/-- The run waits for this entry, and its driver has judged what was reduced. -/
inductive Answered (m : Machine) (rejects : Shape → Bool) (base : View) :
    Entry → Run → List Choice → Prop
  | going {r : Run} {σ : Scene} {left : List Choice} :
    Stands m base r σ left → isBetween r.log.records = true →
    r.point = .start ∨ r.point = .generation ∨ r.point = .preEof →
    Answered m rejects base r.point.entry r (⟨σ, r.retry, chosen r.log.records⟩ :: left)
  | judged {r : Run} {c : Choice} {left : List Choice} {t : Tried} {production : ProductionId}
      {tree : NodeId} {children : List NodeId} {shape : Shape} :
    Tries m base c left t r → Leaves m t .start r (some (.reduction production tree children)) →
    r.forest.shape tree = .ok shape →
    Answered m rejects base .reduction { r with rejecting := rejects shape } (c :: left)

lemma Leaves.events {point : Point} (h : Leaves m t point r (some status)) (events : List Event) :
    Leaves m t point { r with events } (some status) := by
  cases h with
  | tree hpoint hqueue hshape hrejection => exact .tree hpoint hqueue hshape hrejection

lemma Leaves.shape {point : Point} (h : Leaves m t point r (some status)) :
    ∃ production tree children rest shape, status = .reduction production tree children ∧
      r.queue = tree :: rest ∧ r.forest.shape tree = .ok shape := by
  cases h with
  | tree _ hqueue hshape _ => exact ⟨_, _, _, _, _, rfl, hqueue, hshape⟩

lemma Poses.events (h : Poses m base r before) (events : List Event) :
    Poses m base { r with events } before := by
  cases h with
  | going hstands hbetween hpoint =>
    exact .going (hstands.await r.point r.retry events) hbetween hpoint
  | back hstands hpoint => exact .back (hstands.await r.point r.retry events) hpoint
  | acting htries hleaves =>
    refine .acting ⟨htries.tried, htries.stands.await r.point r.retry events, htries.retry,
      htries.chosen⟩ (hleaves.events events)

/-- Judging a tree answers for a reduction. -/
lemma answered_judge {production : ProductionId} {tree : NodeId} {children : List NodeId}
    (h : Poses m base r before) (hsuspends : Suspends r (.reduction production tree children)) :
    ∃ s, judge rejects tree r = .ok () s ∧ Answered m rejects base .reduction s before := by
  obtain ⟨⟨commits, hpoint⟩, hfront⟩ := hsuspends
  cases h with
  | going _ _ hwaits =>
    rw [hpoint] at hwaits
    rcases hwaits with hwaits | hwaits | hwaits <;> cases hwaits
  | back _ hback =>
    rw [hpoint] at hback
    cases hback
  | acting htries hleaves =>
    obtain ⟨production', tree', children', rest, shape, rfl, hqueue, hshape⟩ := hleaves.shape
    rw [hqueue] at hfront
    obtain rfl : tree' = tree := Option.some.inj hfront
    refine ⟨{ r with rejecting := rejects shape }, ?_, .judged htries hleaves hshape⟩
    rw [judge, get_bind, hshape, lookup_ok_bind]
    cases hrejects : rejects shape with
    | true =>
      rw [if_pos rfl, rejectNow, reject]
      simp only [hpoint]
    | false =>
      rw [if_neg Bool.false_ne_true, ← htries.stands.rejecting]
      rfl

/-! ## Resuming -/

/-- A tree that is judged was rejected by the search if its driver rejects it. -/
lemma rejection_judged (rejects : Shape → Bool) {production production' : ProductionId}
    {commits : Bool} {tree : NodeId}
    {children : List NodeId} {shape : Shape}
    (hleaves : Leaves m t .start r (some (.reduction production tree children)))
    (hshape : r.forest.shape tree = .ok shape) (hpoint : r.point = .reduction production' commits) :
    commits = t.commits ∧ (∃ rest, r.queue = tree :: rest) ∧ t.rejection m rejects =
      if rejects shape then some (.rejected production' shape.span) else none := by
  cases hleaves with
  | tree hpoint' hqueue hshape' hrejection =>
    obtain ⟨rfl, rfl⟩ := Point.reduction.inj (hpoint.symm.trans hpoint')
    obtain rfl := Except.ok.inj (hshape.symm.trans hshape')
    exact ⟨rfl, ⟨_, hqueue⟩, hrejection rejects⟩

lemma Leaves.point {production : ProductionId} {tree : NodeId} {children : List NodeId}
    (h : Leaves m t .start r (some (.reduction production tree children))) :
    r.point = .reduction production t.commits := by
  cases h with
  | tree hpoint _ _ _ => exact hpoint

/-- Where the run waits, and whether the tree was rejected, makes no difference. -/
lemma Tries.resumes (h : Tries m base c left t r) :
    Tries m base c left t { r with point := .start, rejecting := false } :=
  ⟨h.tried, h.stands.keep ⟨h.stands.tidy.attached, h.stands.tidy.pool, h.stands.tidy.loose⟩ rfl rfl
    h.stands.target h.stands.stopping h.stands.halted h.stands.aborted rfl, h.retry, h.chosen⟩

/-- What a run that was entered comes to. -/
lemma follows_enter {a : Option Status} (h : Answered m rejects base entry r before)
    (hbase : Begins base) (henter : enter m entry r = .ok a s) :
    Follows m rejects base before a s := by
  have henters := enter_ok henter
  cases h with
  | @going _ σ left hstands hbetween hpoint =>
    have hon (point : Point) (hstart : point = .start) :
        Follows m rejects base (⟨σ, r.retry, chosen r.log.records⟩ :: left) none { r with point } :=
      .on (.going (hstands.await point r.retry r.events) hbetween (.inl hstart)) (.inl hstart)
        (.refl _ _)
    cases henters with
    | start hstart _ => exact hon r.point hstart
    | action _ _ => exact hon .start rfl
    | done hdone =>
      rw [hdone] at hpoint
      rcases hpoint with hpoint | hpoint | hpoint <;> cases hpoint
    | back hback =>
      rw [hback] at hpoint
      rcases hpoint with hpoint | hpoint | hpoint <;> cases hpoint
    | reduction hreduction _ _ =>
      rw [hreduction] at hpoint
      rcases hpoint with hpoint | hpoint | hpoint <;> cases hpoint
  | @judged r c left t production tree children shape htries hleaves hshape =>
    obtain ⟨lookahead, queue, hqueue, htried⟩ := htries.tried
    have hresumes := htries.resumes
    cases henters with
    | reduction hpoint _ hresume =>
      obtain ⟨rfl, -, hrejection⟩ := rejection_judged rejects hleaves hshape hpoint
      rcases resumeReduction_ok hresume with
        ⟨hrejects, rfl, hpos, span, rfl⟩ | ⟨hrejects, hcomplete⟩
      · have hrejects : rejects shape = true := hrejects
        rw [hrejects, if_pos rfl] at hrejection
        obtain ⟨c', left', hleft⟩ := htries.stands.exists_choice hbase hpos
        have hstands := hresumes.stands
        rw [hleft] at hstands
        refine .on (.back (hstands.await (.reverse .backtrack) r.retry _) rfl) (.inr rfl)
          fun e e' verdict hverdict => ?_
        rw [← hleft] at hverdict
        refine resolves_rejected hqueue htried hrejection ?_
        rw [hleft] at hverdict ⊢
        exact hverdict
      · have hrejects : rejects shape = false := hrejects
        rw [hrejects, if_neg Bool.false_ne_true] at hrejection
        rw [hrejects] at hcomplete
        exact follows_completeStep hresumes hbase rfl hrejection hcomplete
    | done hdone => cases hleaves.point.symm.trans hdone
    | back hback => cases hleaves.point.symm.trans hback
    | start hstart _ => cases hleaves.point.symm.trans hstart
    | action haction _ =>
      rcases haction with haction | haction <;> cases hleaves.point.symm.trans haction

/-- An error on entering is the verdict, since nothing was left open. -/
lemma resolves_enter (h : Answered m rejects base entry r before) (hbase : Begins base)
    (he : e.isFatal = false) (henter : enter m entry r = .error (.error e) s) (e' : Error) :
    Resolves m rejects e' before (.error e) := by
  have herror := enter_error he henter
  cases h with
  | going hstands _ hwaits =>
    rcases herror with ⟨hhalted, -⟩ | ⟨production, commits, hpoint, -⟩
    · cases hhalted.symm.trans hstands.halted
    · rw [hpoint] at hwaits
      rcases hwaits with hwaits | hwaits | hwaits <;> cases hwaits
  | @judged r c left t production tree children shape htries hleaves hshape =>
    obtain ⟨lookahead, queue, hqueue, htried⟩ := htries.tried
    rcases herror with ⟨hhalted, -⟩ | ⟨production', commits, hpoint, -, hresume⟩
    · cases hhalted.symm.trans htries.stands.halted
    · obtain ⟨hrejects, hzero, span, rfl, -, hspan⟩ := resumeReduction_error he hresume
      obtain ⟨-, ⟨rest, hfront⟩, hrejection⟩ :=
        rejection_judged rejects hleaves hshape hpoint
      obtain ⟨s', queue', n, -, hn, -, hspan', hshape'⟩ := htries.stands.front hfront
      obtain rfl := Except.ok.inj (hshape.symm.trans hshape')
      obtain rfl : span = shape.span := (hspan tree rest n hfront hn).trans hspan'.symm
      rw [show rejects shape = true from hrejects, if_pos rfl] at hrejection
      refine resolves_rejected hqueue htried hrejection ?_
      rw [htries.stands.no_choice hbase hzero]
      rfl

/-- What a run that was resumed comes to. -/
theorem follows_resume (h : Answered m rejects base entry r before) (hbase : Begins base)
    (hresume : resume m turns entry r = .ok status s) :
    Follows m rejects base before (some status) s := by
  obtain ⟨a, t, henter, hrest⟩ := bind_eq_ok.1 hresume
  have hfollows := follows_enter h hbase henter
  cases a with
  | some status' =>
    obtain ⟨rfl, rfl⟩ := EStateM.Result.ok.inj hrest
    exact hfollows
  | none =>
    cases hfollows with
    | on hposes hpoint hrefines =>
      exact (follows_takeTurns hposes hbase hpoint hrest).refines hrefines

theorem resolves_resume (h : Answered m rejects base entry r before) (hbase : Begins base)
    (he : e.isFatal = false) (hresume : resume m turns entry r = .error (.error e) s) (e' : Error) :
    Resolves m rejects e' before (.error e) := by
  obtain henter | ⟨a, t, henter, hrest⟩ := bind_eq_error.1 hresume
  · exact resolves_enter h hbase he henter e'
  · have hfollows := follows_enter h hbase henter
    cases a with
    | some status => cases hrest
    | none =>
      cases hfollows with
      | on hposes hpoint hrefines =>
        exact hrefines e' e' _ (resolves_takeTurns hposes hbase hpoint he hrest e')

/-! ## Driving -/

lemma unlessAborted_eq_ok {op : Op Status} (halive : r.aborted = false)
    (h : unlessAborted op r = .ok status s) :
    ∃ t, op r = .ok status t ∧ s = { t with events := .suspended status :: t.events } := by
  unfold unlessAborted at h
  simp only [halive, Bool.false_eq_true, if_false] at h
  split at h
  · rename_i t hop
    cases h
    exact ⟨t, hop, rfl⟩
  · split at h <;> cases h
  · cases h

lemma unlessAborted_eq_error {op : Op Status} (halive : r.aborted = false)
    (he : e.isFatal = false) (h : unlessAborted op r = .error (.error e) s) :
    op r = .error (.error e) s := by
  unfold unlessAborted at h
  simp only [halive, Bool.false_eq_true, if_false] at h
  split at h
  · cases h
  · rename_i e' t hop
    split at h
    · rename_i hfatal
      cases h
      rw [he] at hfatal
      cases hfatal
    · cases h
      exact hop
  · cases h

lemma Answered.aborted (h : Answered m rejects base entry r before) : r.aborted = false := by
  cases h with
  | going hstands _ _ => exact hstands.aborted
  | judged htries _ _ => exact htries.stands.aborted

/-- A run that waits for its caller is resumed by its driver. -/
lemma answered_of_waits (rejects : Shape → Bool) (h : Poses m base r before)
    (hsuspends : Suspends r status) :
    (∃ production tree children, status = .reduction production tree children ∧
        ∃ s, judge rejects tree r = .ok () s ∧ Answered m rejects base .reduction s before) ∨
      (∃ token text span, status = .generation token text span ∧
        Answered m rejects base .generation r before) ∨
      ∃ region, status = .preEof region ∧ Answered m rejects base .preEof r before := by
  have hgoing {point : Point} (hpoint : r.point = point)
      (hwaits : point = .generation ∨ point = .preEof) :
      Answered m rejects base point.entry r before := by
    cases h with
    | going hstands hbetween hstart => exact hpoint ▸ .going hstands hbetween hstart
    | back _ hback =>
      rw [hpoint.symm.trans hback] at hwaits
      rcases hwaits with hwaits | hwaits <;> cases hwaits
    | acting _ hleaves =>
      cases hleaves with
      | tree hacting _ _ _ =>
        rw [hpoint.symm.trans hacting] at hwaits
        rcases hwaits with hwaits | hwaits <;> cases hwaits
  cases status with
  | reduction production tree children =>
    exact .inl ⟨_, _, _, rfl, answered_judge h hsuspends⟩
  | generation token text span => exact .inr (.inl ⟨_, _, _, rfl, hgoing hsuspends (.inl rfl)⟩)
  | preEof region => exact .inr (.inr ⟨_, rfl, hgoing hsuspends (.inr rfl)⟩)
  | _ => exact hsuspends.elim

/-- A driven parse that gives a status is done, and so is the search. -/
lemma drive_ok (h : Answered m rejects base entry r before) (hbase : Begins base)
    (hdrive : drive m rejects turns calls entry r = .ok status s) :
    status = .done ∧ ∃ σ left, Stands m base s σ left ∧
      ∀ e, Resolves m rejects e before (.ok ((chosen s.log.records).reverse, σ)) := by
  induction calls generalizing r entry before with
  | zero => cases hdrive
  | succ calls ih =>
    obtain ⟨status', t', hparse, hrest⟩ := bind_eq_ok.1 hdrive
    obtain ⟨t, hresume, rfl⟩ := unlessAborted_eq_ok h.aborted hparse
    cases follows_resume h hbase hresume with
    | done hstands hresolves =>
      cases hrest
      exact ⟨rfl, _, _, hstands.await t.point t.retry _, hresolves⟩
    | waits hposes hsuspends hrefines =>
      rename_i after
      have hnext {entry : Entry} {q : Run} (hq : Answered m rejects base entry q after)
          (hdrive : drive m rejects turns calls entry q = .ok status s) :
          status = .done ∧ ∃ σ left, Stands m base s σ left ∧
            ∀ e, Resolves m rejects e before (.ok ((chosen s.log.records).reverse, σ)) := by
        obtain ⟨hdone, σ, left, hstands, hresolves⟩ := ih hq hdrive
        exact ⟨hdone, σ, left, hstands, fun e => hrefines e e _ (hresolves e)⟩
      rcases answered_of_waits rejects
        (hposes.events (.suspended status' :: t.events)) hsuspends with
        ⟨_, _, _, rfl, q, hjudge, hq⟩ | ⟨_, _, _, rfl, hq⟩ | ⟨_, rfl, hq⟩
      · obtain ⟨u, q', hjudge', hrest⟩ := bind_eq_ok.1 hrest
        cases hjudge.symm.trans hjudge'
        exact hnext hq hrest
      · exact hnext hq hrest
      · exact hnext hq hrest

/-- A driven parse that fails does so with the error of the search. -/
lemma drive_error (h : Answered m rejects base entry r before) (hbase : Begins base)
    (he : e.isFatal = false) (hdrive : drive m rejects turns calls entry r = .error (.error e) s)
    (e' : Error) : Resolves m rejects e' before (.error e) := by
  induction calls generalizing r entry before e' with
  | zero => cases hdrive
  | succ calls ih =>
    obtain hparse | ⟨status, t', hparse, hrest⟩ := bind_eq_error.1 hdrive
    · exact resolves_resume h hbase he (unlessAborted_eq_error h.aborted he hparse) e'
    · obtain ⟨t, hresume, rfl⟩ := unlessAborted_eq_ok h.aborted hparse
      cases follows_resume h hbase hresume with
      | done hstands hresolves => cases hrest
      | waits hposes hsuspends hrefines =>
        refine hrefines e' e' _ ?_
        rcases answered_of_waits rejects
          (hposes.events (.suspended status :: t.events)) hsuspends with
          ⟨_, _, _, rfl, q, hjudge, hq⟩ | ⟨_, _, _, rfl, hq⟩ | ⟨_, rfl, hq⟩
        · obtain hfail | ⟨u, q', hjudge', hrest⟩ := bind_eq_error.1 hrest
          · cases hjudge.symm.trans hfail
          · cases hjudge.symm.trans hjudge'
            exact ih hq hrest e'
        · exact ih hq hrest e'
        · exact ih hq hrest e'

/-! ## From the front of a stream -/

/-- The operation answers so, unless it fails fatally. -/
def Answers (op : Op Status) (r s : Run) : Except Error Status → Prop
  | .ok status => op r = .ok status s
  | .error e => e.isFatal = false ∧ op r = .error (.error e) s

lemma begins_fresh {stream : Stream} (hfresh : Fresh m stream r) : Begins r.view := by
  have horderly := hfresh.orderly
  have hbytes := hfresh.bytes
  obtain ⟨blockLength, blockLimit, target, rfl⟩ := hfresh.eq
  exact ⟨horderly, rfl, hbytes⟩

lemma answered_fresh {stream : Stream} (hfresh : Fresh m stream r) (htarget : r.target = none) :
    Answered m rejects r.view .start r [⟨Scene.front m stream, 0, []⟩] := by
  have htidy : Tidy True r := hfresh.tidy
  have hdepicts := depicts_fresh hfresh
  obtain ⟨blockLength, blockLimit, target, rfl⟩ := hfresh.eq
  exact .going ⟨htidy, .start hdepicts, htarget, rfl, rfl, rfl, rfl⟩ rfl (.inl rfl)

/-- A driven parse that ends without a fatal error is done if and only if the search from the front
of the stream finds an end.  Then the stack holds the trees of this end, and the alternatives chosen
are those of the search.  If nothing commits, they are the first that lead to any end at all.
Otherwise the parse ends with the error in the input that ends the search. -/
theorem drive_searches {stream : Stream} {answer : Except Error Status}
    (hfresh : Fresh m stream r) (htarget : r.target = none)
    (h : Answers (drive m rejects turns calls .start) r s answer) :
    (answer = .ok .done ↔
      ∃ alternatives ω, Searches m rejects (Scene.front m stream) 0 (.done alternatives ω)) ∧
    (∀ alternatives ω, Searches m rejects (Scene.front m stream) 0 (.done alternatives ω) →
      (chosen s.log.records).reverse = alternatives ∧ stackShapes s = .ok ω.stack.reverse ∧
        (m.grammar.validate = .ok () → m.grammar.NeverCommits →
          Route m rejects (Scene.front m stream) alternatives ω ∧
            ∀ others ω', Route m rejects (Scene.front m stream) others ω' →
              NoLater alternatives others)) ∧
    (answer ≠ .ok .done → ∃ e, answer = .error e ∧ e.isInInput = true ∧
      (Searches m rejects (Scene.front m stream) 0 (.failed e) ∨
        Searches m rejects (Scene.front m stream) 0 (.barred e))) := by
  have hbegins := begins_fresh hfresh
  have hanswered : Answered m rejects _ _ _ _ := answered_fresh hfresh htarget
  cases answer with
  | ok status =>
    obtain ⟨rfl, σ, left, hstands, hresolves⟩ := drive_ok hanswered hbegins h
    obtain ⟨_, _, hverdict, hfound⟩ | ⟨_, hverdict, -⟩ := resolves_single (hresolves .halted)
    · cases hverdict
      refine ⟨⟨fun _ => ⟨_, _, hfound⟩, fun _ => rfl⟩, fun alternatives ω hsearches => ?_,
        fun hne => (hne rfl).elim⟩
      cases hfound.unique hsearches
      refine ⟨rfl, stackShapes_of_depicts hstands.tidy hstands.depicts, fun hvalid hfree => ?_⟩
      obtain ⟨depth, hdepth⟩ := hsearches
      obtain ⟨hroute, -, hfirst⟩ := search_tells hvalid hfree hdepth
      exact ⟨hroute, fun others ω' hother => hfirst others ω' hother (Nat.zero_le _)⟩
    · cases hverdict
  | error e =>
    obtain ⟨he, hdrive⟩ := h
    have hresolves := drive_error hanswered hbegins he hdrive .halted
    obtain ⟨_, _, hverdict, -⟩ | ⟨_, hverdict, hfailed⟩ := resolves_single hresolves
    · cases hverdict
    · cases hverdict
      have hnone {alternatives : List Nat} {ω : Scene} :
          ¬Searches m rejects (Scene.front m stream) 0 (.done alternatives ω) := by
        intro hsearches
        rcases hfailed with hfailed | hfailed <;> cases hfailed.unique hsearches
      refine ⟨⟨nofun, fun ⟨_, _, hsearches⟩ => (hnone hsearches).elim⟩,
        fun _ _ hsearches => (hnone hsearches).elim, fun _ => ⟨e, rfl, ?_, hfailed⟩⟩
      rcases hfailed with ⟨depth, hfailed⟩ | ⟨depth, hfailed⟩
      · exact search_blames hfailed
      · exact search_blames hfailed

/-- The letter is shifted at first, which leads nowhere, and then becomes a word. -/
theorem drive_searches_letter : ∃ s ω,
    Answers (drive letterMachine (fun _ => false) 20 1 .start) letterStart s (.ok .done) ∧
      (chosen s.log.records).reverse = [1, 0, 0] ∧
      Searches letterMachine (fun _ => false) (Scene.front letterMachine (Stream.ofBytes [97])) 0
        (.done [1, 0, 0] ω) ∧ stackShapes s = .ok ω.stack.reverse := by
  obtain ⟨s, hparse, -⟩ := parse_letter
  have hfresh : Fresh letterMachine (Stream.ofBytes [97]) letterStart := ⟨rfl, 8, 8, none, rfl⟩
  have hdrive :
      Answers (drive letterMachine (fun _ => false) 20 1 .start) letterStart s (.ok .done) :=
    bind_ok hparse _
  have hchosen : (match parse letterMachine 20 .start letterStart with
      | .ok _ s => (chosen s.log.records).reverse
      | .error _ _ => []) = [1, 0, 0] := by decide +kernel
  rw [hparse] at hchosen
  obtain ⟨hdone, hfound, -⟩ := drive_searches hfresh rfl hdrive
  obtain ⟨alternatives, ω, hsearches⟩ := hdone.1 rfl
  obtain ⟨rfl, hstack, -⟩ := hfound alternatives ω hsearches
  exact ⟨s, ω, hdrive, hchosen, hchosen ▸ hsearches, hstack⟩

end Rewind.Run
