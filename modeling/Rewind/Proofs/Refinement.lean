import Rewind.Proofs.Calls
import Rewind.Proofs.Lockstep

/-!
# Turns of a parse as moves of its search

A run of a parse `Poses` the choices that are left open to it, and the search that goes on with them
has a verdict.  A turn of the run goes from choices to others whose verdict is the same, until the
run comes to that verdict itself.
-/

namespace Rewind.Run

open Attempt Op

/-- The choices of a run, that which it is at first. -/
inductive Poses (m : Machine) (base : View) : Run → List Choice → Prop
  | going {r : Run} {σ : Scene} {left : List Choice} :
    Stands m base r σ left → isBetween r.log.records = true →
    r.point = .start ∨ r.point = .generation ∨ r.point = .preEof →
    Poses m base r (⟨σ, r.retry, chosen r.log.records⟩ :: left)
  | back {r : Run} {σ : Scene} {c : Choice} {left : List Choice} :
    Stands m base r σ (c :: left) → r.point = .reverse .backtrack → Poses m base r (c :: left)
  | acting {r : Run} {c : Choice} {left : List Choice} {t : Tried} {status : Status} :
    Tries m base c left t r → Leaves m t .start r (some status) → Poses m base r (c :: left)

/-- The verdict on the second choices is that on the first. -/
def Refines (m : Machine) (rejects : Shape → Bool) (before after : List Choice) : Prop :=
  ∀ e e' verdict, Resolves m rejects e after verdict → Resolves m rejects e' before verdict

/-- The run waits for its caller, as the status says. -/
def Suspends (s : Run) : Status → Prop
  | .reduction production tree _ =>
    (∃ commits, s.point = .reduction production commits) ∧ s.queue.head? = some tree
  | .generation _ _ _ => s.point = .generation
  | .preEof _ => s.point = .preEof
  | _ => False

/-- What a parse that has these choices before it comes to. -/
inductive Follows (m : Machine) (rejects : Shape → Bool) (base : View) (before : List Choice) :
    Option Status → Run → Prop
  | on {s : Run} {after : List Choice} :
    Poses m base s after → s.point = .start ∨ s.point = .reverse .backtrack →
    Refines m rejects before after → Follows m rejects base before none s
  | waits {s : Run} {after : List Choice} {status : Status} :
    Poses m base s after → Suspends s status → Refines m rejects before after →
    Follows m rejects base before (some status) s
  | done {s : Run} {σ : Scene} {left : List Choice} :
    Stands m base s σ left →
    (∀ e, Resolves m rejects e before (.ok ((chosen s.log.records).reverse, σ))) →
    Follows m rejects base before (some .done) s

variable {m : Machine} {rejects : Shape → Bool} {base : View} {σ τ : Scene} {c : Choice}
  {left before after : List Choice} {t : Tried} {r s q : Run} {a : Option Status}

lemma Refines.refl (c : Choice) (left : List Choice) :
    Refines m rejects (c :: left) (c :: left) :=
  fun _ _ _ h => h

lemma Refines.trans {later : List Choice} (h : Refines m rejects before after)
    (h' : Refines m rejects after later) : Refines m rejects before later :=
  fun e e' verdict hverdict => h e e' verdict (h' e e verdict hverdict)

lemma Follows.refines (h : Follows m rejects base after a s)
    (hrefines : Refines m rejects before after) : Follows m rejects base before a s := by
  cases h with
  | on hposes hpoint h => exact .on hposes hpoint (hrefines.trans h)
  | waits hposes hsuspends h => exact .waits hposes hsuspends (hrefines.trans h)
  | done hstands h => exact .done hstands fun e => hrefines e e _ (h e)

/-- While retries are left, so is a choice. -/
lemma Stands.exists_choice (h : Stands m base r σ left) (hbase : Begins base)
    (hpos : 0 < r.retries) : ∃ c left', left = c :: left' := by
  rw [h.retries hbase] at hpos
  exact List.exists_cons_of_length_pos hpos

lemma Stands.no_choice (h : Stands m base r σ left) (hbase : Begins base)
    (hzero : r.retries = 0) : left = [] := by
  rw [h.retries hbase] at hzero
  exact List.eq_nil_of_length_eq_zero hzero

/-! ## Going forward -/

/-- A step that is completed is one that the search completes. -/
lemma follows_completeStep (h : Tries m base c left t r) (hbase : Begins base)
    (hpoint : r.point = .start) (hrejected : t.rejection m rejects = none)
    (hcomplete : completeStep m t.commits r = .ok a s) :
    Follows m rejects base (c :: left) a s := by
  obtain ⟨⟨lookahead, queue, hqueue, htried⟩, hstands, hretry, hchosen⟩ := h
  obtain ⟨hs, hretry', hchosen', hbetween, ⟨hended, rfl⟩ | ⟨hended, rfl, hpoint'⟩⟩ :=
    stands_completeStep hstands hbase hcomplete
  · refine .done hs fun e => ?_
    rw [hchosen', hchosen]
    exact resolves_done hqueue htried hrejected hended
  · refine .on (.going hs hbetween (.inl (hpoint'.trans hpoint))) (.inl (hpoint'.trans hpoint)) ?_
    rw [hretry', hretry, hchosen', hchosen]
    exact fun e e' verdict hverdict => resolves_completed hqueue htried hrejected hended hverdict

lemma stands_rescans (h : Stands m base r σ left) (hrescans : Rescans r s) :
    Advances m base r s σ left := by
  have hview := view_rescans hrescans
  have htidy := h.tidy.rescans hrescans
  obtain ⟨stream, rest, scanner, -, -, -, rfl⟩ := hrescans
  exact ⟨h.keep htidy rfl hview h.target h.stopping h.halted h.aborted h.rejecting, rfl, rfl,
    fun hbetween => hbetween⟩

lemma point_marked (r : Run) : (marked r).point = r.point := by
  unfold marked
  split <;> rfl

/-- After acquiring, the run waits for its caller if it says so, and not otherwise. -/
lemma point_acquires {found : Acquired} (h : Acquires m r found s) :
    (found = .queued ∨ found = .skipped → s.point = r.point) ∧
      ∀ status, found = .suspended status → Suspends s status ∧
        (s.point = .generation ∨ s.point = .preEof) := by
  cases h with
  | consumed _ _ _ _ _ =>
    refine ⟨by simp, fun status hstatus => ?_⟩
    cases hstatus
    exact ⟨rfl, .inl rfl⟩
  | preEof _ _ _ _ =>
    refine ⟨by simp, fun status hstatus => ?_⟩
    cases hstatus
    exact ⟨rfl, .inr rfl⟩
  | skipped _ _ _ _ _ _ _ => exact ⟨fun _ => point_marked r, nofun⟩
  | queued _ _ _ _ _ _ _ => exact ⟨fun _ => point_marked r, nofun⟩
  | treeSkipped _ _ _ _ _ _ => exact ⟨fun _ => point_marked r, nofun⟩
  | treeQueued _ _ _ _ _ _ => exact ⟨fun _ => point_marked r, nofun⟩
  | ended _ _ _ _ => exact ⟨fun _ => rfl, nofun⟩
  | noToken _ _ => exact ⟨by simp, nofun⟩

/-- A lookahead that the tables have nothing for. -/
lemma tried_refused {id : NodeId} {rest : List NodeId} {n : Node} (h : Stands m base r σ left)
    (hqueue : r.queue = id :: rest) (hn : Pool.get? r.forest id = some n)
    (hdecide : m.grammar.decide r.state n.element r.retry = .ok none) :
    Searches m rejects σ r.retry (.failed (.unexpected n.element r.state n.span)) := by
  obtain ⟨lookahead, queue, n', hfront, hn', helement, hspan, -⟩ := h.front hqueue
  obtain rfl : n = n' := Option.some.inj (hn.symm.trans hn')
  refine searches_refused hfront ?_
  rw [Scene.tried, ← h.depicts.state, helement, hspan, show r.view.state = r.state from rfl,
    hdecide]

/-- Something was acquired, or there was nothing to acquire. -/
lemma advances_acquired (rejects : Shape → Bool) {found : Acquired} (h : Stands m base r σ left)
    (hbase : Begins base)
    (hqueue : r.queue = []) (hrescans : Rescans r q) (hacquires : Acquires m q found s) :
    q.point = r.point ∧
      (((∀ region, found ≠ .noToken region) ∧ ∃ τ, Advances m base r s τ left ∧
          Refines m rejects (⟨σ, r.retry, chosen r.log.records⟩ :: left)
            (⟨τ, s.retry, chosen s.log.records⟩ :: left)) ∨
        ∃ region, found = .noToken region ∧ s = q ∧ Stands m base q σ left ∧
          Searches m rejects σ r.retry (.failed (.lexical region q.position))) := by
  have hscanned := stands_rescans h hrescans
  have hnone := h.depicts.queue_nil hqueue
  obtain ⟨hpoint, hqueue'⟩ : q.point = r.point ∧ q.queue = r.queue := by
    obtain ⟨stream, rest, scanner, -, -, -, rfl⟩ := hrescans
    exact ⟨rfl, rfl⟩
  refine ⟨hpoint, ?_⟩
  rcases advances_acquires hscanned.stands hbase (hqueue'.trans hqueue) hacquires with
    ⟨hsome, τ, hacquired, hadvances⟩ | ⟨region, hfound, hsame, hlost⟩
  · have hall := hscanned.trans hadvances
    refine .inl ⟨hsome, τ, hall, fun e e' verdict hverdict => ?_⟩
    rw [hall.retry, hall.chosen] at hverdict
    exact resolves_acquired hnone hacquired hverdict
  · exact .inr ⟨region, hfound, hsame, hscanned.stands, searches_lost hnone hlost⟩

lemma follows_forwards (h : Stands m base r σ left) (hbase : Begins base)
    (hpoint : r.point = .start) (hbetween : isBetween r.log.records = true)
    (hforwards : Forwards m r a s) :
    Follows m rejects base (⟨σ, r.retry, chosen r.log.records⟩ :: left) a s := by
  cases hforwards with
  | @stepped id rest _ _ hqueue hsteps =>
    cases hsteps with
    | refused hn hdecide hpos =>
      obtain ⟨c, left', rfl⟩ := h.exists_choice hbase hpos
      refine .on (.back (h.await _ _ _) rfl) (.inr rfl) fun e e' verdict hverdict => ?_
      exact resolves_failed (tried_refused h hqueue hn hdecide) hverdict
    | suspended hn hdecide hcommits htarget hact =>
      obtain ⟨t, htries, -, hleaves⟩ :=
        tries_act h hbase hqueue hn hdecide hcommits htarget hbetween hact
      refine .waits (.acting htries (hpoint ▸ hleaves)) ?_ (.refl _ _)
      cases hleaves with
      | tree hp hq _ _ => exact ⟨⟨_, hp⟩, by rw [hq]; rfl⟩
    | completed hn hdecide hcommits htarget hact hcomplete =>
      obtain ⟨t, htries, hcommits', hleaves⟩ :=
        tries_act h hbase hqueue hn hdecide hcommits htarget hbetween hact
      cases hleaves with
      | nothing hp hrejected =>
        exact follows_completeStep htries hbase (hp.trans hpoint) (hrejected rejects)
          (hcommits' ▸ hcomplete)
  | @acquired _ t hqueue hrescans hacquires =>
    have hfound {found : Acquired} (hacquires : Acquires m t found s)
        (hplain : found = .queued ∨ found = .skipped) :
        Follows m rejects base (⟨σ, r.retry, chosen r.log.records⟩ :: left) none s := by
      obtain ⟨hsame, ⟨-, τ, hadvances, hrefines⟩ | ⟨region, rfl, -⟩⟩ :=
        advances_acquired rejects h hbase hqueue hrescans hacquires
      · have hstart := ((point_acquires hacquires).1 hplain).trans (hsame.trans hpoint)
        exact .on (.going hadvances.stands (hadvances.between hbetween) (.inl hstart)) (.inl hstart)
          hrefines
      · rcases hplain with hplain | hplain <;> cases hplain
    exact hacquires.elim (hfound · (.inl rfl)) (hfound · (.inr rfl))
  | @suspended status _ t hqueue hrescans hacquires =>
    obtain ⟨-, ⟨-, τ, hadvances, hrefines⟩ | ⟨region, hnone, -⟩⟩ :=
      advances_acquired rejects h hbase hqueue hrescans hacquires
    · obtain ⟨hsuspends, hwaits⟩ := (point_acquires hacquires).2 status rfl
      exact .waits (.going hadvances.stands (hadvances.between hbetween) (.inr hwaits)) hsuspends
        hrefines
    · cases hnone
  | @refused region t hqueue hrescans hacquires hpos =>
    obtain ⟨-, ⟨hsome, -⟩ | ⟨region', hfound, -, hstands, hsearch⟩⟩ :=
      advances_acquired rejects h hbase hqueue hrescans hacquires
    · exact absurd rfl (hsome region)
    · cases hfound
      obtain ⟨c, left', rfl⟩ := hstands.exists_choice hbase hpos
      refine .on (.back (hstands.await _ _ _) rfl) (.inr rfl) fun e e' verdict hverdict => ?_
      exact resolves_failed hsearch hverdict

/-- An error in a turn forward is the verdict, since nothing was left open. -/
lemma resolves_goForward {e : Error} (h : Stands m base r σ left) (hbase : Begins base)
    (he : e.isFatal = false) (hrun : goForward m r = .error (.error e) s) (e' : Error) :
    Resolves m rejects e' (⟨σ, r.retry, chosen r.log.records⟩ :: left) (.error e) := by
  obtain ⟨t, hzero, -, ⟨id, rest, n, hqueue, hn, hdecide, rfl, rfl⟩ |
    ⟨region, hqueue, hrescans, hacquires, rfl⟩⟩ :=
    goForward_error h.tidy.pool h.tidy.attached he hrun
  · obtain rfl := h.no_choice hbase hzero
    exact resolves_failed (tried_refused h hqueue hn hdecide) rfl
  · obtain ⟨-, ⟨hsome, -⟩ | ⟨region', hfound, -, hstands, hsearch⟩⟩ :=
      advances_acquired rejects h hbase hqueue hrescans hacquires
    · exact absurd rfl (hsome region)
    · cases hfound
      obtain rfl := hstands.no_choice hbase hzero
      exact resolves_failed hsearch rfl

/-! ## Turns -/

/-- A turn of a run that does not wait for its caller. -/
lemma follows_turn (h : Poses m base r before) (hbase : Begins base)
    (hpoint : r.point = .start ∨ r.point = .reverse .backtrack) (hturn : turn m r = .ok a s) :
    Follows m rejects base before a s := by
  rw [turn, get_bind] at hturn
  cases h with
  | @going σ left hstands hbetween hwaits =>
    have hstart : r.point = .start := by
      refine hpoint.resolve_right fun hback => ?_
      rw [hback] at hwaits
      rcases hwaits with hwaits | hwaits | hwaits <;> cases hwaits
    simp only [hstart] at hturn
    exact follows_forwards hstands hbase hstart hbetween
      (goForward_ok hstands.tidy.pool hstands.tidy.attached hturn)
  | @back σ c left hstands hback =>
    simp only [hback] at hturn
    obtain ⟨s', hunwind, hs, hstart, hretry, hchosen, hbetween⟩ := unwind_stands hstands hbase
    obtain ⟨rfl, rfl⟩ := EStateM.Result.ok.inj (hunwind.symm.trans hturn)
    have hposes := Poses.going hs hbetween (.inl hstart)
    rw [hretry, hchosen] at hposes
    exact .on hposes (.inl hstart) (.refl _ _)
  | acting _ hleaves =>
    cases hleaves with
    | tree hp _ _ _ =>
      rw [hp] at hpoint
      rcases hpoint with hpoint | hpoint <;> cases hpoint

lemma resolves_turn {e : Error} (h : Poses m base r before) (hbase : Begins base)
    (hpoint : r.point = .start ∨ r.point = .reverse .backtrack) (he : e.isFatal = false)
    (hturn : turn m r = .error (.error e) s) (e' : Error) :
    Resolves m rejects e' before (.error e) := by
  rw [turn, get_bind] at hturn
  cases h with
  | @going σ left hstands hbetween hwaits =>
    have hstart : r.point = .start := by
      refine hpoint.resolve_right fun hback => ?_
      rw [hback] at hwaits
      rcases hwaits with hwaits | hwaits | hwaits <;> cases hwaits
    simp only [hstart] at hturn
    exact resolves_goForward hstands hbase he hturn e'
  | @back σ c left hstands hback =>
    simp only [hback] at hturn
    obtain ⟨s', hunwind, -⟩ := unwind_stands hstands hbase
    rw [hunwind] at hturn
    cases hturn
  | acting _ hleaves =>
    cases hleaves with
    | tree hp _ _ _ =>
      rw [hp] at hpoint
      rcases hpoint with hpoint | hpoint <;> cases hpoint

/-- Turns of a run that does not wait for its caller end when it does. -/
theorem follows_takeTurns {turns : Nat} {status : Status} (h : Poses m base r before)
    (hbase : Begins base) (hpoint : r.point = .start ∨ r.point = .reverse .backtrack)
    (hturns : takeTurns m turns r = .ok status s) :
    Follows m rejects base before (some status) s := by
  induction turns generalizing r before with
  | zero => cases hturns
  | succ turns ih =>
    obtain ⟨a, t, hturn, hrest⟩ := bind_eq_ok.1 hturns
    have hfollows : Follows m rejects base before a t := follows_turn h hbase hpoint hturn
    cases a with
    | some status' =>
      obtain ⟨rfl, rfl⟩ := EStateM.Result.ok.inj hrest
      exact hfollows
    | none =>
      cases hfollows with
      | on hposes hpoint' hrefines => exact (ih hposes hpoint' hrest).refines hrefines

theorem resolves_takeTurns {turns : Nat} {e : Error} (h : Poses m base r before)
    (hbase : Begins base) (hpoint : r.point = .start ∨ r.point = .reverse .backtrack)
    (he : e.isFatal = false) (hturns : takeTurns m turns r = .error (.error e) s) (e' : Error) :
    Resolves m rejects e' before (.error e) := by
  induction turns generalizing r before e' with
  | zero => cases hturns
  | succ turns ih =>
    obtain hturn | ⟨a, t, hturn, hrest⟩ := bind_eq_error.1 hturns
    · exact resolves_turn h hbase hpoint he hturn e'
    · have hfollows : Follows m rejects base before a t := follows_turn h hbase hpoint hturn
      cases a with
      | some status => cases hrest
      | none =>
        cases hfollows with
        | on hposes hpoint' hrefines => exact hrefines e' e' _ (ih hposes hpoint' hrest e')

end Rewind.Run
