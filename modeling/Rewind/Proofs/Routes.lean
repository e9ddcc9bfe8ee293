import Rewind.Proofs.Alternatives
import Rewind.Proofs.Search

/-!
# The first route to the end

A `Route` is a way from a scene to the end of the input, by alternatives that are not rejected.
Where no step commits, a search finds the first of all routes, in the lexicographic order of their
alternatives, and fails only if there is none.
-/

namespace Rewind

/-- No step commits. -/
def Grammar.Tables.NeverCommits (t : Grammar.Tables) : Prop :=
  ∀ transition commits : Nat, t.commits[transition]? = some commits → commits = 0

namespace Run

/-- A way from a scene to the end, by these alternatives, one for each step. -/
inductive Route (m : Machine) (rejects : Shape → Bool) : Scene → List Nat → Scene → Prop
  | acquired {σ τ ω : Scene} {alternatives : List Nat} :
    σ.queue = [] → σ.acquired m = some (.ok τ) → Route m rejects τ alternatives ω →
    Route m rejects σ alternatives ω
  | last {σ : Scene} {s : Shape} {queue : List Shape} {k : Nat} {t : Tried} :
    σ.queue = s :: queue → σ.tried m s k = some (.ok t) → t.rejection m rejects = none →
    t.scene.ended m = true → Route m rejects σ [k] t.scene
  | step {σ ω : Scene} {s : Shape} {queue : List Shape} {k : Nat} {t : Tried}
      {alternatives : List Nat} :
    σ.queue = s :: queue → σ.tried m s k = some (.ok t) → t.rejection m rejects = none →
    t.scene.ended m = false → Route m rejects t.scene alternatives ω →
    Route m rejects σ (k :: alternatives) ω

variable {m : Machine} {rejects : Shape → Bool} {σ τ ω : Scene} {s : Shape} {queue : List Shape}
  {t : Tried} {k depth : Nat} {alternatives : List Nat} {fate : Fate} {e : Error}

/-! ## Alternatives that were tried -/

lemma tried_eq_ok (h : σ.tried m s k = some (.ok t)) :
    m.grammar.decide σ.state s.element k = .ok (some t.decision) ∧
      ∃ commits, m.grammar.commits[t.decision.transition]? = some commits ∧
        t.commits = decide (commits ≠ 0) := by
  unfold Scene.tried at h
  split at h
  · cases h
  · cases h
  · rename_i decision hdecide
    split at h
    · rename_i target commits htarget hcommits
      obtain ⟨τ, -, hτ⟩ := Option.map_eq_some_iff.1 h
      cases hτ
      exact ⟨hdecide, commits, hcommits, rfl⟩
    · cases h

lemma tried_eq_error (h : σ.tried m s k = some (.error e)) :
    m.grammar.decide σ.state s.element k = .ok none := by
  unfold Scene.tried at h
  split at h
  · cases h
  · assumption
  · split at h
    · obtain ⟨τ, -, hτ⟩ := Option.map_eq_some_iff.1 h
      cases hτ
    · cases h

lemma tried_alternative (h : σ.tried m s k = some (.ok t)) : t.decision.alternative = k := by
  obtain ⟨transition, start, -, -, -, hdecision⟩ :=
    Grammar.Tables.decide_eq_some (tried_eq_ok h).1
  exact (Grammar.Tables.decisionAt_eq_some hdecision).2.1

lemma commits_eq_false (hfree : m.grammar.NeverCommits) (h : σ.tried m s k = some (.ok t)) :
    t.commits = false := by
  obtain ⟨-, commits, hcommits, ht⟩ := tried_eq_ok h
  rw [ht, hfree _ _ hcommits]
  rfl

/-! ## Routes -/

namespace Route

lemma of_nil (h : Route m rejects σ alternatives ω) (hqueue : σ.queue = []) :
    ∃ τ, σ.acquired m = some (.ok τ) ∧ Route m rejects τ alternatives ω := by
  cases h with
  | acquired _ hacquired hroute => exact ⟨_, hacquired, hroute⟩
  | last hcons _ _ _ => rw [hqueue] at hcons; cases hcons
  | step hcons _ _ _ _ => rw [hqueue] at hcons; cases hcons

/-- With a lookahead, a route begins with an alternative for it. -/
lemma of_cons (h : Route m rejects σ alternatives ω) (hqueue : σ.queue = s :: queue) :
    ∃ k rest t, alternatives = k :: rest ∧ σ.tried m s k = some (.ok t) ∧
      t.rejection m rejects = none ∧
      (t.scene.ended m = true ∧ rest = [] ∧ ω = t.scene ∨
        t.scene.ended m = false ∧ Route m rejects t.scene rest ω) := by
  cases h with
  | acquired hnil _ _ => rw [hqueue] at hnil; cases hnil
  | last hcons htried hrejected hended =>
    obtain ⟨rfl, -⟩ := List.cons.inj (hqueue.symm.trans hcons)
    exact ⟨_, _, _, rfl, htried, hrejected, .inl ⟨hended, rfl, rfl⟩⟩
  | step hcons htried hrejected hended hroute =>
    obtain ⟨rfl, -⟩ := List.cons.inj (hqueue.symm.trans hcons)
    exact ⟨_, _, _, rfl, htried, hrejected, .inr ⟨hended, hroute⟩⟩

end Route

/-- Alternatives that come no later than others, in lexicographic order. -/
def NoLater (alternatives others : List Nat) : Prop :=
  alternatives = others ∨ List.Lex (· < ·) alternatives others

lemma noLater_single (k : Nat) (others : List Nat) : NoLater [k] (k :: others) := by
  cases others with
  | nil => exact .inl rfl
  | cons j others => exact .inr (.cons .nil)

lemma NoLater.cons {others : List Nat} (k : Nat) (h : NoLater alternatives others) :
    NoLater (k :: alternatives) (k :: others) :=
  h.imp (congrArg (k :: ·)) .cons

/-- Every route that begins with an alternative from `k` on comes no earlier than these. -/
def FirstFrom (m : Machine) (rejects : Shape → Bool) (σ : Scene) (k : Nat)
    (alternatives : List Nat) : Prop :=
  ∀ others ω, Route m rejects σ others ω → k ≤ others.headD 0 → NoLater alternatives others

/-- No route begins with an alternative from `k` on. -/
def NoneFrom (m : Machine) (rejects : Shape → Bool) (σ : Scene) (k : Nat) : Prop :=
  ∀ others ω, Route m rejects σ others ω → others.headD 0 < k

/-- What the fate of a search says of the routes from its scene. -/
def Fate.Tells (m : Machine) (rejects : Shape → Bool) (σ : Scene) (k : Nat) : Fate → Prop
  | done alternatives ω =>
    Route m rejects σ alternatives ω ∧ k ≤ alternatives.headD 0 ∧
      FirstFrom m rejects σ k alternatives
  | failed _ => NoneFrom m rejects σ k
  | barred _ => False

lemma tells_acquired (hqueue : σ.queue = []) (hacquired : σ.acquired m = some (.ok τ))
    (h : fate.Tells m rejects τ k) : fate.Tells m rejects σ k := by
  have hback {others : List Nat} {ω : Scene} (hroute : Route m rejects σ others ω) :
      Route m rejects τ others ω := by
    obtain ⟨τ', hacquired', hroute'⟩ := hroute.of_nil hqueue
    rw [hacquired] at hacquired'
    cases hacquired'
    exact hroute'
  cases fate with
  | done alternatives ω =>
    obtain ⟨hroute, hle, hfirst⟩ := h
    exact ⟨.acquired hqueue hacquired hroute, hle, fun _ _ hother => hfirst _ _ (hback hother)⟩
  | failed e => exact fun _ _ hother => h _ _ (hback hother)
  | barred e => exact h

section Tried

variable (hvalid : m.grammar.validate = .ok ()) (hqueue : σ.queue = s :: queue)
include hvalid hqueue

/-- Behind an alternative that the tables do not have there is no other. -/
lemma noneFrom_refused (hdecide : m.grammar.decide σ.state s.element k = .ok none) :
    NoneFrom m rejects σ k := by
  intro others ω hroute
  obtain ⟨j, rest, t, rfl, htried, -⟩ := hroute.of_cons hqueue
  by_contra hge
  have hkj : k ≤ j := Nat.le_of_not_lt hge
  have hdecidej := (tried_eq_ok htried).1
  rcases Nat.lt_or_eq_of_le hkj with hlt | rfl
  · obtain ⟨earlier, hearlier, -⟩ := Grammar.Tables.decide_of_lt hvalid hdecidej hlt
    rw [hdecide] at hearlier
    cases hearlier
  · rw [hdecide] at hdecidej
    cases hdecidej

omit hvalid in
/-- When an alternative leads nowhere, the routes are those by later ones. -/
lemma succ_le_of_route {others : List Nat}
    (hnone : ∀ rest ω, ¬Route m rejects σ (k :: rest) ω) (hroute : Route m rejects σ others ω)
    (hle : k ≤ others.headD 0) : k + 1 ≤ others.headD 0 := by
  obtain ⟨j, rest, t', rfl, -⟩ := hroute.of_cons hqueue
  refine Nat.lt_of_le_of_ne hle fun hkj => hnone rest ω ?_
  rw [show k = j from hkj]
  exact hroute

/-- When the last alternative leads nowhere, there are no routes. -/
lemma noneFrom_last (htried : σ.tried m s k = some (.ok t))
    (hnone : ∀ rest ω, ¬Route m rejects σ (k :: rest) ω) (hlast : t.decision.more = false) :
    NoneFrom m rejects σ k := by
  intro others ω hroute
  by_contra hge
  have hlt := succ_le_of_route hqueue hnone hroute (Nat.le_of_not_lt hge)
  obtain ⟨j, rest, t', rfl, htriedj, -⟩ := hroute.of_cons hqueue
  obtain ⟨earlier, hearlier, hmore⟩ :=
    Grammar.Tables.decide_of_lt hvalid (tried_eq_ok htriedj).1 hlt
  rw [(tried_eq_ok htried).1] at hearlier
  cases hearlier
  rw [hlast] at hmore
  cases hmore

omit hvalid in
lemma tells_next (hnone : ∀ rest ω, ¬Route m rejects σ (k :: rest) ω)
    (h : fate.Tells m rejects σ (k + 1)) : fate.Tells m rejects σ k := by
  cases fate with
  | done alternatives ω =>
    obtain ⟨hroute, hle, hfirst⟩ := h
    exact ⟨hroute, Nat.le_of_succ_le hle, fun others ω' hother hk =>
      hfirst others ω' hother (succ_le_of_route hqueue hnone hother hk)⟩
  | failed e =>
    intro others ω hroute
    by_contra hge
    exact absurd (h others ω hroute)
      (Nat.not_lt.2 (succ_le_of_route hqueue hnone hroute (Nat.le_of_not_lt hge)))
  | barred e => exact h

omit hvalid in
/-- An alternative at which a route ends is the first, since all others are longer or later. -/
lemma tells_last (htried : σ.tried m s k = some (.ok t))
    (hrejected : t.rejection m rejects = none) (hended : t.scene.ended m = true) :
    Fate.Tells m rejects σ k (.done [k] t.scene) := by
  refine ⟨.last hqueue htried hrejected hended, Nat.le_refl _, fun others ω hother hle => ?_⟩
  obtain ⟨j, rest, -, rfl, -⟩ := hother.of_cons hqueue
  have hkj : k ≤ j := hle
  rcases Nat.lt_or_eq_of_le hkj with hlt | rfl
  · exact .inr (.rel hlt)
  · exact noLater_single k rest

omit hvalid in
lemma tells_step (htried : σ.tried m s k = some (.ok t))
    (hrejected : t.rejection m rejects = none) (hended : t.scene.ended m = false)
    (h : Fate.Tells m rejects t.scene 0 (.done alternatives ω)) :
    Fate.Tells m rejects σ k (.done (k :: alternatives) ω) := by
  obtain ⟨hroute, -, hfirst⟩ := h
  refine ⟨.step hqueue htried hrejected hended hroute, Nat.le_refl _,
    fun others ω' hother hle => ?_⟩
  obtain ⟨j, rest, t', rfl, htried', -, hcases⟩ := hother.of_cons hqueue
  have hkj : k ≤ j := hle
  rcases Nat.lt_or_eq_of_le hkj with hlt | rfl
  · exact .inr (.rel hlt)
  · obtain rfl : t = t' := by
      rw [htried] at htried'
      cases htried'
      rfl
    rcases hcases with ⟨hended', -, -⟩ | ⟨-, hroute'⟩
    · rw [hended] at hended'
      cases hended'
    · exact (hfirst _ _ hroute' (Nat.zero_le _)).cons k

end Tried

/-- Where nothing commits, a search finds the first route, and fails only if there is none. -/
theorem search_tells (hvalid : m.grammar.validate = .ok ()) (hfree : m.grammar.NeverCommits)
    (h : search m rejects depth σ k = some fate) : fate.Tells m rejects σ k := by
  induction depth generalizing σ k fate with
  | zero => cases h
  | succ depth ih =>
    rw [search] at h
    cases hqueue : σ.queue with
    | nil =>
      simp only [hqueue] at h
      split at h
      · cases h
      · rename_i e hacquired
        cases h
        intro others ω hroute
        obtain ⟨τ, hacquired', -⟩ := hroute.of_nil hqueue
        rw [hacquired] at hacquired'
        cases hacquired'
      · rename_i τ hacquired
        exact tells_acquired hqueue hacquired (ih h)
    | cons s queue =>
      simp only [hqueue] at h
      split at h
      · cases h
      · rename_i e htried
        cases h
        exact noneFrom_refused hvalid hqueue (tried_eq_error htried)
      · rename_i t htried
        have hunique {t' : Tried} (htried' : σ.tried m s k = some (.ok t')) : t = t' := by
          rw [htried] at htried'
          cases htried'
          rfl
        -- An alternative that fails leads nowhere, and the search goes on with the next one.
        have hfailed {e : Error} (hnone : ∀ rest ω, ¬Route m rejects σ (k :: rest) ω)
            (h : (if t.decision.more then search m rejects depth σ (k + 1)
              else some (.failed e)) = some fate) : fate.Tells m rejects σ k := by
          cases hmore : t.decision.more with
          | true =>
            rw [hmore] at h
            exact tells_next hqueue hnone (ih h)
          | false =>
            rw [hmore] at h
            cases h
            exact noneFrom_last hvalid hqueue htried hnone hmore
        cases hrejected : t.rejection m rejects with
        | some e =>
          rw [Tried.fate, hrejected] at h
          refine hfailed (fun rest ω hroute => ?_) h
          obtain ⟨j, _, t', hcons, htried', hrejected', -⟩ := hroute.of_cons hqueue
          obtain ⟨rfl, rfl⟩ := List.cons.inj hcons
          rw [← hunique htried', hrejected] at hrejected'
          cases hrejected'
        | none =>
          cases hended : t.scene.ended m with
          | true =>
            rw [Tried.fate, hrejected, hended, tried_alternative htried] at h
            cases h
            exact tells_last hqueue htried hrejected hended
          | false =>
            cases hbehind : search m rejects depth t.scene 0 with
            | none =>
              rw [Tried.fate, hrejected, hended, hbehind] at h
              cases h
            | some behind =>
              have htells := ih hbehind
              rw [Tried.fate, hrejected, hended, hbehind, tried_alternative htried,
                commits_eq_false hfree htried] at h
              cases behind with
              | done alternatives ω =>
                cases h
                exact tells_step hqueue htried hrejected hended htells
              | failed e =>
                refine hfailed (fun rest ω hroute => ?_) h
                obtain ⟨j, _, t', hcons, htried', -, hcases⟩ := hroute.of_cons hqueue
                obtain ⟨rfl, rfl⟩ := List.cons.inj hcons
                obtain rfl := hunique htried'
                rcases hcases with ⟨hended', -⟩ | ⟨-, hroute'⟩
                · rw [hended] at hended'
                  cases hended'
                · exact Nat.not_lt_zero _ (htells _ _ hroute')
              | barred e => exact htells.elim

end Run

end Rewind
