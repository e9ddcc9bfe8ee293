import Rewind.Proofs.Search

/-!
# Choices left open

A search by recursion comes back to a decision when an alternative has failed.  Without recursion,
the decisions that are left open are kept in a list, the latest first.  `Resolves` says what a
search with such a list comes to, and there is one rule for each thing that can happen to the scene
at the front of it.
-/

namespace Rewind.Run

/-- A choice left open: the alternatives of a scene from one on, behind those that were chosen
before, the latest first. -/
structure Choice where
  scene : Scene
  alternative : Nat
  chosen : List Nat

/-- What is left open when an alternative is taken. -/
def Choice.leaves (c : Choice) (more : Bool) (left : List Choice) : List Choice :=
  if more then { c with alternative := c.alternative + 1 } :: left else left

/-- How a parse ends: with the alternatives chosen and the last scene, or with an error. -/
abbrev Verdict := Except Error (List Nat × Scene)

/-- The verdict is that of a fate.  Behind a failure there may be other choices. -/
def Fate.Decides (chosen : List Nat) (behind : Error → Prop) (verdict : Verdict) : Fate → Prop
  | done alternatives σ => verdict = .ok (chosen.reverse ++ alternatives, σ)
  | failed e => behind e
  | barred e => verdict = .error e

/-- The verdict of a search that goes on with the latest choice left open, if there is one, and ends
with the error if there is none. -/
def Resolves (m : Machine) (rejects : Shape → Bool) : Error → List Choice → Verdict → Prop
  | e, [], verdict => verdict = .error e
  | _, c :: left, verdict =>
    ∃ fate, Searches m rejects c.scene c.alternative fate ∧
      fate.Decides c.chosen (Resolves m rejects · left verdict) verdict

variable {m : Machine} {rejects : Shape → Bool} {σ τ : Scene} {s : Shape} {queue : List Shape}
  {t : Tried} {k : Nat} {fate : Fate} {e e' : Error} {c : Choice} {left : List Choice}
  {verdict : Verdict}

/-- With nothing else left open, the verdict is the fate of the search. -/
lemma resolves_single (h : Resolves m rejects e [⟨σ, 0, []⟩] verdict) :
    (∃ alternatives ω, verdict = .ok (alternatives, ω) ∧
        Searches m rejects σ 0 (.done alternatives ω)) ∨
      ∃ e', verdict = .error e' ∧
        (Searches m rejects σ 0 (.failed e') ∨ Searches m rejects σ 0 (.barred e')) := by
  obtain ⟨fate, hsearch, hverdict⟩ := h
  cases fate with
  | done alternatives ω => exact .inl ⟨alternatives, ω, hverdict, hsearch⟩
  | failed e' => exact .inr ⟨e', hverdict, .inl hsearch⟩
  | barred e' => exact .inr ⟨e', hverdict, .inr hsearch⟩

lemma resolves_failed (hsearch : Searches m rejects c.scene c.alternative (.failed e))
    (h : Resolves m rejects e left verdict) : Resolves m rejects e' (c :: left) verdict :=
  ⟨.failed e, hsearch, h⟩

lemma resolves_acquired (hqueue : c.scene.queue = [])
    (hacquired : c.scene.acquired m = some (.ok τ))
    (h : Resolves m rejects e ({ c with scene := τ } :: left) verdict) :
    Resolves m rejects e' (c :: left) verdict := by
  obtain ⟨fate, hsearch, hverdict⟩ := h
  exact ⟨fate, searches_acquired hqueue hacquired hsearch, hverdict⟩

section Tried

variable (hqueue : c.scene.queue = s :: queue)
  (htried : c.scene.tried m s c.alternative = some (.ok t))
include hqueue htried

/-- An alternative failed, and the next one is tried if there is one. -/
lemma resolves_next (hends : t.Ends m rejects (.failed e))
    (h : Resolves m rejects e (c.leaves t.decision.more left) verdict) :
    Resolves m rejects e' (c :: left) verdict := by
  cases hmore : t.decision.more with
  | true =>
    rw [hmore] at h
    obtain ⟨fate, hsearch, hverdict⟩ := h
    exact ⟨fate, searches_next hqueue htried hends hmore hsearch, hverdict⟩
  | false =>
    rw [hmore] at h
    exact resolves_failed (searches_tried hqueue htried hends fun _ _ => hmore) h

lemma resolves_rejected (hrejected : t.rejection m rejects = some e)
    (h : Resolves m rejects e (c.leaves t.decision.more left) verdict) :
    Resolves m rejects e' (c :: left) verdict :=
  resolves_next hqueue htried (Tried.ends_rejected hrejected) h

lemma resolves_done (hrejected : t.rejection m rejects = none)
    (hended : t.scene.ended m = true) :
    Resolves m rejects e' (c :: left)
      (.ok ((t.decision.alternative :: c.chosen).reverse, t.scene)) := by
  refine ⟨_, searches_tried hqueue htried (Tried.ends_done hrejected hended) nofun, ?_⟩
  rw [Fate.Decides, List.reverse_cons]

/-- A step was completed.  If it commits, then nothing before it is left open. -/
lemma resolves_completed (hrejected : t.rejection m rejects = none)
    (hended : t.scene.ended m = false)
    (h : Resolves m rejects e (⟨t.scene, 0, t.decision.alternative :: c.chosen⟩ ::
      if t.commits then [] else c.leaves t.decision.more left) verdict) :
    Resolves m rejects e' (c :: left) verdict := by
  obtain ⟨fate, hsearch, hverdict⟩ := h
  have hends := Tried.ends_behind hrejected hended hsearch
  cases fate with
  | done alternatives ω =>
    rw [Fate.Decides, List.reverse_cons, List.append_assoc] at hverdict
    exact ⟨_, searches_tried hqueue htried hends (by rintro _ ⟨⟩), hverdict⟩
  | barred e => exact ⟨_, searches_tried hqueue htried hends (by rintro _ ⟨⟩), hverdict⟩
  | failed e =>
    rw [Fate.Decides] at hverdict
    cases hcommits : t.commits with
    | true =>
      rw [Fate.behind, hcommits, if_pos rfl] at hends
      rw [hcommits, if_pos rfl] at hverdict
      exact ⟨_, searches_tried hqueue htried hends (by rintro _ ⟨⟩), hverdict⟩
    | false =>
      rw [Fate.behind, hcommits, if_neg Bool.false_ne_true] at hends
      rw [hcommits, if_neg Bool.false_ne_true] at hverdict
      exact resolves_next hqueue htried hends hverdict

end Tried

end Rewind.Run
