import Rewind.Proofs.History

/-!
# Invariants of runs

A property that is kept by entering a run, and by each of its turns, is kept by every parse, and
holds of all the runs that a parse passes through.
-/

namespace Rewind.Run

open Attempt Op

/-- What every move of a parse keeps, even if it ends with an error in the input. -/
structure Steady (m : Machine) (I : Run → Prop) : Prop where
  enter : ∀ ⦃r s : Run⦄ ⦃entry : Entry⦄, I r → Lasts (enter m entry) r s → I s
  turn : ∀ ⦃r s : Run⦄, I r → Lasts (turn m) r s → I s
  events : ∀ ⦃r : Run⦄ (events : List Event), I r → I { r with events }

/-- A turn goes forward or takes back, unless the run is done. -/
lemma lasts_turn {m : Machine} {r s : Run} (h : Lasts (turn m) r s) :
    (Lasts (goForward m) r s ∧ r.point = .start) ∨
      (∃ goal, r.point = .reverse goal ∧ Lasts (unwind m goal r.log.records) r s) ∨ s = r := by
  rw [Lasts, turn, get_bind] at h
  cases hpoint : r.point with
  | start =>
    simp only [hpoint] at h
    exact .inl ⟨h, rfl⟩
  | reverse goal =>
    simp only [hpoint] at h
    exact .inr (.inl ⟨goal, rfl, h⟩)
  | done =>
    simp only [hpoint] at h
    rcases h with ⟨a, hrun⟩ | ⟨e, -, hrun⟩ <;> cases hrun
    exact .inr (.inr rfl)
  | _ =>
    simp only [hpoint] at h
    rcases h with ⟨a, hrun⟩ | ⟨e, he, hrun⟩ <;> cases hrun
    cases he

namespace Steady

variable {m : Machine} {I : Run → Prop} {r s : Run} {turns : Nat} {entry : Entry}

lemma takeTurns (h : Steady m I) (hr : I r) (hlasts : Lasts (takeTurns m turns) r s) : I s := by
  induction turns generalizing r with
  | zero => rcases hlasts with ⟨status, hrun⟩ | ⟨e, -, hrun⟩ <;> cases hrun
  | succ turns ih =>
    rcases lasts_bind hlasts with ⟨e, he, hturn⟩ | ⟨a, t, hturn, hrest⟩
    · exact h.turn hr (.inr ⟨e, he, hturn⟩)
    · have ht := h.turn hr (lasts_ok hturn)
      cases a with
      | some status =>
        rcases hrest with ⟨status', hrun⟩ | ⟨e, -, hrun⟩ <;> cases hrun
        exact ht
      | none => exact ih ht hrest

lemma resume (h : Steady m I) (hr : I r) (hlasts : Lasts (resume m turns entry) r s) : I s := by
  rcases lasts_bind hlasts with ⟨e, he, henter⟩ | ⟨a, t, henter, hrest⟩
  · exact h.enter hr (.inr ⟨e, he, henter⟩)
  · have ht := h.enter hr (lasts_ok henter)
    cases a with
    | some status =>
      rcases hrest with ⟨status', hrun⟩ | ⟨e, -, hrun⟩ <;> cases hrun
      exact ht
    | none => exact h.takeTurns ht hrest

lemma turnsTaken (h : Steady m I) (hr : I r) (hs : s ∈ turnsTaken m turns r) : I s := by
  induction turns generalizing r with
  | zero => cases hs
  | succ turns ih =>
    rw [Run.turnsTaken] at hs
    cases hturn : Run.turn m r with
    | ok a t =>
      have ht := h.turn hr (lasts_ok hturn)
      rw [hturn] at hs
      cases a with
      | some status =>
        obtain rfl := List.mem_singleton.1 hs
        exact ht
      | none =>
        rcases List.mem_cons.1 hs with rfl | hs
        · exact ht
        · exact ih ht hs
    | error e t =>
      rw [hturn] at hs
      cases hs

/-- An invariant holds of the runs that a parse passes through. -/
lemma passed (h : Steady m I) (hr : I r) (hs : s ∈ passed m turns entry r) : I s := by
  rw [Run.passed] at hs
  cases henter : Run.enter m entry r with
  | ok a t =>
    have ht := h.enter hr (lasts_ok henter)
    rw [henter] at hs
    cases a with
    | some status =>
      obtain rfl := List.mem_singleton.1 hs
      exact ht
    | none =>
      rcases List.mem_cons.1 hs with rfl | hs
      · exact ht
      · exact h.turnsTaken ht hs
  | error e t =>
    rw [henter] at hs
    cases hs

/-- An invariant is kept by a parse that does not end the run. -/
lemma parse (h : Steady m I) (hr : I r) (hlasts : Ends (parse m turns entry) r s)
    (halive : s.aborted = false) : I s := by
  obtain ⟨-, t, events, hresume, rfl⟩ := lasts_of_unlessAborted hlasts halive
  exact h.events events (h.resume hr hresume)

/-- An invariant that does not depend on where the run waits is kept by going back. -/
lemma undoTo {target : Nat} (h : Steady m I) (hr : I { r with point := .reverse (.step target) })
    (hlasts : Ends (undoTo m target) r s) (halive : s.aborted = false) : I s := by
  obtain ⟨-, t, events, hback, rfl⟩ := lasts_of_unlessAborted hlasts halive
  obtain ⟨-, -, hturns⟩ := lasts_goBack hback
  exact h.events events (h.takeTurns hr hturns)

end Steady

end Rewind.Run
