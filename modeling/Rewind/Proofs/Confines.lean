import Rewind.Proofs.Bounds
import Rewind.Proofs.Dealings

/-!
# Runs within their tables

Each turn of a run looks things up for the state that it begins in, and for no other: the regions of
that state, or what is decided there.  So a parse that only passes through states that exist never
looks anything up beyond a table, whatever its nodes are and however they are linked.  What is
looked up among nodes can meet a fault too, but never that one.
-/

namespace Rewind

namespace Run

open Op

variable {m : Machine} {r s : Run} {turns : Nat} {cut : Prop}

/-! ## The law -/

/-- The law to look nothing up beyond a table: whatever is missing is a node that a link names, or
time, where a computation can be cut short. -/
def Law.confined (cut : Prop) : Law where
  ok _ _ := True
  error _ _ _ := True
  fault _ f _ := f.ofLinks = true ∨ cut ∧ f = .unfinished

instance composes_confined (cut : Prop) : (Law.confined cut).Composes where
  refl _ := trivial
  ok _ _ _ _ _ := trivial
  error _ _ _ _ _ _ := trivial
  fault _ _ _ _ _ h := h

lemma confined_onScanner {α : Type} {x : Attempt Scanner.Error Scanner α}
    (hx : ∀ scanner f left, x scanner ≠ .error (.fault f) left) :
    (Law.confined cut).Governs (onScanner x) := by
  refine fun r => ⟨fun _ _ _ => trivial, fun _ _ _ => trivial, fun f s hrun => ?_⟩
  unfold onScanner at hrun
  split at hrun
  · cases hrun
  · cases hrun
  · rename_i hfault
    exact absurd hfault (hx _ _ _)

lemma confined_streams : (Law.confined cut).Streams :=
  ⟨fun f _ => confined_onScanner fun scanner _ _ hrun => by
    unfold Scanner.onStream at hrun
    split at hrun <;> cases hrun⟩

lemma confined_handles : (Law.confined cut).Handles where
  forest _ _ := trivial
  links _ _ h := .inl h
  queue _ _ := trivial
  mismatch _ _ _ := trivial
  state _ _ := trivial
  stack _ _ := trivial
  aside _ _ := trivial
  bindings _ _ := trivial
  full _ _ := trivial
  tells := ⟨fun _ _ => trivial⟩

lemma confined_obliges : (Law.confined cut).Obliges where
  toHandles := confined_handles
  streams := confined_streams
  writes := ⟨fun _ _ _ => trivial⟩

/-- Whatever a scan looks up is there. -/
lemma confined_turns (hscanner : m.scanner.Fits) : (Law.confined cut).Turns m where
  toHandles := confined_handles
  streams := confined_streams
  endActionRan _ _ := trivial
  point _ _ _ := trivial
  scan region := confined_onScanner fun scanner f left hrun => by
    rcases Scanner.run_excused hscanner hrun with h | h | h <;> cases h
  counts _ _ _ := trivial
  steps _ _ := trivial
  retry _ _ := trivial
  rejecting _ _ := trivial
  stopping _ _ := trivial
  inputs := ⟨fun _ _ _ => trivial⟩
  decisions := ⟨fun _ _ _ => trivial⟩
  boundaries := ⟨fun _ _ _ => trivial⟩
  underflow _ _ _ _ := trivial
  backtracks _ := trivial
  halts _ _ _ := trivial
  badEntry _ _ _ := trivial
  refused _ := trivial
  log _ _ := trivial
  settled _ _ := trivial
  exhausted _ _ _ := trivial

lemma confined_finds {decision : Grammar.Decision} (h : m.grammar.DecisionFits decision) :
    (Law.confined cut).Finds m decision where
  commits := by
    obtain ⟨commits, hcommits⟩ := h.commits
    exact .of_ok (entry_eq_ok_iff.2 hcommits)
  target := by
    obtain ⟨target, htarget, -⟩ := h.target
    exact .of_ok (entry_eq_ok_iff.2 htarget)
  production production haction := by
    obtain ⟨info, hinfo⟩ := h.production production haction
    exact .of_ok (entry_eq_ok_iff.2 hinfo)

/-- Whatever is looked up for a state that exists is there. -/
lemma confined_serves (hgrammar : m.grammar.Fits) {state : StateId}
    (hstate : state < m.grammar.states) : (Law.confined cut).Serves m state where
  regions := by
    obtain ⟨start, count, -, -, hregions, -⟩ := hgrammar.regionsOf hstate
    exact .of_ok hregions
  decides element alternative := by
    obtain ⟨found, hdecide, -⟩ := hgrammar.decide hstate element alternative
    exact .of_ok hdecide
  finds element alternative decision hdecides := by
    obtain ⟨found, hdecide, hfits⟩ := hgrammar.decide hstate element alternative
    exact confined_finds (hfits decision (Except.ok.inj (hdecide.symm.trans hdecides))).1

lemma confined_unfinished {α : Type} :
    (Law.confined True).Governs (lookup (.error .unfinished) : Op α) :=
  .lookup fun _ => .error (.inr ⟨trivial, rfl⟩)

/-! ## Parses -/

section Parses

variable (hgrammar : m.grammar.Fits) (hscanner : m.scanner.Fits)

include hgrammar hscanner

/-- Turns that only pass through states that exist. -/
theorem takeTurns_confined (hstate : r.state < m.grammar.states)
    (hpassed : ∀ q ∈ turnsTaken m turns r, q.state < m.grammar.states) :
    Obeys (Law.confined True) (takeTurns m turns) r := by
  induction turns generalizing r with
  | zero => exact confined_unfinished r
  | succ turns ih =>
    refine ((confined_turns hscanner).turn fun _ => confined_serves hgrammar hstate).bind
      fun a s hturn => ?_
    cases a with
    | some status => exact Law.Governs.pure _ s
    | none =>
      rw [turnsTaken, hturn] at hpassed
      exact ih (hpassed s List.mem_cons_self) fun q hq => hpassed q (List.mem_cons_of_mem _ hq)

/-- A parse that only passes through states that exist. -/
theorem resume_confined {entry : Entry}
    (hpassed : ∀ q ∈ passed m turns entry r, q.state < m.grammar.states) :
    Obeys (Law.confined True) (resume m turns entry) r := by
  refine ((confined_turns hscanner).enter entry r).bind fun a s henter => ?_
  cases a with
  | some status => exact Law.Governs.pure _ s
  | none =>
    rw [passed, henter] at hpassed
    exact takeTurns_confined hgrammar hscanner (hpassed s List.mem_cons_self) fun q hq =>
      hpassed q (List.mem_cons_of_mem _ hq)

/-! ## Requests -/

/-- No request looks anything up beyond a table, if those parses only pass through states that
exist which are not refused. -/
theorem perform_confined
    (hpassed : r.aborted = false → ∀ entry, ∀ q ∈ passed m turns entry r,
      q.state < m.grammar.states) (request : Request) :
    Obeys (Law.confined True) (perform m turns request) r :=
  confined_obliges.perform (fun _ => trivial) (fun _ => trivial) (fun _ _ _ _ => trivial)
    (fun _ => trivial)
    (fun _ _ => confined_onScanner (fun _ _ _ hrun => by
      unfold Scanner.attach at hrun
      split at hrun <;> cases hrun) r)
    (fun _ => confined_onScanner (fun _ _ _ hrun => by
      unfold Scanner.detach at hrun
      split at hrun <;> cases hrun) r)
    (fun entry _ => .unlessAborted
      (fun halive => resume_confined hgrammar hscanner (hpassed halive entry)) trivial
      (fun _ _ _ => trivial) fun _ _ _ _ _ => trivial)
    fun target _ => .unlessAborted
      (fun _ => (confined_turns hscanner).goBack (fun _ => .inr ⟨trivial, rfl⟩)
        (fun _ _ _ => trivial) target r)
      trivial
      (fun _ _ _ => trivial) fun _ _ _ _ _ => trivial

end Parses

end Run

end Rewind
