import Rewind.Proofs.Books
import Rewind.Proofs.Frame
import Rewind.Proofs.Laws
import Rewind.Proofs.Turns
import Rewind.Proofs.Written

/-!
# What a move adds to the log

A move forward may take a decision, and then that is the first thing it writes down; it may complete
a step, and then that is the last.  All that it writes in between is bland.  This holds of every
run, whether or not it has a stream and whatever nodes there are.
-/

namespace Rewind.Run

open Attempt Op

/-- Whether a record tells neither of a decision that could have been another, nor of an action, nor
of the end of a step. -/
def Record.isBland : Record → Bool
  | .shifted _ _ _ _ more | .reduced _ _ _ more => !more
  | .action _ | .stepEnded => false
  | _ => true

/-- A move from the first run to the second one adds to the log: a decision, if any, then what is
bland, then the end of a step, if any. -/
def Lengthens (r s : Run) : Prop :=
  ∃ decided middle ended, s.log.records = ended ++ (middle ++ (decided ++ r.log.records)) ∧
    (decided = [] ∨ ∃ record, decided = [record] ∧ record.isDecision = true) ∧
    (∀ record ∈ middle, record.isBland = true) ∧
    (ended = [] ∧ s.steps = r.steps ∨ ended = [.stepEnded] ∧ s.steps = r.steps + 1)

variable {m : Machine} {r s t : Run} {a : Option Status}

/-- A move that neither decides nor completes a step. -/
structure Idles (r s : Run) : Prop where
  written : Written Record.isBland r.log.records s
  steps : s.steps = r.steps

lemma Idles.of_same (hlog : s.log = r.log) (hsteps : s.steps = r.steps) : Idles r s :=
  ⟨⟨[], by rw [hlog]; rfl, nofun⟩, hsteps⟩

lemma Idles.lengthens (h : Idles r s) : Lengthens r s := by
  obtain ⟨⟨newer, hlog, hnewer⟩, hsteps⟩ := h
  exact ⟨[], newer, [], hlog, .inl rfl, hnewer, .inl ⟨rfl, hsteps⟩⟩

lemma Lengthens.of_same (hlog : s.log = r.log) (hsteps : s.steps = r.steps) : Lengthens r s :=
  (Idles.of_same hlog hsteps).lengthens

/-! ## Acquiring -/

/-- The law to write down nothing but what is bland. -/
def Law.bland : Law where
  ok r s := Written Record.isBland r.log.records s
  error _ _ _ := True
  fault _ _ _ := True

instance composes_bland : Law.bland.Composes where
  refl := .refl
  ok _ _ _ := .trans
  error _ _ _ _ _ _ := trivial
  fault _ _ _ _ _ _ := trivial

lemma bland_advances (m : Machine) : Law.bland.Advances m := by
  have hsame {r s : Run} (hlog : s.log = r.log) : Law.bland.ok r s :=
    ⟨[], by rw [hlog]; rfl, nofun⟩
  have hscanner {α : Type} (x : Attempt Scanner.Error Scanner α) :
      Law.bland.Governs (onScanner x) :=
    .onScanner (fun _ _ => hsame rfl) (fun _ _ _ => trivial) (fun _ _ _ => trivial) x
  exact {
    forest := fun _ _ => hsame rfl
    links := fun _ _ _ => trivial
    queue := fun _ _ => hsame rfl
    mismatch := fun _ _ _ => trivial
    state := fun _ _ => hsame rfl
    stack := fun _ _ => hsame rfl
    aside := fun _ _ => hsame rfl
    bindings := fun _ _ => hsame rfl
    endActionRan := fun _ _ => hsame rfl
    full := fun _ _ => trivial
    tells := ⟨fun _ _ => hsame rfl⟩
    streams := ⟨fun _ _ => hscanner _⟩
    point := fun _ _ _ => hsame rfl
    scan := fun _ => hscanner _ }

lemma idles_acquire {found : Acquired} (h : acquire m r = .ok found s) : Idles r s := by
  have hbland : Obeys Law.bland (acquire m) r := (bland_advances m).acquire
    ⟨fun record hkind r => .of_append (by cases record <;> first | rfl | cases hkind) rfl⟩
    fun _ _ => trivial
  refine ⟨hbland.ok h, ?_⟩
  exact Keeps.part_eq (fun p => (@Inert.of_part _ Run.steps
    (fun _ _ _ _ _ _ _ _ _ _ _ _ _ => rfl) p).acquire fun _ _ h => h) h

/-! ## Deciding -/

/-- The decision is the first thing written down, and what follows is bland. -/
lemma act_lengthens {id : NodeId} {decision : Grammar.Decision} {target : StateId}
    {commits : Bool} (h : act m id decision target commits r = .ok a s) :
    ∃ record middle, s.log.records = middle ++ record :: r.log.records ∧
      record.isDecision = true ∧ (∀ record ∈ middle, record.isBland = true) ∧
      s.steps = r.steps := by
  unfold act at h
  cases haction : decision.action with
  | shift =>
    simp only [haction] at h
    obtain ⟨u, t, hshift, h1⟩ := bind_eq_ok.1 h
    cases h1
    obtain ⟨rest, n, -, -, rfl⟩ := shift_ok hshift
    exact ⟨_, [], rfl, rfl, nofun, rfl⟩
  | reduce production =>
    simp only [haction] at h
    obtain ⟨info, children, below, span, tree, made, linked, state, -, -, -, -, -, -, -, rfl⟩ :=
      reduce_ok h
    exact ⟨_, [], rfl, rfl, nofun, rfl⟩
  | shiftReduce production =>
    simp only [haction] at h
    obtain ⟨u, t, hshift, hreduce⟩ := bind_eq_ok.1 h
    obtain ⟨rest, n, -, -, rfl⟩ := shift_ok hshift
    obtain ⟨info, children, below, span, tree, made, linked, state, -, -, -, -, -, -, -, rfl⟩ :=
      reduce_ok hreduce
    refine ⟨_, [_], rfl, rfl, fun record hrecord => ?_, rfl⟩
    rw [List.mem_singleton.1 hrecord]
    rfl

lemma completeStep_lengthens {commits : Bool} (h : completeStep m commits r = .ok a s) :
    ∃ middle, s.log.records = .stepEnded :: (middle ++ r.log.records) ∧
      (∀ record ∈ middle, record.isBland = true) ∧ s.steps = r.steps + 1 := by
  obtain ⟨hlog, hsteps⟩ :
      s.log = (stepped commits r).log ∧ s.steps = (stepped commits r).steps := by
    obtain ⟨reached, -, ⟨-, -, rfl⟩ | ⟨-, -, -, rfl⟩ | ⟨-, -, -, rfl⟩⟩ := completeStep_ok h <;>
      exact ⟨rfl, rfl⟩
  rw [hlog, hsteps]
  cases commits with
  | false => exact ⟨[], rfl, nofun, rfl⟩
  | true =>
    refine ⟨[.committed r.barrier r.retries], rfl, fun record hrecord => ?_, rfl⟩
    rw [List.mem_singleton.1 hrecord]
    rfl

lemma lengthens_completeStep {commits : Bool} (h : completeStep m commits r = .ok a s) :
    Lengthens r s := by
  obtain ⟨middle, hlog, hmiddle, hsteps⟩ := completeStep_lengthens h
  exact ⟨[], middle, [.stepEnded], hlog, .inl rfl, hmiddle, .inr ⟨rfl, hsteps⟩⟩

lemma lengthens_step {id : NodeId} (h : step m id r = .ok a s) : Lengthens r s := by
  cases step_ok h with
  | refused _ _ _ => exact .of_same rfl rfl
  | suspended _ _ _ _ hact =>
    obtain ⟨record, middle, hlog, hrecord, hmiddle, hsteps⟩ := act_lengthens hact
    exact ⟨[record], middle, [], hlog, .inr ⟨record, rfl, hrecord⟩, hmiddle, .inl ⟨rfl, hsteps⟩⟩
  | completed _ _ _ _ hact hcomplete =>
    obtain ⟨record, middle, hlog, hrecord, hmiddle, hsteps⟩ := act_lengthens hact
    obtain ⟨middle', hlog', hmiddle', hsteps'⟩ := completeStep_lengthens hcomplete
    refine ⟨[record], middle' ++ middle, [.stepEnded], ?_, .inr ⟨record, rfl, hrecord⟩, ?_,
      .inr ⟨rfl, ?_⟩⟩
    · rw [hlog', hlog]
      simp [decided]
    · intro x hx
      rcases List.mem_append.1 hx with hx | hx
      · exact hmiddle' x hx
      · exact hmiddle x hx
    · rw [hsteps', hsteps]
      rfl

lemma lengthens_goForward (h : goForward m r = .ok a s) : Lengthens r s := by
  rw [goForward, get_bind] at h
  cases hqueue : r.queue with
  | cons id rest =>
    simp only [hqueue] at h
    exact lengthens_step h
  | nil =>
    simp only [hqueue] at h
    obtain ⟨found, t, hacquire, h1⟩ := bind_eq_ok.1 h
    have ht := idles_acquire hacquire
    cases found with
    | noToken region =>
      simp only [get_bind] at h1
      obtain ⟨u, t', hturn, h2⟩ := bind_eq_ok.1 h1
      cases h2
      obtain ⟨-, rfl⟩ := turnBack_ok hturn
      exact (show Idles r (turned _ t) from ⟨ht.written, ht.steps⟩).lengthens
    | _ =>
      cases h1
      exact ht.lengthens

lemma lengthens_enter {entry : Entry} (h : enter m entry r = .ok a s) : Lengthens r s := by
  cases enter_ok h with
  | reduction _ _ hresume =>
    rcases resumeReduction_ok hresume with ⟨-, -, -, span, rfl⟩ | ⟨-, hcomplete⟩
    · exact .of_same rfl rfl
    · have hs := lengthens_completeStep hcomplete
      exact hs
  | _ => exact .of_same rfl rfl

/-! ## Errors in the input -/

lemma idles_goForward_error {e : Error} (he : e.isFatal = false)
    (h : goForward m r = .error (.error e) s) :
    Idles r s := by
  rw [goForward, get_bind] at h
  cases hqueue : r.queue with
  | cons id rest =>
    simp only [hqueue] at h
    obtain ⟨n, -, -, -, -, rfl⟩ := step_error he h
    exact .of_same rfl rfl
  | nil =>
    simp only [hqueue] at h
    rcases bind_eq_error.1 h with hacquire | ⟨found, t, hacquire, h1⟩
    · rw [grave_acquire m hacquire] at he
      cases he
    · have ht := idles_acquire hacquire
      cases found with
      | noToken region =>
        simp only [get_bind] at h1
        rcases bind_eq_error.1 h1 with hturn | ⟨u, t', -, h2⟩
        · obtain ⟨-, -, rfl⟩ := turnBack_error hturn
          exact ⟨ht.written, ht.steps⟩
        · cases h2
      | _ => cases h1

lemma idles_enter_error {entry : Entry} {e : Error} (he : e.isFatal = false)
    (h : enter m entry r = .error (.error e) s) : Idles r s := by
  rcases enter_error he h with ⟨-, -, rfl⟩ | ⟨production, commits, -, -, hresume⟩
  · exact .of_same rfl rfl
  · obtain ⟨-, -, span, -, rfl, -⟩ := resumeReduction_error he hresume
    exact .of_same rfl rfl

end Rewind.Run
