import Rewind.Proofs.Balance
import Rewind.Proofs.Scene
import Rewind.Proofs.Turns

/-!
# What a parse writes

Going forward and entering a run write records of the parse only: none that tells of something a
caller did.  Whatever does not decide writes no decision either.
-/

namespace Rewind.Run

open Attempt Op

/-- All records written since are as `p` says. -/
def Written (p : Record → Bool) (before : List Record) (r : Run) : Prop :=
  ∃ newer, r.log.records = newer ++ before ∧ ∀ record ∈ newer, p record = true

/-- Whether a parse writes such a record beside its decisions. -/
def Record.isRoutine (record : Record) : Bool :=
  record.isOwn && !record.decides

variable {m : Machine} {strict : Prop} {p q : Record → Bool} {before : List Record} {r s t : Run}
  {a : Option Status}

namespace Written

lemma refl (r : Run) : Written p r.log.records r :=
  ⟨[], rfl, by simp⟩

lemma trans (h : Written p before r) (h' : Written p r.log.records s) : Written p before s := by
  obtain ⟨newer, hbefore, hnewer⟩ := h
  obtain ⟨later, hlog, hlater⟩ := h'
  refine ⟨later ++ newer, by rw [hlog, hbefore, List.append_assoc], fun record hrecord => ?_⟩
  exact (List.mem_append.1 hrecord).elim (hlater record) (hnewer record)

lemma mono (h : Written p before r) (hpq : ∀ record, p record = true → q record = true) :
    Written q before r := by
  obtain ⟨newer, hbefore, hnewer⟩ := h
  exact ⟨newer, hbefore, fun record hrecord => hpq record (hnewer record hrecord)⟩

lemma of_append {record : Record} (hrecord : p record = true)
    (hlog : s.log = r.log.append record) : Written p r.log.records s := by
  refine ⟨[record], by rw [hlog]; rfl, fun x hx => ?_⟩
  rwa [List.mem_singleton.1 hx]

lemma write {record : Record} (h : Written p before r) (hrecord : p record = true)
    (hlog : s.log = r.log.append record) : Written p before s :=
  h.trans (.of_append hrecord hlog)

/-- Every record above what was there before is as it should be. -/
lemma of_split {newer between : List Record} {record : Record} (h : Written p before r)
    (hsplit : r.log.records = newer ++ record :: (between ++ before)) : p record = true := by
  obtain ⟨written, hlog, hwritten⟩ := h
  refine hwritten record ?_
  rw [hlog, ← List.cons_append, ← List.append_assoc] at hsplit
  rw [List.append_cancel_right hsplit]
  simp

/-- Where one record was written first, every other is as it should be. -/
lemma first_or {newer between : List Record} {first record : Record}
    (h : Written p (first :: before) r)
    (hsplit : r.log.records = newer ++ record :: (between ++ before)) :
    record = first ∧ between = [] ∨ p record = true := by
  rcases between.eq_nil_or_concat with rfl | ⟨above, last, rfl⟩
  · obtain ⟨written, hlog, -⟩ := h
    rw [hlog, List.nil_append, List.append_cons, List.append_cons newer] at hsplit
    have hlast := List.append_inj_right' (List.append_cancel_right hsplit) rfl
    exact .inl ⟨(List.cons.inj hlast).1.symm, rfl⟩
  · obtain ⟨written, hlog, hwritten⟩ := h
    refine .inr (hwritten record ?_)
    rw [hlog, List.append_cons, List.concat_eq_append, ← List.cons_append, ← List.append_assoc,
      ← List.cons_append, ← List.append_assoc] at hsplit
    rw [List.append_inj_left' (List.append_cancel_right hsplit) rfl]
    simp

/-- What is written beside decisions is of the parse. -/
lemma own (h : Written Record.isRoutine before r) : Written Record.isOwn before r :=
  h.mono fun _ hrecord => (Bool.and_eq_true_iff.1 hrecord).1

end Written

/-! ## Beside decisions -/

lemma written_marked (r : Run) : Written Record.isRoutine r.log.records (marked r) := by
  unfold marked
  split
  · exact .of_append rfl rfl
  · exact .refl r

lemma written_acquires {found : Acquired} (h : Acquires m r found s) :
    Written Record.isRoutine r.log.records s := by
  have hmarked := written_marked r
  cases h with
  | consumed _ _ _ _ _ => exact hmarked.write rfl rfl
  | skipped _ _ _ _ _ _ _ => exact hmarked.write rfl rfl
  | queued _ _ _ _ _ _ _ => exact hmarked.write rfl rfl
  | treeSkipped _ _ _ _ _ _ => exact hmarked.write rfl rfl
  | treeQueued _ _ _ _ _ _ => exact hmarked.write rfl rfl
  | preEof _ _ _ _ => exact .of_append rfl rfl
  | ended _ _ _ _ => exact .of_append rfl rfl
  | noToken _ _ => exact .refl r

lemma written_completeStep {commits : Bool} (h : completeStep m commits r = .ok a s) :
    Written Record.isRoutine r.log.records s := by
  have hclosed : Written Record.isRoutine r.log.records (closed commits r) := by
    cases commits with
    | true => exact .of_append rfl rfl
    | false => exact .refl r
  have hstepped : Written Record.isRoutine r.log.records (stepped commits r) :=
    hclosed.write rfl rfl
  obtain ⟨reached, -, ⟨-, -, rfl⟩ | ⟨-, -, -, rfl⟩ | ⟨-, -, -, rfl⟩⟩ := completeStep_ok h
  · exact hstepped
  · exact hstepped
  · exact hstepped

lemma written_acquired {found : Acquired} (hrescans : Rescans r t) (h : Acquires m t found s) :
    Written Record.isRoutine r.log.records s := by
  have hs := written_acquires h
  obtain ⟨stream, rest, scanner, -, -, -, rfl⟩ := hrescans
  exact hs

lemma written_enters (h : Enters m r a s) : Written Record.isRoutine r.log.records s := by
  cases h with
  | done _ => exact .refl r
  | back _ => exact .refl r
  | start _ _ => exact .refl r
  | action _ _ => exact .refl r
  | reduction _ _ hresume =>
    rcases resumeReduction_ok hresume with ⟨-, -, -, span, rfl⟩ | ⟨-, hcomplete⟩
    · exact .refl r
    · have hs := written_completeStep hcomplete
      exact hs

/-! ## Decisions -/

lemma written_reduce {production : ProductionId} {alternative : Nat} {more commits : Bool}
    (h : reduce m production alternative more commits r = .ok a s) :
    Written Record.isOwn r.log.records s := by
  obtain ⟨info, children, below, span, tree, made, linked, state, -, -, -, -, -, -, -, rfl⟩ :=
    reduce_ok h
  exact .of_append rfl rfl

lemma written_shift {id : NodeId} {target : StateId} {alternative : Nat} {more : Bool} {u : Unit}
    (h : shift m id target alternative more r = .ok u s) :
    Written Record.isOwn r.log.records s := by
  obtain ⟨rest, n, -, -, rfl⟩ := shift_ok h
  exact .of_append rfl rfl

lemma written_act {id : NodeId} {decision : Grammar.Decision} {target : StateId} {commits : Bool}
    (h : act m id decision target commits r = .ok a s) : Written Record.isOwn r.log.records s := by
  unfold act at h
  cases haction : decision.action with
  | shift =>
    rw [haction] at h
    obtain ⟨u, t, hshift, hrest⟩ := bind_eq_ok.1 h
    obtain ⟨-, rfl⟩ := EStateM.Result.ok.inj hrest
    exact written_shift hshift
  | reduce production =>
    rw [haction] at h
    exact written_reduce h
  | shiftReduce production =>
    rw [haction] at h
    obtain ⟨u, t, hshift, hreduce⟩ := bind_eq_ok.1 h
    exact (written_shift hshift).trans (written_reduce hreduce)

lemma written_forwards (h : Forwards m r a s) : Written Record.isOwn r.log.records s := by
  cases h with
  | stepped _ hsteps =>
    cases hsteps with
    | refused _ _ _ => exact .refl r
    | suspended _ _ _ _ hact => exact written_act (r := decided _ _ r) hact
    | completed _ _ _ _ hact hcomplete =>
      exact (written_act (r := decided _ _ r) hact).trans (written_completeStep hcomplete).own
  | acquired _ hrescans hacquires =>
    exact hacquires.elim (fun h => (written_acquired hrescans h).own)
      fun h => (written_acquired hrescans h).own
  | suspended _ hrescans hacquires => exact (written_acquired hrescans hacquires).own
  | refused _ hrescans hacquires _ => exact (written_acquired hrescans hacquires).own

/-! ## Errors in the input -/

lemma written_goForward_error {e : Error} (ht : Tidy strict r) (he : e.isFatal = false)
    (h : goForward m r = .error (.error e) s) : Written Record.isRoutine r.log.records s := by
  obtain ⟨t, -, rfl, ⟨id, rest, n, -, -, -, -, rfl⟩ | ⟨region, -, hrescans, hacquires, -⟩⟩ :=
    goForward_error ht.pool ht.attached he h
  · exact .refl t
  · have hs := written_acquired hrescans hacquires
    exact hs

lemma written_enter_error {entry : Entry} {e : Error} (he : e.isFatal = false)
    (h : enter m entry r = .error (.error e) s) : Written Record.isRoutine r.log.records s := by
  rcases enter_error he h with ⟨-, -, rfl⟩ | ⟨production, commits, -, -, hresume⟩
  · exact .refl s
  · obtain ⟨-, -, span, -, rfl, -⟩ := resumeReduction_error he hresume
    exact .refl r

end Rewind.Run
