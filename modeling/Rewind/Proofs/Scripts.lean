import Rewind.Proofs.Calls
import Rewind.Proofs.Dealings

/-!
# Scripts

A script says what a caller does, call by call, each of them made up from the run as it then is.
Playing a script can be computed, also where a log is given up: `freeAll` recurses on the number of
nodes that are left, which nothing evaluates, and so the script plays with a bound on the nodes that
are met.  A run that a script leads to is one of those that callers can lead to.
-/

namespace Rewind

namespace Forest

variable {f g : Forest} {ids : List NodeId} {bound : Nat}

/-- Releases nodes as `freeAll` does, if it meets no more of them than the bound says. -/
def freeUpTo : Nat → Forest → List NodeId → Except Fault Forest
  | _, f, [] => .ok f
  | 0, _, _ :: _ => .error .unfinished
  | bound + 1, f, id :: pending =>
    match Pool.get? f id with
    | none => freeUpTo bound f pending
    | some node => do
      let g : Forest := Pool.vacate f id
      let children ← chain g node.child
      let ignored ← chain g node.ignored
      freeUpTo bound g (ignored.reverse ++ (children.reverse ++ pending))

lemma freeAll_of_freeUpTo (h : f.freeUpTo bound ids = .ok g) : f.freeAll ids = .ok g := by
  induction bound generalizing f ids with
  | zero =>
    cases ids with
    | nil => rw [← h, freeUpTo, freeAll]
    | cons id pending => cases h
  | succ bound ih =>
    cases ids with
    | nil => rw [← h, freeUpTo, freeAll]
    | cons id pending =>
      rw [freeUpTo] at h
      rw [freeAll]
      split at h
      · rename_i hdead
        split
        · exact ih h
        · rename_i hlive
          cases hdead.symm.trans hlive
      · rename_i node hnode
        split
        · rename_i hdead
          cases hdead.symm.trans hnode
        · rename_i node' hnode'
          obtain rfl := Option.some.inj (hnode.symm.trans hnode')
          obtain ⟨children, hchildren, h⟩ := Except.bind_eq_ok.1 h
          obtain ⟨ignored, hignored, h⟩ := Except.bind_eq_ok.1 h
          exact Except.bind_eq_ok.2 ⟨_, hchildren, Except.bind_eq_ok.2 ⟨_, hignored, ih h⟩⟩

end Forest

/-- What a fold comes to, it comes to with steps that come to the same. -/
lemma foldlM_eq_ok {α β ε : Type} {step step' : β → α → Except ε β} {b c : β} {as : List α}
    (hstep : ∀ b a c, step b a = .ok c → step' b a = .ok c) (h : as.foldlM step b = .ok c) :
    as.foldlM step' b = .ok c := by
  induction as generalizing b with
  | nil => exact h
  | cons a as ih =>
    rw [List.foldlM_cons] at h ⊢
    obtain ⟨d, hfirst, hrest⟩ := Except.bind_eq_ok.1 h
    exact Except.bind_eq_ok.2 ⟨d, hstep _ _ _ hfirst, ih hrest⟩

namespace Run

open Attempt Op

variable {m : Machine} {bound : Nat} {r s : Run} {call : Call} {script : List (Run → Call)}
  {start : Run} {log : Dialogue}

/-! ## Calls that are computed -/

/-- Releases the nodes of a chain and everything below them, within the bound. -/
def releaseUpTo (bound : Nat) (f : Forest) (head : NodeId) : Except Fault Forest := do
  (← f.chain (some head)).foldlM (fun f id => f.freeUpTo bound [id]) f

lemma releaseChain_of_releaseUpTo {f g : Forest} {head : NodeId}
    (h : releaseUpTo bound f head = .ok g) : releaseChain f head = .ok g := by
  obtain ⟨ids, hchain, hfree⟩ := Except.bind_eq_ok.1 h
  exact Except.bind_eq_ok.2 ⟨ids, hchain,
    foldlM_eq_ok (fun _ _ _ h => Forest.freeAll_of_freeUpTo h) hfree⟩

/-- The run after its log was given up, if the bound is enough. -/
def givenUp? (bound : Nat) (r : Run) : Option Run :=
  match (r.log.records.filterMap Record.dropped?).foldlM (releaseUpTo bound) r.forest with
  | .ok forest => some { r with log := Journal.empty, forest, barrier := 0, retries := 0 }
  | .error _ => none

lemma giveUpLog_of_givenUp? (h : givenUp? bound r = some s) : giveUpLog r = .ok () s := by
  unfold givenUp? at h
  split at h
  · rename_i forest hfree
    cases h
    rw [giveUpLog, get_bind,
      foldlM_eq_ok (fun _ _ _ h => releaseChain_of_releaseUpTo h) hfree]
    rfl
  · cases h

/-- Where an attempt ends, unless it meets a fault. -/
def end? {ε σ α : Type} (x : Attempt ε σ α) (s : σ) : Option σ :=
  match x s with
  | .ok _ t => some t
  | .error (.error _) t => some t
  | .error (.fault _) _ => none

lemma ends_of_end? {ε σ α : Type} {x : Attempt ε σ α} {s t : σ} (h : end? x s = some t) :
    Ends x s t := by
  unfold end? at h
  split at h
  · rename_i hx
    cases h
    exact .inl ⟨_, hx⟩
  · rename_i hx
    cases h
    exact .inr ⟨_, hx⟩
  · cases h

/-- The run after a call.  No log is given up while something is taken back. -/
def Call.made? (m : Machine) (r : Run) : Call → Option Run
  | attach stream => end? (Run.attach stream) r
  | parse turns entry => end? (Run.parse m turns entry) r
  | undoTo target => end? (Run.undoTo m target) r
  | pushText text => end? (Run.pushText text) r
  | pushTree tree ignore => end? (Run.pushTree tree ignore) r
  | queueToken element text name => end? (Run.queueToken element text name) r
  | bind name id => end? (Run.bind name id) r
  | leaveData data => end? (Run.leaveData data) r
  | dropAside => end? Run.dropAside r
  | reject => end? Run.reject r
  | stop => some r.stop
  | pauseAt target => some (r.pauseAt target)
  | takeEvents => some r.takeEvents.2
  | giveUpLog => if r.point.entry = .reverse then none else givenUp? r.forest.slots.size r

/-- A copy of a node is pushed, to be set aside. -/
def Call.copyAside (id : NodeId) (r : Run) : Call :=
  .pushTree ((Pool.get? r.forest id).getD (.fabricated 0 [])) true

lemma Call.leads_of_made? (h : call.made? m r = some s) : call.Leads m r s := by
  cases call with
  | giveUpLog =>
    change (if r.point.entry = .reverse then none else _) = some s at h
    split at h
    · cases h
    · exact .inl ⟨(), giveUpLog_of_givenUp? h⟩
  | stop => exact (Option.some.inj h).symm
  | pauseAt target => exact (Option.some.inj h).symm
  | takeEvents => exact (Option.some.inj h).symm
  | _ => exact ends_of_end? h

lemma Call.not_reversing_of_made? (h : Call.made? m r .giveUpLog = some s) (goal : Goal) :
    r.point ≠ .reverse goal := by
  intro hpoint
  simp [made?, hpoint, Point.entry] at h

/-! ## Playing -/

/-- The run after the calls of a script, unless one of them cannot be made or ends the run. -/
def play (m : Machine) : List (Run → Call) → Run → Option Run
  | [], r => some r
  | next :: script, r =>
    match (next r).made? m r with
    | some s => if s.aborted then none else play m script s
    | none => none

/-- What each call keeps, a script keeps. -/
lemma keeps_play {I : Run → Prop} (hcall : ∀ ⦃call : Call⦄ ⦃r s⦄, I r → call.made? m r = some s →
    s.aborted = false → I s) (hr : I r) (h : play m script r = some s) : I s := by
  induction script generalizing r with
  | nil =>
    cases h
    exact hr
  | cons next script ih =>
    rw [play] at h
    split at h
    · rename_i t hmade
      split at h
      · cases h
      · rename_i halive
        exact ih (hcall hr hmade (by simpa using halive)) h
    · cases h

/-! ## Requests -/

/-- What a call asks for, and with how many turns, unless it sets something. -/
def Call.asks? : Call → Option (Nat × Request)
  | attach stream => some (0, .attach stream)
  | parse turns entry => some (turns, .parse entry)
  | undoTo target => some (0, .undoTo target)
  | pushText text => some (0, .pushText text)
  | pushTree tree ignore => some (0, .pushTree tree ignore)
  | queueToken element text name => some (0, .queueToken element text name)
  | bind name id => some (0, .bind name id)
  | leaveData data => some (0, .leaveData data)
  | dropAside => some (0, .dropAside)
  | reject => some (0, .reject)
  | giveUpLog => some (0, .giveUpLog)
  | stop | pauseAt _ | takeEvents => none

/-- Whatever ends is replied to. -/
lemma exists_replied {α : Type} {op : Op α} (g : α → Reply) (h : Ends op r s) :
    ∃ answer, Replied ((do return g (← op)) r) answer s := by
  rcases h with ⟨a, h⟩ | ⟨e, h⟩
  · refine ⟨.ok (g a), ?_⟩
    rw [bind_ok h]
    exact .ok _ _
  · refine ⟨.error e, ?_⟩
    rw [bind_error h]
    exact .error _ _

lemma ends_rejectNow (h : Ends reject r s) : Ends rejectNow r s := by
  unfold rejectNow
  rcases h with ⟨u, h⟩ | ⟨e, h⟩
  · exact .inl ⟨u, by simp only [h]⟩
  · exact .inr ⟨.misuse e, by simp only [h]⟩

/-- A call is asked for, or sets something. -/
lemma Call.asked_of_leads (hcall : call.Leads m r s) :
    (∃ turns request answer, call.asks? = some (turns, request) ∧
      Replied (perform m turns request r) answer s) ∨ Sets r s := by
  have hasked {turns : Nat} {request : Request} (hasks : call.asks? = some (turns, request))
      (hreplied : ∃ answer, Replied (perform m turns request r) answer s) :
      (∃ turns request answer, call.asks? = some (turns, request) ∧
        Replied (perform m turns request r) answer s) ∨ Sets r s :=
    .inl ⟨turns, request, hreplied.choose, hasks, hreplied.choose_spec⟩
  cases call with
  | reject => exact hasked rfl (exists_replied _ (ends_rejectNow hcall))
  | stop =>
    cases hcall
    exact .inr .stop
  | pauseAt target =>
    cases hcall
    exact .inr (.pauseAt target)
  | takeEvents =>
    cases hcall
    exact .inr .takeEvents
  | _ => exact hasked rfl (exists_replied _ hcall)

/-- No call edits a node, or takes the stream away. -/
lemma Call.ne_of_asks? {turns : Nat} {request : Request}
    (hasks : call.asks? = some (turns, request)) :
    request ≠ .detach ∧ ∀ edit, request ≠ .editNodes edit := by
  cases call <;> cases hasks <;> exact ⟨nofun, nofun⟩

/-- A call that asks to give up the log does so. -/
lemma Call.eq_giveUpLog {turns : Nat} (hasks : call.asks? = some (turns, .giveUpLog)) :
    call = .giveUpLog := by
  cases call <;> cases hasks
  rfl

/-- No node was edited. -/
def NoEdits (log : Dialogue) : Prop :=
  ∀ entry ∈ log, ∀ edit, entry.1 ≠ .editNodes edit

/-- What a script leads to, dealings lead to in which no node is edited. -/
lemma Dealings.play (hplay : play m script start = some r) :
    ∃ log, Dealings m start log r ∧ NoEdits log := by
  refine keeps_play (I := fun q => ∃ log, Dealings m start log q ∧ NoEdits log)
    (fun call q s hq hmade _ => ?_) ⟨[], .start, List.forall_mem_nil _⟩ hplay
  obtain ⟨log, hdealings, hedit⟩ := hq
  rcases Call.asked_of_leads (Call.leads_of_made? hmade) with
    ⟨turns, request, answer, hasks, hreplied⟩ | hsets
  · refine ⟨_, hdealings.asked hreplied, fun entry hentry => ?_⟩
    rcases List.mem_cons.1 hentry with rfl | hentry
    · exact (Call.ne_of_asks? hasks).2
    · exact hedit entry hentry
  · exact ⟨log, hdealings.set hsets, hedit⟩

end Run

end Rewind
