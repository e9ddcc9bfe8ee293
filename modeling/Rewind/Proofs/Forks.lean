import Rewind.Proofs.Outline
import Rewind.Proofs.Trail

/-!
# Forks of a parse

A parse that is driven by what it tells leaves choices open on its way, and each of them is a fork:
a gist to come back to, and the next alternative there.  `Traces` keeps the forks of a log together
with the views at which they were left, so that turning back comes to the latest of them.

The log may begin with what the caller put in front of the stream (`Ground`).  Nothing of that is
ever taken back, because it left no choice open.
-/

namespace Rewind.Run

open Attempt Op

/-- What is seen of a run so far. -/
def seen (r : Run) : List Event :=
  (r.events.filterMap Event.kind?).reverse

/-- The log and the view with which a parse begins. -/
structure Ground where
  records : List Record
  view : View
  orderly : Orderly view
  retries : view.retries = 0

/-- The choices left open behind a record. -/
def Record.forks (γ : Gist) (left : List Fork) : Record → List Fork
  | .shifted _ _ _ alternative more => γ.fork alternative more left
  | .reduced _ _ alternative more => γ.fork alternative more left
  | .committed _ _ => []
  | _ => left

/-- The records of a parse from the ground on, with the gist of its view and the choices left
open. -/
inductive Traces (m : Machine) (reads : Alphabet) (ground : Ground) :
    List Record → View → Gist → List Fork → Prop
  | start {γ : Gist} : Outlines m reads ground.view γ →
    Traces m reads ground ground.records ground.view γ []
  | write {older : List Record} {record : Record} {v v' : View} {γ γ' : Gist} {left : List Fork} :
    Traces m reads ground older v γ left →
    (∀ unread, Change m False unread older.length record v v') → record.isOwn = true →
    Outlines m reads v' γ' →
    Traces m reads ground (record :: older) v' γ' (record.forks γ left)

variable {m : Machine} {reads : Alphabet} {ground : Ground} {v v' : View}
  {records older : List Record} {record : Record} {γ γ' : Gist} {left left' : List Fork}
  {fork : Fork} {r s : Run}

/-- A change counts the choice that it leaves open, or drops the count. -/
lemma Change.retries_forks {strict : Prop} {unread length : Nat}
    (h : Change m strict unread length record v v') (hown : record.isOwn = true)
    (hretries : v.retries = left.length) (γ : Gist) :
    v'.retries = (record.forks γ left).length := by
  have hfork (alternative : Nat) (more : Bool) :
      (if more then v.retries + 1 else v.retries) = (γ.fork alternative more left).length := by
    rw [hretries]
    cases more <;> rfl
  cases h with
  | shifted _ _ _ _ => exact hfork _ _
  | reduced _ => exact hfork _ _
  | committed => rfl
  | sent _ => cases hown
  | textPushed _ => cases hown
  | treePushed _ _ => cases hown
  | bound => cases hown
  | dropped => cases hown
  | action => cases hown
  | _ => exact hretries

/-- A parse takes from its input and adds nothing. -/
lemma Change.items_le {strict : Prop} {unread length : Nat}
    (h : Change m strict unread length record v v') (hown : record.isOwn = true) :
    v'.items.length ≤ v.items.length := by
  have htext {text : Bytes} {rest : List Item} (hitems : v.items = text.map .byte ++ rest) :
      rest.length ≤ v.items.length := by
    rw [hitems, List.length_append]
    omega
  have htree {item : Item} {rest : List Item} (hitems : v.items = item :: rest) :
      rest.length ≤ v.items.length := by
    rw [hitems, List.length_cons]
    omega
  cases h with
  | scanned _ _ hitems _ => exact htext hitems
  | setAside _ _ hitems _ => exact htext hitems
  | consumed _ hitems _ => exact htext hitems
  | treeQueued _ hitems => exact htree hitems
  | treeSetAside _ hitems _ _ _ => exact htree hitems
  | textPushed _ => cases hown
  | treePushed _ _ => cases hown
  | _ => exact Nat.le_refl _

namespace Traces

lemma outlines (h : Traces m reads ground records v γ left) : Outlines m reads v γ := by
  cases h with
  | start houtlines => exact houtlines
  | write _ _ _ houtlines => exact houtlines

lemma orderly (h : Traces m reads ground records v γ left) : Orderly v := by
  induction h with
  | start _ => exact ground.orderly
  | write _ hc _ _ ih => exact ih.change (hc 0)

/-- The retries are the choices left open. -/
lemma retries (h : Traces m reads ground records v γ left) : v.retries = left.length := by
  induction h with
  | start _ => exact ground.retries
  | write _ hc hown _ ih => exact (hc 0).retries_forks hown ih _

lemma items_le (h : Traces m reads ground records v γ left) :
    v.items.length ≤ ground.view.items.length := by
  induction h with
  | start _ => exact Nat.le_refl _
  | write _ hc hown _ ih => exact Nat.le_trans ((hc 0).items_le hown) ih

end Traces

/-! ## Runs -/

/-- A run of a parse that nothing but its tables and its driver can end, with its gist and the
choices left open. -/
structure Rests (m : Machine) (reads : Alphabet) (ground : Ground) (r : Run) (γ : Gist)
    (left : List Fork) : Prop where
  tidy : Tidy False r
  traces : Traces m reads ground r.log.records r.view γ left
  target : r.target = none
  stopping : r.stopping = false
  halted : r.halted = false
  aborted : r.aborted = false
  rejecting : r.rejecting = false

namespace Rests

lemma outlines (h : Rests m reads ground r γ left) : Outlines m reads r.view γ :=
  h.traces.outlines

lemma orderly (h : Rests m reads ground r γ left) : Orderly r.view :=
  h.traces.orderly

lemma retries (h : Rests m reads ground r γ left) : r.retries = left.length :=
  h.traces.retries

lemma items_le (h : Rests m reads ground r γ left) :
    r.content.length ≤ ground.view.items.length :=
  h.traces.items_le

/-- One more change was written down. -/
lemma write (h : Rests m reads ground r γ left) (hwrites : Writes m False record r v s)
    (hown : record.isOwn = true) (houtlines : Outlines m reads v γ') (htarget : s.target = r.target)
    (hstopping : s.stopping = r.stopping) (hhalted : s.halted = r.halted)
    (hrejecting : s.rejecting = r.rejecting) :
    Rests m reads ground s γ' (record.forks γ left) := by
  refine ⟨hwrites.tidy, ?_, htarget.trans h.target, hstopping.trans h.stopping,
    hhalted.trans h.halted, hwrites.aborted.trans h.aborted, hrejecting.trans h.rejecting⟩
  rw [hwrites.log, hwrites.view]
  exact h.traces.write (hwrites.change.of_isOwn hown) hown houtlines

/-- A run that differs in nothing that a parse depends on. -/
lemma keep (h : Rests m reads ground r γ left) (htidy : Tidy False s) (hlog : s.log = r.log)
    (hview : s.view = r.view) (htarget : s.target = none) (hstopping : s.stopping = false)
    (hhalted : s.halted = false) (haborted : s.aborted = false) (hrejecting : s.rejecting = false) :
    Rests m reads ground s γ left := by
  refine ⟨htidy, ?_, htarget, hstopping, hhalted, haborted, hrejecting⟩
  rw [hlog, hview]
  exact h.traces

/-- Where the run waits makes no difference, nor do its events and the alternative it will try. -/
lemma await (h : Rests m reads ground r γ left) (point : Point) (retry : Nat)
    (events : List Event) : Rests m reads ground { r with point, retry, events } γ left :=
  h.keep ⟨h.tidy.attached, h.tidy.pool, h.tidy.loose⟩ rfl rfl h.target h.stopping h.halted h.aborted
    h.rejecting

/-- While retries are left, so is a choice. -/
theorem exists_fork (h : Rests m reads ground r γ left) (hpos : 0 < r.retries) :
    ∃ fork left', left = fork :: left' := by
  rw [h.retries] at hpos
  exact List.exists_cons_of_length_pos hpos

lemma no_fork (h : Rests m reads ground r γ left) (hzero : r.retries = 0) : left = [] := by
  rw [h.retries] at hzero
  exact List.eq_nil_of_length_eq_zero hzero

end Rests

/-- The latest choice left open is that of the record, if this tells of a decision, and otherwise it
was left open before. -/
lemma forks_eq_cons (hown : record.isOwn = true) (h : record.forks γ left' = fork :: left) :
    (∃ alternative, record.takenBack = .decision alternative ∧ fork = (γ, alternative + 1) ∧
        left' = left) ∨ record.takenBack = .plain ∧ left' = fork :: left := by
  have hdecision {alternative : Nat} {more : Bool}
      (h : γ.fork alternative more left' = fork :: left) :
      (∃ next, (if more then TakenBack.decision alternative else .plain) = .decision next ∧
          fork = (γ, next + 1) ∧ left' = left) ∨
        (if more then TakenBack.decision alternative else .plain) = .plain ∧
          left' = fork :: left := by
    cases more with
    | true =>
      obtain ⟨hfork, hleft⟩ := List.cons.inj h
      exact .inl ⟨alternative, rfl, hfork.symm, hleft⟩
    | false => exact .inr ⟨rfl, h⟩
  cases record with
  | shifted _ _ _ alternative more => exact hdecision h
  | reduced _ _ alternative more => exact hdecision h
  | committed _ _ => cases h
  | action _ => cases hown
  | _ => exact .inr ⟨rfl, h⟩

/-- Turning back comes to the latest choice that is left open, and nothing is seen of it. -/
theorem unwind_forks (h : Rests m reads ground r γ (fork :: left)) :
    ∃ s, unwind m .backtrack r.log.records r = .ok none s ∧ Rests m reads ground s fork.1 left ∧
      s.point = .start ∧ s.retry = fork.2 ∧ seen s = seen r := by
  generalize hrecords : r.log.records = records
  generalize hv : r.view = v
  generalize hleft : fork :: left = opened
  have htraces := h.traces
  rw [hrecords, hv, hleft] at htraces
  -- The run goes back along its log, one record after the other.
  induction htraces generalizing r with
  | start _ => cases hleft
  | @write older record v v' γ' _ left' hbefore hc hown _ ih =>
    rw [← hv] at hc
    obtain ⟨s, hs, hview, -, hcourse, hunwind⟩ := unwind_back h.tidy hbefore.orderly (hc r.unread)
      hrecords (show atGoal r .backtrack = false from rfl)
    rw [hrecords] at hunwind
    have hlog : s.log.records = older := by rw [hcourse.log]
    have hseen : seen s = seen r := by rw [seen, hcourse.events]; rfl
    have hrests : Rests m reads ground s γ' left' := by
      refine ⟨hs, ?_, hcourse.target.trans h.target, hcourse.stopping.trans h.stopping,
        hcourse.halted.trans h.halted, hcourse.aborted.trans h.aborted,
        hcourse.rejecting.trans h.rejecting⟩
      rw [hlog, hview]
      exact hbefore
    rw [hunwind]
    rcases forks_eq_cons hown hleft.symm with ⟨alternative, htaken, rfl, rfl⟩ | ⟨htaken, rfl⟩
    · rw [htaken]
      exact ⟨_, rfl, hrests.await .start (alternative + 1) s.events, rfl, rfl, hseen⟩
    · rw [htaken]
      obtain ⟨t, hunwound, ht, hpoint, hretry, hsame⟩ := ih hrests hlog hview rfl
      exact ⟨t, hunwound, ht, hpoint, hretry, hsame.trans hseen⟩

end Rewind.Run
