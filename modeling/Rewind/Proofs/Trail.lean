import Rewind.Proofs.Choices
import Rewind.Proofs.Unwind

/-!
# What a log leaves open

The log of a parse tells which alternatives were chosen, and which choices are left open: those of
its decisions that could have been others, as far back as the last commit.  A `Trail` is a path
that keeps the scene of each of these decisions.  Turning back goes along it to the latest of them,
and there the scene is what it was.
-/

namespace Rewind.Run

open Attempt Op

/-- The alternatives that a log tells of, one for each step, the latest first.  A step that shifts
and reduces at once has an alternative for the shift only. -/
def chosen : List Record → List Nat
  | .reduced _ _ _ _ :: .shifted _ _ _ alternative _ :: older => alternative :: chosen older
  | .shifted _ _ _ alternative _ :: older => alternative :: chosen older
  | .reduced _ _ alternative _ :: older => alternative :: chosen older
  | _ :: older => chosen older
  | [] => []

/-- Whether a log ends between two steps, as far as a shift without its reduction goes. -/
def isBetween : List Record → Bool
  | .shifted _ _ _ _ _ :: _ => false
  | _ => true

/-- Between two steps, a reduction is a step of its own. -/
lemma chosen_reduced {records : List Record} (h : isBetween records = true) (tree : NodeId)
    (previous : StateId) (alternative : Nat) (more : Bool) :
    chosen (.reduced tree previous alternative more :: records) =
      alternative :: chosen records := by
  cases records with
  | nil => rfl
  | cons record older =>
    cases record with
    | shifted _ _ _ _ _ => cases h
    | _ => rfl

/-- The choices left open by a record and those before it. -/
def Record.leaves (older : List Record) (σ : Scene) (left : List Choice) : Record → List Choice
  | .shifted _ _ _ alternative more => Choice.leaves ⟨σ, alternative, chosen older⟩ more left
  | .reduced _ _ alternative more => Choice.leaves ⟨σ, alternative, chosen older⟩ more left
  | .committed _ _ => []
  | _ => left

/-- What a parse begins with. -/
structure Begins (base : View) : Prop where
  orderly : Orderly base
  retries : base.retries = 0
  bytes : trees base.items = []

/-- The records of a parse from a base to a view, with the scene of the view and the choices that
are left open.  Decisions are made between two steps. -/
inductive Trail (m : Machine) (base : View) : List Record → View → Scene → List Choice → Prop
  | start {σ : Scene} : Depicts base σ → Trail m base [] base σ []
  | write {older : List Record} {record : Record} {v v' : View} {σ σ' : Scene}
      {left : List Choice} :
    Trail m base older v σ left → (∀ unread, Change m True unread older.length record v v') →
    record.isOwn = true → record.takenBack = .plain ∨ isBetween older = true → Depicts v' σ' →
    Trail m base (record :: older) v' σ' (record.leaves older σ left)

variable {m : Machine} {base v v' : View} {records older : List Record} {record : Record}
  {σ σ' : Scene} {left left' : List Choice} {c : Choice} {r s : Run}

/-- A record of the parse itself does not depend on how much of the stream is at hand. -/
lemma Change.of_isOwn {strict : Prop} {unread length : Nat}
    (h : Change m strict unread length record v v') (hown : record.isOwn = true) (unread' : Nat) :
    Change m strict unread' length record v v' := by
  cases h
  case textPushed => cases hown
  case treePushed => cases hown
  all_goals constructor <;> assumption

lemma Change.trees_eq_nil {unread length : Nat} (h : Change m True unread length record v v')
    (hown : record.isOwn = true) (hbytes : trees v.items = []) : trees v'.items = [] := by
  have hrest {text : Bytes} {rest : List Item} (hitems : v.items = text.map .byte ++ rest) :
      trees rest = [] := by
    rw [← trees_bytes_append text rest, ← hitems]
    exact hbytes
  cases h with
  | scanned _ _ hitems _ => exact hrest hitems
  | setAside _ _ hitems _ => exact hrest hitems
  | consumed _ hitems _ => exact hrest hitems
  | treeQueued _ hitems =>
    rw [hitems] at hbytes
    cases hbytes
  | treeSetAside _ hitems _ _ _ =>
    rw [hitems] at hbytes
    cases hbytes
  | textPushed _ => cases hown
  | treePushed _ _ => cases hown
  | _ => exact hbytes

/-- A change counts the choice that it leaves open, or drops the count. -/
lemma Change.retries_leaves {unread length : Nat} (h : Change m True unread length record v v')
    (hown : record.isOwn = true) (hretries : v.retries = left.length) (older : List Record)
    (σ : Scene) : v'.retries = (record.leaves older σ left).length := by
  have hleaves (c : Choice) (more : Bool) :
      (if more then v.retries + 1 else v.retries) = (c.leaves more left).length := by
    rw [hretries]
    cases more <;> rfl
  cases h with
  | shifted _ _ _ _ => exact hleaves _ _
  | reduced _ => exact hleaves _ _
  | committed => rfl
  | sent _ => cases hown
  | textPushed _ => cases hown
  | treePushed _ _ => cases hown
  | bound => cases hown
  | dropped => cases hown
  | action => cases hown
  | _ => exact hretries

namespace Trail

lemma depicts (h : Trail m base records v σ left) : Depicts v σ := by
  cases h with
  | start hdepicts => exact hdepicts
  | write _ _ _ _ hdepicts => exact hdepicts

lemma orderly (h : Trail m base records v σ left) (hbase : Begins base) : Orderly v := by
  induction h with
  | start _ => exact hbase.orderly
  | write _ hc _ _ _ ih => exact ih.change (hc 0)

lemma bytes (h : Trail m base records v σ left) (hbase : Begins base) : trees σ.items = [] := by
  have hitems : trees v.items = [] := by
    induction h with
    | start _ => exact hbase.bytes
    | write _ hc hown _ _ ih => exact (hc 0).trees_eq_nil hown ih
  rw [h.depicts.items] at hitems
  exact hitems

lemma of_nil (h : Trail m base [] v σ left) : left = [] := by
  cases h
  rfl

lemma of_cons (h : Trail m base (record :: older) v' σ' left') :
    ∃ v σ left, Trail m base older v σ left ∧
      (∀ unread, Change m True unread older.length record v v') ∧ record.isOwn = true ∧
      (record.takenBack = .plain ∨ isBetween older = true) ∧
      left' = record.leaves older σ left := by
  cases h with
  | write htrail hc hown hbetween _ => exact ⟨_, _, _, htrail, hc, hown, hbetween, rfl⟩

/-- The retries are the choices left open. -/
lemma retries (h : Trail m base records v σ left) (hbase : Begins base) :
    v.retries = left.length := by
  induction h with
  | start _ => exact hbase.retries
  | write _ hc hown _ _ ih => exact (hc 0).retries_leaves hown ih _ _

end Trail

/-! ## Runs on a trail -/

/-- A run of a parse that nothing but the input can end, at a scene, with choices left open. -/
structure Stands (m : Machine) (base : View) (r : Run) (σ : Scene) (left : List Choice) : Prop where
  tidy : Tidy True r
  trail : Trail m base r.log.records r.view σ left
  target : r.target = none
  stopping : r.stopping = false
  halted : r.halted = false
  aborted : r.aborted = false
  rejecting : r.rejecting = false

namespace Stands

lemma depicts (h : Stands m base r σ left) : Depicts r.view σ :=
  h.trail.depicts

lemma orderly (h : Stands m base r σ left) (hbase : Begins base) : Orderly r.view :=
  h.trail.orderly hbase

lemma retries (h : Stands m base r σ left) (hbase : Begins base) : r.retries = left.length :=
  h.trail.retries hbase

/-- One more change was written down. -/
lemma write {v : View} (h : Stands m base r σ left) (hwrites : Writes m True record r v s)
    (hown : record.isOwn = true)
    (hbetween : record.takenBack = .plain ∨ isBetween r.log.records = true)
    (hdepicts : Depicts v σ') (htarget : s.target = r.target)
    (hstopping : s.stopping = r.stopping) (hhalted : s.halted = r.halted)
    (hrejecting : s.rejecting = r.rejecting) :
    Stands m base s σ' (record.leaves r.log.records σ left) := by
  refine ⟨hwrites.tidy, ?_, htarget.trans h.target, hstopping.trans h.stopping,
    hhalted.trans h.halted, hwrites.aborted.trans h.aborted, hrejecting.trans h.rejecting⟩
  rw [hwrites.log, hwrites.view]
  exact h.trail.write (hwrites.change.of_isOwn hown) hown hbetween hdepicts

/-- A run that differs in nothing that a parse depends on. -/
lemma keep (h : Stands m base r σ left) (htidy : Tidy True s) (hlog : s.log = r.log)
    (hview : s.view = r.view) (htarget : s.target = none) (hstopping : s.stopping = false)
    (hhalted : s.halted = false) (haborted : s.aborted = false) (hrejecting : s.rejecting = false) :
    Stands m base s σ left := by
  refine ⟨htidy, ?_, htarget, hstopping, hhalted, haborted, hrejecting⟩
  rw [hlog, hview]
  exact h.trail

/-- Where the run waits makes no difference, nor do its events and the alternative it will try. -/
lemma await (h : Stands m base r σ left) (point : Point) (retry : Nat) (events : List Event) :
    Stands m base { r with point, retry, events } σ left :=
  h.keep ⟨h.tidy.attached, h.tidy.pool, h.tidy.loose⟩ rfl rfl h.target h.stopping h.halted h.aborted
    h.rejecting

end Stands

/-- The latest choice left open is that of the record, if this tells of a decision, and otherwise it
was left open before. -/
lemma leaves_eq_cons (hown : record.isOwn = true)
    (h : record.leaves older σ left' = c :: left) :
    (∃ alternative, record.takenBack = .decision alternative ∧
        c = ⟨σ, alternative + 1, chosen older⟩ ∧ left' = left) ∨
      record.takenBack = .plain ∧ left' = c :: left := by
  have hdecision {alternative : Nat} {more : Bool}
      (h : Choice.leaves ⟨σ, alternative, chosen older⟩ more left' = c :: left) :
      (∃ next, (if more then TakenBack.decision alternative else .plain) = .decision next ∧
          c = ⟨σ, next + 1, chosen older⟩ ∧ left' = left) ∨
        (if more then TakenBack.decision alternative else .plain) = .plain ∧ left' = c :: left := by
    cases more with
    | true =>
      obtain ⟨hc, hleft⟩ := List.cons.inj h
      exact .inl ⟨alternative, rfl, hc.symm, hleft⟩
    | false => exact .inr ⟨rfl, h⟩
  cases record with
  | shifted _ _ _ alternative more => exact hdecision h
  | reduced _ _ alternative more => exact hdecision h
  | committed _ _ => cases h
  | action _ => cases hown
  | _ => exact .inr ⟨rfl, h⟩

/-- Turning back comes to the latest choice that is left open. -/
theorem unwind_stands (h : Stands m base r σ (c :: left)) (hbase : Begins base) :
    ∃ s, unwind m .backtrack r.log.records r = .ok none s ∧ Stands m base s c.scene left ∧
      s.point = .start ∧ s.retry = c.alternative ∧ chosen s.log.records = c.chosen ∧
      isBetween s.log.records = true := by
  generalize hrecords : r.log.records = records
  induction records generalizing r σ with
  | nil =>
    have htrail := h.trail
    rw [hrecords] at htrail
    cases htrail.of_nil
  | cons record older ih =>
    have htrail := h.trail
    rw [hrecords] at htrail
    obtain ⟨v, σ', left', hbefore, hc, hown, hbetween, hleft⟩ := htrail.of_cons
    obtain ⟨s, hs, hview, -, hcourse, hunwind⟩ := unwind_back h.tidy
      (hbefore.orderly hbase) (hc r.unread) hrecords (show atGoal r .backtrack = false from rfl)
    rw [hrecords] at hunwind
    have hlog : s.log.records = older := by rw [hcourse.log]
    have hstands : Stands m base s σ' left' := by
      refine ⟨hs, ?_, hcourse.target.trans h.target, hcourse.stopping.trans h.stopping,
        hcourse.halted.trans h.halted, hcourse.aborted.trans h.aborted,
        hcourse.rejecting.trans h.rejecting⟩
      rw [hlog, hview]
      exact hbefore
    rw [hunwind]
    rcases leaves_eq_cons hown hleft.symm with ⟨alternative, htaken, rfl, rfl⟩ | ⟨htaken, rfl⟩
    · rw [htaken] at hbetween ⊢
      refine ⟨_, rfl, hstands.await .start (alternative + 1) s.events, rfl, rfl,
        congrArg chosen hlog, ?_⟩
      rw [show ({ s with retry := alternative + 1, point := .start } : Run).log.records = older
        from hlog]
      exact hbetween.resolve_left nofun
    · rw [htaken]
      exact ih hstands hlog

end Rewind.Run
