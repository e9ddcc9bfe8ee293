import Rewind.Proofs.Forward

/-!
# Paths with more to tell

A `Course` is a path from the first record of a log on, on which something more is known of every
change: of the record, of the log before it, and of the views between which it leads.  What is known
of the changes along a path is known of what is left of it when records are taken back.
-/

namespace Rewind.Run

/-- A path from the beginning of a log, every change of which is as `Step` says. -/
inductive Course (m : Machine) (strict : Prop) (Step : Record → List Record → View → View → Prop)
    (base : View) (unread : Nat) : List Record → View → Prop
  | start : Course m strict Step base unread [] base
  | change {older : List Record} {record : Record} {v v' : View} :
    Course m strict Step base unread older v →
    Change m strict unread older.length record v v' → Step record older v v' →
    Course m strict Step base unread (record :: older) v'

namespace Course

variable {m : Machine} {strict : Prop} {Step Step' : Record → List Record → View → View → Prop}
  {Noted : List Record → View → Prop} {base v w : View} {unread unread' : Nat}
  {records before later : List Record}

lemma path (h : Course m strict Step base unread records v) :
    Path m strict (fun _ _ => True) [] base unread records v := by
  induction h with
  | start => exact .start
  | change _ hc _ ih => exact ih.change hc fun _ => trivial

lemma orderly (h : Course m strict Step base unread records v) (hbase : Orderly base) :
    Orderly v :=
  h.path.orderly hbase

/-- What is noted along a path is known of its changes. -/
lemma of_path (h : Path m strict Noted [] base unread records v) :
    Course m strict (fun record older _ w => record = .stepEnded → Noted (record :: older) w) base
      unread records v := by
  induction h with
  | start => exact .start
  | change _ hc hnoted ih => exact ih.change hc hnoted

lemma toPath (h : Course m strict
    (fun record older _ w => record = .stepEnded → Noted (record :: older) w) base unread records
    v) : Path m strict Noted [] base unread records v := by
  induction h with
  | start => exact .start
  | change _ hc hnoted ih => exact ih.change hc hnoted

lemma mono (h : Course m strict Step base unread records v) (hle : unread' ≤ unread) :
    Course m strict Step base unread' records v := by
  induction h with
  | start => exact .start
  | change _ hc hstep ih => exact ih.change (hc.mono hle) hstep

lemma weaken (h : Course m strict Step base unread records v)
    (hstep : ∀ record older v v', (∃ newer, records = newer ++ record :: older) →
      Step record older v v' → Step' record older v v') :
    Course m strict Step' base unread records v := by
  induction h with
  | start => exact .start
  | change _ hc hs ih =>
    refine (ih fun record older v v' hmem => hstep record older v v' ?_).change hc
      (hstep _ _ _ _ ⟨[], rfl⟩ hs)
    obtain ⟨newer, rfl⟩ := hmem
    exact ⟨_ :: newer, rfl⟩

/-- A course goes on along a path whose changes are as they should be. -/
lemma trans (h : Course m strict Step base unread before w)
    (hpath : Path m strict Noted before w unread later v)
    (hstep : ∀ newer record older x x', later = newer ++ record :: older →
      Path m strict Noted before w unread older x →
      Change m strict unread older.length record x x' → Step record older x x') :
    Course m strict Step base unread later v := by
  induction hpath with
  | start => exact h
  | @change _ latest _ _ hbefore hc _ ih =>
    refine (ih fun newer record older x x' hsplit =>
      hstep (latest :: newer) record older x x' ?_).change hc (hstep [] _ _ _ _ rfl hbefore hc)
    rw [hsplit, List.cons_append]

end Course

end Rewind.Run
