import Rewind.Proofs.History
import Rewind.Proofs.Repetition
import Rewind.Proofs.Requests

/-!
# Repeating what goes back

Runs that match show the same, so whatever one of them takes back, the other one takes back as well.
Neither loses what it has read of its stream, and a node that waits in both is left alone by both.
-/

namespace Rewind.Run

open Attempt Op

/-- Requests of which the log tells all that they change. -/
def Request.IsLogged : Request → Prop
  | .detach | .giveUpLog | .editNodes _ => False
  | _ => True

variable {p : Reprise} {m : Machine} {r r' s s' t : Run} {id : NodeId} {n : Node}

/-- A run that shows the same, and that only differs from another in what is not shown. -/
lemma eq_of_view (hview : s.view = r.view) (hcourse : SameCourse r { s with events := r.events }) :
    s = { r with scanner := s.scanner, forest := s.forest, events := s.events } := by
  obtain ⟨hstate, hsteps, hstack, hqueue, haside, -, hbindings, hbarrier, hretries, hran, -, -⟩ :=
    View.ext_iff.1 hview
  obtain ⟨hlog, htarget, hretry, hpoint, hstopping, hhalted, haborted, hrejecting, -⟩ := hcourse
  obtain ⟨⟩ := r
  obtain ⟨⟩ := s
  simp_all [view]

namespace Reprise

lemma Supplied.iff (hattached : r.scanner.stream.isSome) :
    p.Supplied r ↔ p.unread ≤ r.unread ∧ (r.sourceEnded = true → p.ended = true) := by
  obtain ⟨stream, hstream⟩ := Option.isSome_iff_exists.1 hattached
  have hended : r.sourceEnded = stream.sourceEnded := by
    rw [Run.sourceEnded, hstream]
    rfl
  rw [(content_eq hstream).2.2, hended]
  constructor
  · rintro ⟨stream', hstream', h⟩
    obtain rfl := Option.some.inj (hstream.symm.trans hstream')
    exact h
  · exact fun h => ⟨stream, hstream, h⟩

namespace Matches

/-- Matching runs show the same. -/
lemma view (h : p.Matches r s) : s.view = r.view := by
  have hwaiting := h.waiting
  have hcontent : s.content = r.content := by
    obtain ⟨stream, stream', hr, hs, hreads⟩ := h.stream
    rw [(content_eq hr).1, (content_eq hs).1, hreads.content]
  have hshown : s.shown = r.shown := by
    funext id
    by_cases hid : id ∈ r.waiting
    · rw [shown_of_waiting hid, shown_of_waiting (hwaiting ▸ hid)]
      rcases h.nodes id with hsame | ⟨-, k, -, hplaced⟩
      · rw [hsame]
      · rw [hplaced, Option.map_map]
        rfl
    · rw [shown_of_not_waiting hid, shown_of_not_waiting (hwaiting ▸ hid), h.node_eq hid]
  have hposition := h.position
  obtain ⟨scanner, forest, events, rfl⟩ := h.parts
  exact View.ext rfl rfl rfl rfl rfl hshown rfl rfl rfl rfl hcontent hposition

lemma tidy (h : p.Matches r s) (ht : Tidy False r) : Tidy False s := by
  obtain ⟨-, stream', -, hs, -⟩ := h.stream
  exact ⟨by rw [hs]; rfl, h.sound ht.pool, nofun⟩

lemma unread (h : p.Matches r s) : s.unread = p.unread ∧ s.sourceEnded = p.ended := by
  obtain ⟨stream, stream', -, hs, hreads⟩ := h.stream
  refine ⟨(content_eq hs).2.2.trans hreads.unread, ?_⟩
  rw [Run.sourceEnded, hs]
  exact hreads.ended

/-- A node that waits when something was taken back matches if it waited before, and was the same
before if it did not. -/
lemma returned {record : Record} (h : p.Matches r s) (hr : Returns record r r')
    (hs : Returns record s s') (hid : id ∈ r'.waiting) (hwaiting : s'.waiting = r'.waiting)
    (hlive : (Pool.get? s'.forest id).isSome = (Pool.get? r'.forest id).isSome) :
    Pool.get? s'.forest id = Pool.get? r'.forest id ∨ id ∈ r'.waiting ∧
      ∃ k, p.nodes id = some k ∧
        Pool.get? s'.forest id = (Pool.get? r'.forest id).map (Node.placedAs k) := by
  cases hn₁ : Pool.get? r'.forest id with
  | none =>
    rw [hn₁, Option.isSome_none, Option.isSome_eq_false_iff, Option.isNone_iff_eq_none] at hlive
    exact .inl hlive
  | some n₁ =>
    rw [hn₁] at hlive
    obtain ⟨n₂, hn₂⟩ := Option.isSome_iff_exists.1 hlive
    obtain ⟨n, hn, hnode, -⟩ := hr.node hn₁
    obtain ⟨n', hn', hnode', -⟩ := hs.node hn₂
    replace hnode := hnode hid
    replace hnode' := hnode' (hwaiting ▸ hid)
    rw [h.waiting] at hnode'
    rw [hn₂]
    split_ifs at hnode hnode' with hin
    · subst hnode hnode'
      rw [← hn, ← hn']
      exact (h.nodes id).imp_right fun h => ⟨hid, h.2⟩
    · obtain rfl : n' = n := Option.some.inj (hn'.symm.trans ((h.node_eq hin).trans hn))
      exact .inl (by rw [hnode, hnode'])

end Matches

namespace Repeats

/-- The change of a record is taken back. -/
lemma undo {record : Record} {v : View} {length : Nat} (ht : Tidy False r) (ho : Orderly v)
    (hc : Change m False r.unread length record v r.view) : p.Repeats (Run.undo record) r := by
  obtain ⟨r₁, hrun, hview, htidy, hreturns, hcourse⟩ := undoes ht ho (Nat.le_refl _) hc rfl
  intro out r' h hsupplied
  rw [hrun] at h
  cases h
  have hr : p.Supplied r := by
    rw [Supplied.iff ht.attached, ← hreturns.unread, ← hreturns.ended]
    exact (Supplied.iff htidy.attached).1 hsupplied
  refine ⟨hr, fun s hs => ?_⟩
  have hunread : s.unread ≤ r.unread := by
    rw [hs.unread.1]
    exact ((Supplied.iff ht.attached).1 hr).1
  obtain ⟨s₁, hrun', hview', htidy', hreturns', hcourse'⟩ :=
    undoes (hs.tidy ht) ho hunread hc hs.view
  have hsame : s₁.view = r₁.view := hview'.trans hview.symm
  have hwaiting : s₁.waiting = r₁.waiting := congrArg View.waiting hsame
  refine ⟨s₁, by rw [hrun']; exact .ok _ _, ?_, ?_, ?_, ?_, fun id => ?_⟩
  · refine ⟨s₁.scanner, s₁.forest, s₁.events, eq_of_view hsame ?_⟩
    obtain ⟨scanner, forest, events, rfl⟩ := hs.parts
    exact ⟨hcourse'.log.trans hcourse.log.symm, hcourse'.target.trans hcourse.target.symm,
      hcourse'.retry.trans hcourse.retry.symm, hcourse'.point.trans hcourse.point.symm,
      hcourse'.stopping.trans hcourse.stopping.symm, hcourse'.halted.trans hcourse.halted.symm,
      hcourse'.aborted.trans hcourse.aborted.symm,
      hcourse'.rejecting.trans hcourse.rejecting.symm, rfl⟩
  · rw [hcourse.events, hcourse'.events]
    exact hs.events
  · obtain ⟨stream, hstream⟩ := htidy.stream
    obtain ⟨stream', hstream'⟩ := htidy'.stream
    obtain ⟨hcontent, hposition, -⟩ := content_eq hstream
    obtain ⟨hcontent', hposition', hunread'⟩ := content_eq hstream'
    refine ⟨stream, stream', hstream, hstream', ?_, ?_, ?_, ?_⟩
    · rw [← hcontent, ← hcontent']
      exact congrArg View.items hsame
    · rw [← hposition, ← hposition']
      exact congrArg View.position hsame
    · rw [← hunread', hreturns'.unread]
      exact hs.unread.1
    · have hended := hreturns'.ended.trans hs.unread.2
      rwa [Run.sourceEnded, hstream'] at hended
  · exact (hs.forest.release record.slot?.toList).keep hreturns.slots hreturns'.slots
  · have hshown : s₁.shown id = r₁.shown id := congrFun (congrArg View.nodes hsame) id
    by_cases hid : id ∈ r₁.waiting
    · have hlive := congrArg Option.isSome hshown
      rw [isSome_shown, isSome_shown] at hlive
      exact hs.returned hreturns hreturns' hid hwaiting hlive
    · rw [shown_of_not_waiting hid, shown_of_not_waiting (hwaiting ▸ hid)] at hshown
      exact .inl hshown

lemma settle (h : Ordered r) : p.Repeats (Run.settle m) r := by
  refine reads (g := atEnd m) (fun b hb s hs => ⟨(atEnd_eq h hs).trans hb, rfl⟩) fun b _ => ?_
  exact (modify (fun _ _ _ => rfl) fun _ hid => hid).seq fun _ _ =>
    glance (fun _ _ _ => rfl) (pure _)

/-- Records are taken back, one after the other. -/
lemma unwind {goal : Goal} {records : List Record} {base : View} (hbase : Orderly base)
    (h : Sound m False (fun _ _ => True) base r) (hlog : r.log.records = records) :
    p.Repeats (Run.unwind m goal records) r := by
  induction records generalizing r with
  | nil =>
    exact glance (fun _ _ _ => rfl) <| ite
      (fun _ => (settle (ordered h.toTidy (h.orderly hbase))).seq fun _ _ => pure _)
      fun _ => glance (fun _ _ _ => rfl) (fail _)
  | cons record older ih =>
    refine glance (fun _ _ _ => rfl) <| ite
      (fun _ => (settle (ordered h.toTidy (h.orderly hbase))).seq fun _ _ => pure _) fun _ => ?_
    refine (modify (fun _ _ _ => rfl) fun _ hid => hid).bind fun _ t ht =>
      (tell _).bind fun _ u hu => ?_
    have hpath := h.path
    rw [hlog] at hpath
    cases hpath with
    | change hpath hc _ =>
      have horderly := hpath.orderly hbase
      have htidy : Tidy False u := by
        cases ht
        cases hu
        exact ⟨h.attached, h.pool, nofun⟩
      have hview : u.view = r.view ∧ u.unread = r.unread ∧ u.log.records = older := by
        cases ht
        cases hu
        exact ⟨rfl, rfl, rfl⟩
      rw [← hview.1, ← hview.2.1] at hc
      refine (undo htidy horderly hc).bind fun taken w hundo => ?_
      obtain ⟨w', hundo', hview', htidy', hreturns, hcourse⟩ :=
        undoes htidy horderly (Nat.le_refl _) hc rfl
      rw [hundo'] at hundo
      cases hundo
      have hrest : p.Repeats (Run.unwind m goal older) w := by
        have holder : w.log.records = older := by
          rw [hcourse.log]
          exact hview.2.2
        refine ih ⟨htidy', ?_⟩ holder
        rw [holder, hview', hreturns.unread, hview.2.1]
        exact hpath
      cases record.takenBack with
      | plain => exact hrest
      | action data => exact pure _
      | decision alternative =>
        cases goal with
        | step steps => exact hrest
        | backtrack =>
          exact (modify (fun _ _ _ => rfl) fun _ hid => hid).seq fun _ _ => pure _

/-! ## Turns -/

lemma turn {base : View} (hbase : Orderly base) (h : Sound m False (fun _ _ => True) base r)
    (hstate : p.Concurs r) : p.Repeats (Run.turn m) r := by
  refine glance (fun _ _ _ => rfl) ?_
  cases r.point with
  | start => exact goForward h.toTidy (h.orderly hbase) hstate
  | reverse goal => exact unwind hbase h rfl
  | done => exact pure _
  | _ => exact fail _

lemma takeTurns {turns : Nat} (hr : p.Repeats (Run.turn m) r)
    (h : ∀ t ∈ turnsTaken m turns r, p.Repeats (Run.turn m) t) :
    p.Repeats (Run.takeTurns m turns) r := by
  induction turns generalizing r with
  | zero => exact lookup _
  | succ turns ih =>
    refine hr.bind fun a t hturn => ?_
    rw [turnsTaken, hturn] at h
    cases a with
    | some status => exact pure _
    | none => exact ih (h t List.mem_cons_self) fun u hu => h u (List.mem_cons_of_mem _ hu)

/-- A parse is repeated if the turns of all runs that it passes through are. -/
lemma resume {entry : Entry} {turns : Nat} (hr : Ordered r)
    (h : ∀ t ∈ passed m turns entry r, p.Repeats (Run.turn m) t) :
    p.Repeats (Run.resume m turns entry) r := by
  refine (enter hr).bind fun a t henter => ?_
  rw [passed, henter] at h
  cases a with
  | some status => exact pure _
  | none =>
    exact takeTurns (h t List.mem_cons_self) fun u hu => h u (List.mem_cons_of_mem _ hu)

lemma unlessAborted {op : Op Status} (h : p.Repeats op r) :
    p.Repeats (Run.unlessAborted op) r := by
  intro out r' hensues hsupplied
  have hsame {s : Run} (hs : p.Matches r s) : s.aborted = r.aborted := by
    obtain ⟨scanner, forest, events, rfl⟩ := hs.parts
    rfl
  unfold Run.unlessAborted at hensues ⊢
  split at hensues
  · rename_i haborted
    cases hensues with
    | error _ he =>
      refine ⟨hsupplied, fun s hs => ⟨s, ?_, hs⟩⟩
      rw [if_pos ((hsame hs).trans haborted)]
      exact .error s he
  · rename_i haborted
    cases hop : op r with
    | ok status t =>
      simp only [hop] at hensues
      cases hensues
      have hensues : Ensues (op r) (.ok status) t := by
        rw [hop]
        exact .ok status t
      obtain ⟨hr, hrest⟩ := h hensues hsupplied
      refine ⟨hr, fun s hs => ?_⟩
      obtain ⟨s', hs', hmatches⟩ := hrest s hs
      rw [if_neg (by rwa [hsame hs]), hs'.eq_ok]
      exact ⟨_, .ok status _, hmatches.tell _⟩
    | error e t =>
      cases e with
      | fault f =>
        simp only [hop] at hensues
        cases hensues
      | error e =>
        cases he : e.isFatal with
        | true =>
          simp only [hop, he, if_true] at hensues
          cases hensues with
          | error _ hnot => cases he.symm.trans hnot
        | false =>
          simp only [hop, he, Bool.false_eq_true, if_false] at hensues
          cases hensues
          have hensues : Ensues (op r) (.error e) r' := by
            rw [hop]
            exact .error r' he
          obtain ⟨hr, hrest⟩ := h hensues hsupplied
          refine ⟨hr, fun s hs => ?_⟩
          obtain ⟨s', hs', hmatches⟩ := hrest s hs
          rw [if_neg (by rwa [hsame hs]), hs'.eq_error.1]
          simp only [he, Bool.false_eq_true, if_false]
          exact ⟨s', .error s' he, hmatches⟩

lemma parse {entry : Entry} {turns : Nat} (hr : Ordered r)
    (h : ∀ t ∈ passed m turns entry r, p.Repeats (Run.turn m) t) :
    p.Repeats (Run.parse m turns entry) r :=
  (resume hr h).unlessAborted

lemma undoTo {target : Nat} {base : View} (hbase : Orderly base)
    (h : Sound m False (fun _ _ => True) base r) : p.Repeats (Run.undoTo m target) r := by
  refine unlessAborted (glance (fun _ _ _ => rfl) <| ite (fun _ => fail _) fun _ => ?_)
  have hback : p.Repeats (do
      MonadState.modifyGet fun r => ((), { r with point := .reverse (.step target) })
      Run.takeTurns m 1) r := by
    refine (modify (fun _ _ _ => rfl) fun _ hid => hid).bind fun _ t ht => ?_
    cases ht
    have hunwind : p.Repeats (Run.turn m) { r with point := .reverse (.step target) } :=
      glance (fun _ _ _ => rfl)
        (unwind hbase (h.moves (moves_awaited h.toTidy (.reverse (.step target)) r.rejecting)) rfl)
    refine hunwind.seq fun a _ => ?_
    cases a with
    | some status => exact pure _
    | none => exact lookup _
  split
  · exact fail _
  · exact hback

/-! ## Requests -/

lemma rejectNow : p.Repeats Run.rejectNow r := by
  intro out r' h hsupplied
  cases hpoint : r.point with
  | reduction production commits =>
    have hrun {s : Run} (hs : s.point = .reduction production commits) :
        Run.rejectNow s = .ok () { s with rejecting := true } := by
      unfold Run.rejectNow reject
      simp only [hs]
    have hset : p.Repeats (MonadState.modifyGet fun r => ((), { r with rejecting := true })) r :=
      modify (fun _ _ _ => rfl) fun _ hid => hid
    rw [hrun hpoint] at h
    obtain ⟨hr, hrest⟩ := hset h hsupplied
    refine ⟨hr, fun s hs => ?_⟩
    obtain ⟨s', hs', hmatches⟩ := hrest s hs
    have hsame : s.point = r.point := by
      obtain ⟨scanner, forest, events, rfl⟩ := hs.parts
      rfl
    rw [hrun (hsame.trans hpoint)]
    exact ⟨s', hs', hmatches⟩
  | _ =>
    have hrun : Run.rejectNow r = .error (.error (.misuse .rejectOutsideReduction)) r := by
      unfold Run.rejectNow reject
      simp only [hpoint]
    rw [hrun] at h
    cases h with
    | error _ he => cases he

lemma attach {stream : Stream} (hattached : r.scanner.stream.isSome) :
    p.Repeats (Run.attach stream) r := by
  refine of_grave (Law.grave_onScanner _).grave fun _ r' h _ => ?_
  obtain ⟨stream', hstream⟩ := Option.isSome_iff_exists.1 hattached
  unfold Run.attach Op.onScanner Scanner.attach at h
  simp only [hstream] at h
  cases h

lemma pushText (text : Bytes) : p.Repeats (Run.pushText text) r :=
  ite (fun _ => (changeStream (f := (·.pushText text)) (text.map .byte) fun _ =>
    ⟨rfl, rfl, rfl, List.append_assoc ..⟩).seq
    fun _ _ => write _) fun _ => pure _

lemma pushTree (tree : Node) (ignore : Bool) (hpool : Pool.Sound r.forest) :
    p.Repeats (Run.pushTree tree ignore) r := by
  refine (changeStream [] fun _ => ⟨rfl, rfl, rfl, rfl⟩).bind fun _ t ht => ?_
  have hforest : t.forest = r.forest := by
    obtain ⟨stream, -, rfl⟩ := changeStream_eq_ok.1 ht
    rfl
  exact (alloc _ (by rwa [hforest])).seq fun slot _ =>
    (changeStream (f := (·.pushTree slot ignore)) [.tree slot ignore] fun _ =>
      ⟨rfl, rfl, rfl, rfl⟩).seq fun _ _ =>
    (write _).seq fun _ _ => pure _

lemma bindVariable (name : VariableId) (id : NodeId) : p.Repeats (Run.bind name id) r :=
  glance (fun _ _ _ => rfl) <| (write _).seq fun _ _ => modify (fun _ _ _ => rfl) fun _ hid => hid

lemma queueToken (element : ElementId) (text : Bytes) (name : Option VariableId)
    (hpool : Pool.Sound r.forest) : p.Repeats (Run.queueToken element text name) r := by
  refine (alloc _ hpool).seq fun id _ => (putBack _).seq fun _ _ => (write _).seq fun _ _ => ?_
  cases name with
  | none => exact pure _
  | some name => exact (bindVariable name id).seq fun _ _ => pure _

lemma dropAside : p.Repeats Run.dropAside r :=
  glance (fun _ _ _ => rfl) <| (write _).seq fun _ _ => modify (fun _ _ _ => rfl) fun _ hid => hid

/-- Whatever a caller asks for is repeated, if the log tells of it. -/
lemma perform {request : Request} {turns : Nat} (ht : Tidy False r) (hlogged : request.IsLogged)
    (hparse : ∀ entry, request = .parse entry → p.Repeats (Run.parse m turns entry) r)
    (hundo : ∀ target, request = .undoTo target → p.Repeats (Run.undoTo m target) r) :
    p.Repeats (Run.perform m turns request) r := by
  cases request with
  | attach stream => exact (attach ht.attached).seq fun _ _ => pure _
  | detach => exact hlogged.elim
  | parse entry => exact (hparse entry rfl).seq fun _ _ => pure _
  | undoTo target => exact (hundo target rfl).seq fun _ _ => pure _
  | pushText text => exact (pushText text).seq fun _ _ => pure _
  | pushTree tree ignore => exact (pushTree tree ignore ht.pool).seq fun _ _ => pure _
  | queueToken element text name =>
    exact (queueToken element text name ht.pool).seq fun _ _ => pure _
  | bind name id => exact (bindVariable name id).seq fun _ _ => pure _
  | leaveData data => exact (write _).seq fun _ _ => pure _
  | dropAside => exact dropAside.seq fun _ _ => pure _
  | reject => exact rejectNow.seq fun _ _ => pure _
  | giveUpLog => exact hlogged.elim
  | editNodes edit => exact hlogged.elim

end Repeats

end Reprise

end Rewind.Run
