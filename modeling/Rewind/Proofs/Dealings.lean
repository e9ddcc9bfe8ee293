import Rewind.Proofs.Requests

/-!
# Dealings with a run

A caller asks one thing after the other of a run, and between two requests it may set when the run
is to stop or to pause, or take out the events told so far.  `Dealings` are all of this, with what
was replied.

A fatal error of a parse, or of taking something back, ends the run for these two: from then on they
are refused, and nothing changes.  No other request looks at whether the run is over, and none ends
it, whatever error it meets.
-/

namespace Rewind.Run

open Attempt Op

/-- The error, if the operation failed with one. -/
def Result.error? {α : Type} : Result α → Option Error
  | .error (.error e) _ => some e
  | _ => none

lemma Result.eq_error_left {α : Type} {x : Result α} {e : Error} (h : Result.error? x = some e) :
    x = .error (.error e) (Result.left x) := by
  rcases x with ⟨a, s⟩ | ⟨_ | _, s⟩ <;> cases h
  rfl

/-- What a caller sets at will while a run waits. -/
inductive Sets (r : Run) : Run → Prop
  | stop : Sets r r.stop
  | pauseAt (target : Option Nat) : Sets r (r.pauseAt target)
  | takeEvents : Sets r r.takeEvents.2

/-- A run after all that its caller asked for and set since the start, with the replies, the latest
first. -/
inductive Dealings (m : Machine) (start : Run) : Dialogue → Run → Prop
  | start : Dealings m start [] start
  | asked {log : Dialogue} {r s : Run} {turns : Nat} {request : Request}
      {answer : Except Error Reply} :
    Dealings m start log r → Replied (perform m turns request r) answer s →
    Dealings m start ((request, answer) :: log) s
  | set {log : Dialogue} {r s : Run} :
    Dealings m start log r → Sets r s → Dealings m start log s

lemma Dealings.replied {m : Machine} {start : Run} {log : Dialogue} {r s : Run} {turns : Nat}
    {request : Request} {x : Result Reply} {answer : Except Error Reply}
    (h : Dealings m start log r) (hperform : perform m turns request r = x)
    (hreplied : Replied x answer s) : Dealings m start ((request, answer) :: log) s :=
  .asked h (hperform ▸ hreplied)

/-- A property that no setting has to do with. -/
lemma Sets.keeps {I : Run → Prop} {r s : Run} (h : Sets r s)
    (hI : ∀ target stopping events, I r → I { r with target, stopping, events }) (hr : I r) :
    I s := by
  cases h with
  | stop => exact hI r.target true r.events hr
  | pauseAt target => exact hI target r.stopping r.events hr
  | takeEvents => exact hI r.target r.stopping [] hr

lemma Replied.left {x : Result Reply} {answer : Except Error Reply} {s : Run}
    (h : Replied x answer s) : Result.left x = s := by
  cases h <;> rfl

namespace Request

/-- Whether the request is refused once the run is over. -/
def isGuarded : Request → Bool
  | parse _ | undoTo _ => true
  | _ => false

end Request

/-- A parse, or taking something back, has failed for good. -/
def EndsRun (entry : Request × Except Error Reply) : Prop :=
  entry.1.isGuarded = true ∧ ∃ e, entry.2 = .error e ∧ e.isFatal = true

variable {m : Machine} {start r s : Run} {turns : Nat} {request : Request}
  {answer : Except Error Reply} {log : Dialogue} {op : Op Status}

/-! ## What is guarded -/

/-- What a guarded operation comes to. -/
inductive Guarded (op : Op Status) (r : Run) : Except Error Reply → Run → Prop
  | refused : r.aborted = true → Guarded op r (.error .aborted) r
  | answered {status : Status} {s : Run} :
    r.aborted = false → op r = .ok status s →
    Guarded op r (.ok (.status status)) { s with events := .suspended status :: s.events }
  | halted {e : Error} {s : Run} :
    r.aborted = false → op r = .error (.error e) s → e.isFatal = false →
    Guarded op r (.error e) s
  | ended {e : Error} {s : Run} :
    r.aborted = false → op r = .error (.error e) s → e.isFatal = true →
    Guarded op r (.error e) { s with aborted := true, events := .failed e :: s.events }

lemma replied_unlessAborted
    (h : Replied ((do return .status (← unlessAborted op) : Op Reply) r) answer s) :
    Guarded op r answer s := by
  cases haborted : r.aborted with
  | true =>
    rw [bind_error (show unlessAborted op r = _ from if_pos haborted)] at h
    cases h
    exact .refused haborted
  | false =>
    have hrun : unlessAborted op r = _ := if_neg (by simp [haborted])
    cases hop : op r with
    | ok status t =>
      rw [hop] at hrun
      rw [bind_ok hrun] at h
      cases h
      exact .answered haborted hop
    | error x t =>
      rw [hop] at hrun
      cases x with
      | fault f =>
        rw [bind_error hrun] at h
        cases h
      | error e =>
        dsimp only at hrun
        split at hrun
        · rename_i he
          rw [bind_error hrun] at h
          cases h
          exact .ended haborted hop he
        · rename_i he
          rw [bind_error hrun] at h
          cases h
          exact .halted haborted hop (by simpa using he)

/-- A guarded request is a guarded operation. -/
lemma Request.guarded_of_replied (hguarded : request.isGuarded = true)
    (h : Replied (perform m turns request r) answer s) :
    (∃ entry, request = .parse entry ∧ Guarded (resume m turns entry) r answer s) ∨
      ∃ target, request = .undoTo target ∧ Guarded (goBack m target) r answer s := by
  cases request with
  | parse entry => exact .inl ⟨entry, rfl, replied_unlessAborted h⟩
  | undoTo target => exact .inr ⟨target, rfl, replied_unlessAborted h⟩
  | _ => cases hguarded

/-- A guarded operation that is not refused ends the run with a fatal error, or not at all. -/
lemma Guarded.aborted_iff (hop : Keeps (·.aborted = false) (·.aborted = false) op)
    (h : Guarded op r answer s) :
    s.aborted = true ↔ r.aborted = true ∨ ∃ e, answer = .error e ∧ e.isFatal = true := by
  cases h with
  | refused haborted => simp [haborted]
  | answered halive hrun => simp [halive, hop.ok halive hrun]
  | halted halive hrun he => simp [halive, hop.error halive hrun, he]
  | ended halive hrun he => simp [he]

/-! ## What is not -/

lemma grave_obliges : Law.grave.Obliges where
  toHandles := Law.grave_handles
  streams := Law.grave_takes.streams
  writes := Law.grave_writes _

/-- The errors of all other requests are fatal, so none of them tells that the run is over. -/
lemma grave_unguarded (hguarded : request.isGuarded = false) : Grave (perform m turns request) := by
  refine Law.Governs.grave fun r => grave_obliges.perform (fun _ => trivial) (fun _ => trivial)
    (fun _ _ _ _ => trivial) (fun _ => rfl) (fun _ _ => Law.grave_onScanner _ r)
    (fun _ => Law.grave_onScanner _ r) ?_ ?_
  · rintro entry rfl
    cases hguarded
  · rintro target rfl
    cases hguarded

/-- No other request changes whether the run is over. -/
lemma aborted_unguarded (hguarded : request.isGuarded = false)
    (h : Replied (perform m turns request r) answer s) : s.aborted = r.aborted := by
  have hinert : Inert fun q => q.aborted = r.aborted :=
    .of_part (fun _ _ _ _ _ _ _ _ _ _ _ _ _ => rfl) _
  rw [← h.left]
  refine (keeps_perform hinert (fun _ _ _ _ hq => hq)
    (fun _ _ => Keeps.onScanner (fun _ _ hq => hq) _)
    (fun _ => Keeps.onScanner (fun _ _ hq => hq) _) ?_ ?_).left rfl
  · rintro entry rfl
    cases hguarded
  · rintro target rfl
    cases hguarded

/-! ## Runs that are over -/

/-- A run is over if and only if a parse, or taking something back, has failed for good. -/
lemma Dealings.aborted_iff (hstart : start.aborted = false) (h : Dealings m start log r) :
    r.aborted = true ↔ ∃ entry ∈ log, EndsRun entry := by
  induction h with
  | start => simp [hstart]
  | @asked log r s turns request answer _ hreplied ih =>
    have hends : EndsRun (request, answer) ↔
        request.isGuarded = true ∧ ∃ e, answer = .error e ∧ e.isFatal = true := .rfl
    rw [List.exists_mem_cons_iff, hends]
    cases hguarded : request.isGuarded with
    | false => simp [aborted_unguarded hguarded hreplied, ih]
    | true =>
      have hiff : s.aborted = true ↔
          r.aborted = true ∨ ∃ e, answer = .error e ∧ e.isFatal = true := by
        rcases request.guarded_of_replied hguarded hreplied with ⟨entry, -, h⟩ | ⟨target, -, h⟩
        · exact h.aborted_iff (detached_alive.resume turns entry)
        · exact h.aborted_iff (detached_alive.goBack target)
      rw [hiff, ih, or_comm]
      simp
  | set _ hset ih =>
    have hsame := hset.keeps (I := (·.aborted = _)) (fun _ _ _ hr => hr) rfl
    rw [hsame, ih]

/-- Once a parse or taking something back has failed for good, the run is over: both are refused,
and change nothing.  Nothing else ends a run, whatever error it meets, and no other request is
refused because the run is over. -/
theorem fatal_ends (hstart : start.aborted = false) (h : Dealings m start log r) :
    (r.aborted = true ↔ ∃ entry ∈ log, EndsRun entry) ∧
    (r.aborted = true → ∀ turns request, request.isGuarded = true →
      perform m turns request r = .error (.error .aborted) r) ∧
    ∀ turns request answer s, request.isGuarded = false →
      Replied (perform m turns request r) answer s →
      answer ≠ .error .aborted ∧ s.aborted = r.aborted := by
  refine ⟨h.aborted_iff hstart, fun haborted turns request hguarded => ?_,
    fun turns request answer s hguarded hreplied =>
      ⟨?_, aborted_unguarded hguarded hreplied⟩⟩
  · have hrefused (op : Op Status) : unlessAborted op r = .error (.error .aborted) r :=
      if_pos haborted
    cases request with
    | parse entry => exact bind_error (hrefused _) _
    | undoTo target => exact bind_error (hrefused _) _
    | _ => cases hguarded
  · rintro rfl
    cases hperform : perform m turns request r with
    | ok reply t =>
      rw [hperform] at hreplied
      cases hreplied
    | error x t =>
      rw [hperform] at hreplied
      cases hreplied
      cases grave_unguarded hguarded hperform

/-- Without a stream there is no token behind the one that was queued, and the run is over. -/
theorem fatal_ends_letter : ∃ r,
    Dealings letterMachine (initial letterMachine (Pool.empty 1 1) none)
      [(.parse .start, .error (.scan .notAttached)), (.queueToken 1 [97] none, .ok (.node 0))] r ∧
    r.aborted = true ∧
    perform letterMachine 20 (.parse .start) r = .error (.error .aborted) r ∧
    perform letterMachine 20 (.undoTo 0) r = .error (.error .aborted) r := by
  have hqueued := Result.eq_ok_left (show Result.answer? (perform letterMachine 0
    (.queueToken 1 [97] none) (initial letterMachine (Pool.empty 1 1) none)) = some (.node 0) from
      rfl)
  generalize hq : Result.left (perform letterMachine 0 _ _) = q at hqueued
  have hparse := Result.eq_error_left (show Result.error?
    (perform letterMachine 20 (.parse .start) q) = some (.scan .notAttached) by
      subst hq
      decide +kernel)
  generalize Result.left (perform letterMachine 20 _ _) = r at hparse
  have hdealings : Dealings letterMachine (initial letterMachine (Pool.empty 1 1) none)
      [(.parse .start, .error (.scan .notAttached)), (.queueToken 1 [97] none, .ok (.node 0))] r :=
    .replied (.replied .start hqueued (.ok _ _)) hparse (.error _ _)
  obtain ⟨hiff, hrefused, -⟩ := fatal_ends rfl hdealings
  have hover := hiff.2 ⟨_, List.mem_cons_self, rfl, _, rfl, rfl⟩
  exact ⟨r, hdealings, hover, hrefused hover 20 (.parse .start) rfl,
    hrefused hover 20 (.undoTo 0) rfl⟩

/-- A token that finds no slot is a fatal error, but the parse behind it is not refused.  That parse
fails for good, but text can still be pushed behind it. -/
theorem fatal_unheeded : ∃ q r s t,
    perform letterMachine 0 (.queueToken 1 [97] none)
      { letterStart with forest := Pool.empty 1 1 } = .ok (.node 0) q ∧
    perform letterMachine 0 (.queueToken 1 [97] none) q =
      .error (.error (.alloc (.blockLimit 1))) r ∧
    perform letterMachine 20 (.parse .start) r = .error (.error (.alloc (.blockLimit 1))) s ∧
    s.stack ≠ r.stack ∧
    perform letterMachine 0 (.pushText [98]) s = .ok .accepted t ∧ t.content ≠ s.content := by
  have hqueued := Result.eq_ok_left (show Result.answer? (perform letterMachine 0
    (.queueToken 1 [97] none) { letterStart with forest := Pool.empty 1 1 }) =
      some (.node 0) from rfl)
  generalize hq : Result.left (perform letterMachine 0 _ _) = q at hqueued
  have hfull := Result.eq_error_left (show Result.error? (perform letterMachine 0
    (.queueToken 1 [97] none) q) = some (.alloc (.blockLimit 1)) by
      subst hq
      decide +kernel)
  generalize hr : Result.left (perform letterMachine 0 _ _) = r at hfull
  have hparse := Result.eq_error_left (show Result.error?
    (perform letterMachine 20 (.parse .start) r) = some (.alloc (.blockLimit 1)) by
      subst hr hq
      decide +kernel)
  generalize hs : Result.left (perform letterMachine 20 _ _) = s at hparse
  have hstack : s.stack ≠ r.stack := by
    subst hs hr hq
    decide +kernel
  obtain ⟨stream, hstream⟩ := Option.isSome_iff_exists.1 (show s.scanner.stream.isSome by
    subst hs hr hq
    decide +kernel)
  refine ⟨q, r, s, _, hqueued, hfull, hparse, hstack, bind_ok (pushText_apply hstream [98]) _, ?_⟩
  intro hsame
  have hlength := congrArg List.length hsame
  simp [content, hstream, Stream.content, Stream.pushText, Stream.unread] at hlength

end Rewind.Run
