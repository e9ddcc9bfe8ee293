import Rewind.Proofs.Confines
import Rewind.Proofs.Safety

/-!
# Going forward comes somewhere

Four loops lie within one another on the way to the next decision.  A read asks the source again
while bytes are missing, and a look ahead reads again while the item is missing; a scan looks ahead
again while it has not ended; a lookahead is acquired again while what was found is set aside; and
the run goes forward again while it has no lookahead.  Here each of them is bounded by what it
counts: deliveries, bytes in front of the first tree, items of the content.  The loops are run with
a bound, and come to nothing (`none`) where the bound is too low.

The bound on acquiring rests on tokens not being empty.  Tables may well ask for an empty one, by an
action on leaving a state, by a mark that was set at the front or at the end of the text; it does
not count as found then.

What a turn looks up may be missing, from any tables and from any pool.  Under validated tables, and
where every node has its owner, nothing is: each turn leaves its state and the owners as they are.
-/

namespace Rewind

namespace Stream

variable {s t : Stream}

/-! ## Reading -/

/-- What a source answers to one request. -/
inductive Answer where
  /-- Bytes; none of them if the source has ended. -/
  | data (bytes : Bytes)
  | failure (message : String)
  | interrupted
  deriving DecidableEq, Repr

/-- One request for at most `size` bytes.  What was delivered beyond them is kept for later. -/
def request (size : Nat) : List Delivery → Answer × List Delivery
  | [] => (.data [], [])
  | .data bytes :: source =>
    if bytes.length ≤ size then (.data bytes, source)
    else (.data (bytes.take size), .data (bytes.drop size) :: source)
  | .failure message :: source => (.failure message, source)
  | .interrupted :: source => (.interrupted, source)

/-- `pull` as a loop of so many requests at most, which have brought `total` bytes before. -/
def pullWithin (n requests total : Nat) (s : Stream) : Option (EStateM.Result String Stream Nat) :=
  if n ≤ total ∨ s.sourceEnded = true then some (.ok total s)
  else
    match requests with
    | 0 => none
    | requests + 1 =>
      match request (max readLength (n - total)) s.source with
      | (.data [], source) => pullWithin n requests total { s with source, sourceEnded := true }
      | (.data bytes, source) =>
        pullWithin n requests (total + bytes.length)
          { s with buffered := s.buffered ++ bytes.map .byte, source }
      | (.interrupted, source) => pullWithin n requests total { s with source }
      | (.failure message, source) => some (.error message { s with source })

/-- `peek` as a loop of so many reads at most, of so many requests each. -/
def peekWithin (requests pulls offset : Nat) (s : Stream) :
    Option (EStateM.Result String Stream (Option Item)) :=
  if s.buffered.length ≤ offset ∧ s.sourceEnded = false then
    match pulls with
    | 0 => none
    | pulls + 1 =>
      match pullWithin (offset + 1 - s.buffered.length) requests 0 s with
      | some (.ok _ t) => peekWithin requests pulls offset t
      | some (.error message t) => some (.error message t)
      | none => none
  else some (.ok s.buffered[offset]? s)

/-- What was fetched, behind `total` bytes that had come before. -/
def brought (total : Nat) (got : Fetched) (s : Stream) : EStateM.Result String Stream Nat :=
  let t := { s with
    buffered := s.buffered ++ got.bytes.map .byte
    source := got.source
    sourceEnded := got.ended }
  match got.failure with
  | some message => .error message t
  | none => .ok (total + got.bytes.length) t

lemma brought_append (total : Nat) (bytes : Bytes) (got : Fetched) (s : Stream)
    (source : List Delivery) :
    brought total { got with bytes := bytes ++ got.bytes } s =
      brought (total + bytes.length) got
        { s with buffered := s.buffered ++ bytes.map .byte, source } := by
  unfold brought
  cases got.failure with
  | some message => simp
  | none => simp [Nat.add_assoc]

lemma pull_eq_brought (n : Nat) (h : s.sourceEnded = false) :
    pull n s = brought 0 (fetch n s.source) s := by
  have hopen : ¬ s.sourceEnded = true := by
    rw [h]
    exact Bool.false_ne_true
  rw [pull, if_neg hopen]
  cases hfailure : (fetch n s.source).failure with
  | some message => simp [brought, hfailure]
  | none => simp [brought, hfailure]

lemma pullWithin_done {n requests total : Nat} (h : n ≤ total ∨ s.sourceEnded = true) :
    pullWithin n requests total s = some (.ok total s) := by
  rw [pullWithin.eq_def, if_pos h]

lemma asks_of_lt {n total : Nat} (hlt : total < n) (hended : s.sourceEnded = false) :
    ¬(n ≤ total ∨ s.sourceEnded = true) := by
  rintro (hle | hends)
  · omega
  · rw [hended] at hends
    cases hends

/-- Each request but the last one uses up a delivery. -/
lemma pullWithin_eq {n wanted total requests : Nat} {source : List Delivery} {s : Stream}
    (hwanted : n - total = wanted) (hsource : s.source = source) (hended : s.sourceEnded = false)
    (hrequests : source.length ≤ requests) :
    pullWithin n (requests + 1) total s = some (brought total (fetch wanted source) s) := by
  fun_induction fetch wanted source generalizing s total requests with
  | case1 source =>
    rw [pullWithin_done (.inl (by omega))]
    simp [brought, ← hsource, ← hended]
  | case2 wanted =>
    have hopen := asks_of_lt (show total < n by omega) hended
    rw [pullWithin, if_neg hopen, hsource]
    dsimp only [request]
    rw [pullWithin_done (.inr rfl)]
    simp [brought]
  | case3 wanted source ih =>
    have hopen := asks_of_lt (show total < n by omega) hended
    obtain ⟨requests, rfl⟩ := Nat.exists_eq_add_one_of_ne_zero
      (Nat.ne_of_gt (Nat.zero_lt_of_lt hrequests))
    rw [pullWithin, if_neg hopen, hsource]
    dsimp only [request]
    have hrest := ih (s := { s with source }) hwanted rfl hended
      (Nat.le_of_succ_le_succ hrequests)
    rw [hrest]
    rfl
  | case4 wanted message source =>
    have hopen := asks_of_lt (show total < n by omega) hended
    rw [pullWithin, if_neg hopen, hsource]
    simp [request, brought, hended]
  | case5 wanted source =>
    have hopen := asks_of_lt (show total < n by omega) hended
    rw [pullWithin, if_neg hopen, hsource]
    simp only [request, List.length_nil, Nat.zero_le, if_true]
    rw [pullWithin_done (.inr rfl)]
    simp [brought]
  | case6 wanted bytes source hne hle more =>
    rename_i ih
    have hopen := asks_of_lt (show total < n by omega) hended
    obtain ⟨requests, rfl⟩ := Nat.exists_eq_add_one_of_ne_zero
      (Nat.ne_of_gt (Nat.zero_lt_of_lt hrequests))
    obtain ⟨b, rest, rfl⟩ := List.exists_cons_of_ne_nil hne
    rw [pullWithin, if_neg hopen, hsource, hwanted, request, if_pos hle]
    dsimp only
    have hrest := @ih (total + (b :: rest).length) requests
      { s with buffered := s.buffered ++ (b :: rest).map .byte, source } (by omega) rfl hended
      (Nat.le_of_succ_le_succ hrequests)
    rw [hrest]
    exact congrArg some (brought_append _ _ _ _ _).symm
  | case7 wanted bytes source hne hlt =>
    have hopen := asks_of_lt (show total < n by omega) hended
    have hsize :
        (bytes.take (max readLength (wanted + 1))).length = max readLength (wanted + 1) := by
      rw [List.length_take]
      omega
    obtain ⟨b, rest, htake⟩ : ∃ b rest, bytes.take (max readLength (wanted + 1)) = b :: rest := by
      apply List.exists_cons_of_ne_nil
      intro hnil
      rw [hnil, List.length_nil] at hsize
      omega
    rw [pullWithin, if_neg hopen, hsource, hwanted, request, if_neg hlt, htake]
    dsimp only
    rw [htake] at hsize
    rw [pullWithin_done (.inl (by omega)), brought]
    simp [hended]

/-- Looking ahead ends after one read, of at most one request more than there are deliveries. -/
theorem peekWithin_eq (offset : Nat) (s : Stream) :
    peekWithin (s.source.length + 1) 1 offset s = some (peek offset s) := by
  unfold peekWithin
  by_cases hmissing : s.buffered.length ≤ offset ∧ s.sourceEnded = false
  · obtain ⟨hlength, hended⟩ := hmissing
    rw [if_pos ⟨hlength, hended⟩]
    have hpull : pullWithin (offset + 1 - s.buffered.length) (s.source.length + 1) 0 s =
        some (pull (offset + 1 - s.buffered.length) s) := by
      rw [pull_eq_brought _ hended]
      exact pullWithin_eq (Nat.sub_zero _) rfl hended (Nat.le_refl _)
    simp only [hpull, peek, List.getElem?_eq_none hlength]
    cases hresult : pull (offset + 1 - s.buffered.length) s with
    | error message t => rfl
    | ok k t =>
      obtain ⟨hextends, henough⟩ := extends_of_pull hresult
      simp only
      rw [peekWithin, if_neg]
      rintro ⟨hshort, hopen⟩
      rcases henough with hlong | hends
      · omega
      · rw [hends] at hopen
        cases hopen
  · rw [if_neg hmissing, peek]
    cases hahead : s.buffered[offset]? with
    | some item => rfl
    | none =>
      have hends : s.sourceEnded = true := by
        by_contra hopen
        exact hmissing ⟨List.getElem?_eq_none_iff.1 hahead, eq_false_of_ne_true hopen⟩
      dsimp only
      rw [pull, if_pos hends]
      simp [hahead]

end Stream

namespace Scanner.Scan

/-! ## Scanning -/

/-- `run` as a loop of so many steps at most. -/
def runWithin (t : Tables) : (steps : Nat) → Scan →
    Option (EStateM.Result (Failure Error) Scan Outcome)
  | 0, _ => none
  | steps + 1, s =>
    match step t s with
    | .ok none u => runWithin t steps u
    | .ok (some outcome) u => some (.ok outcome u)
    | .error e u => some (.error e u)

/-- Each step but the last one passes a byte in front of the first tree. -/
theorem runWithin_eq {t : Tables} {steps : Nat} {s : Scan} (hs : Truthful t s)
    (hsteps : Stream.leading s.stream.content + 1 ≤ steps + s.offset) :
    runWithin t steps s = some (run t s) := by
  induction steps generalizing s with
  | zero =>
    have hoffset := Nat.le_trans hs.offset s.stream.leading_buffered_le
    omega
  | succ steps ih =>
    rw [runWithin, run]
    cases hstep : step t s with
    | error e u => rfl
    | ok outcome u =>
      cases outcome with
      | some outcome => rfl
      | none =>
        obtain ⟨hcontent, hoffset, -⟩ := step_eq_none hstep
        obtain ⟨-, htrue, -⟩ := Keeps.step hs hstep
        apply ih htrue
        rw [hcontent, hoffset]
        omega

end Scanner.Scan

namespace Run

open Attempt Op

variable {m : Machine} {turns : Nat} {r s : Run}

/-! ## Acquiring -/

/-- What acquiring has changed, as far as it counts for getting on. -/
inductive Progresses (r : Run) : Acquired → Run → Prop
  | queued {s : Run} : s.queue ≠ [] → Progresses r .queued s
  | skipped {s : Run} : s.content.length < r.content.length → s.queue = r.queue →
    Progresses r .skipped s
  | suspended {status : Status} {s : Run} : Progresses r (.suspended status) s
  | noToken {region : RegionId} {s : Run} : Progresses r (.noToken region) s

/-- A token that is taken is not empty, so less is left of the content. -/
lemma progresses_takeToken {region : RegionId} {element : ElementId} {length : Nat}
    {a : Acquired} {stream : Stream} (hs : r.scanner.stream = some stream)
    (hvalid : (Scanner.Outcome.token element length).Valid m.scanner stream)
    (h : takeToken m region element length r = .ok a s) : Progresses r a s := by
  obtain ⟨-, hpos, hle⟩ := hvalid
  rcases hextract : stream.extract length with ⟨text, rest⟩
  obtain ⟨hcontent, -, -, hlength⟩ := Stream.content_extract hextract
  have hless : rest.content.length < r.content.length := by
    rw [(content_eq hs).1, hcontent, List.length_append, List.length_map]
    omega
  have hstream : onStream (·.extract length) r = .ok text
      { r with scanner := { r.scanner with stream := some rest } } :=
    onStream_eq_ok.2 ⟨stream, hs, by rw [hextract], by rw [hextract]⟩
  rw [takeToken, get_bind, bind_ok hstream, bind_ok (tookInput_apply _), marked_scanner] at h
  cases hgenerates : m.grammar.generates element with
  | true =>
    simp only [hgenerates, if_true, write_bind, modify_bind, pure_apply] at h
    cases h
    exact .suspended
  | false =>
    simp only [hgenerates, Bool.false_eq_true, if_false] at h
    obtain ⟨id, t, hmake, h⟩ := bind_eq_ok.1 h
    obtain ⟨forest, -, rfl⟩ := alloc_eq_ok.1 hmake
    rw [tell_bind] at h
    cases hignores : m.grammar.ignores element with
    | true =>
      simp only [hignores, if_true] at h
      obtain ⟨u, t, hset, h⟩ := bind_eq_ok.1 h
      obtain ⟨n, -, rfl⟩ := setAside_eq_ok.1 hset
      cases h
      exact .skipped hless (sameCourse_marked r).2.2.1
    | false =>
      simp only [hignores, Bool.false_eq_true, if_false, putBack, modify_bind, write_bind,
        pure_apply] at h
      cases h
      exact .queued (by simp)

/-- A tree that is taken is no longer part of the content. -/
lemma progresses_takeTree {region : RegionId} {id : NodeId} {ignore : Bool} {a : Acquired}
    {stream : Stream} (hs : r.scanner.stream = some stream)
    (hvalid : (Scanner.Outcome.tree id ignore).Valid m.scanner stream)
    (h : takeTree region id ignore r = .ok a s) : Progresses r a s := by
  obtain ⟨rest, htake, hcontent, -, -⟩ := Stream.takeTree?_eq_some hvalid
  have hless : rest.content.length < r.content.length := by
    rw [(content_eq hs).1, hcontent, List.length_cons]
    omega
  rw [takeTree] at h
  obtain ⟨u, t, hchange, h⟩ := bind_eq_ok.1 h
  obtain ⟨stream', hs', rfl⟩ := changeStream_eq_ok.1 hchange
  obtain rfl : stream = stream' := Option.some.inj (hs.symm.trans hs')
  simp only [htake] at h
  rw [bind_ok (tookInput_apply _), marked_scanner, write_bind] at h
  obtain ⟨n, t, hread, h⟩ := bind_eq_ok.1 h
  obtain ⟨-, rfl⟩ := node_eq_ok.1 hread
  rw [tell_bind] at h
  cases ignore with
  | true =>
    simp only [if_true] at h
    obtain ⟨u, t, hset, h⟩ := bind_eq_ok.1 h
    obtain ⟨n', -, rfl⟩ := setAside_eq_ok.1 hset
    cases h
    exact .skipped hless (sameCourse_marked r).2.2.1
  | false =>
    simp only [Bool.false_eq_true, if_false, putBack, modify_bind, pure_apply] at h
    cases h
    exact .queued (by simp)

lemma progresses_meetEnd {region : RegionId} {a : Acquired} (h : meetEnd m region r = .ok a s) :
    Progresses r a s := by
  rw [meetEnd, get_bind] at h
  split at h
  · simp only [write_bind, modify_bind, pure_apply] at h
    cases h
    exact .suspended
  · obtain ⟨id, t, hmake, h⟩ := bind_eq_ok.1 h
    obtain ⟨forest, -, rfl⟩ := alloc_eq_ok.1 hmake
    simp only [tell_bind, putBack, modify_bind, write_bind, pure_apply] at h
    cases h
    exact .queued (by simp)

lemma Progresses.rescans {t : Run} {a : Acquired} (h : Rescans r t)
    (hprogress : Progresses t a s) : Progresses r a s := by
  have hcontent := h.content.1
  obtain ⟨-, -, scanner, -, -, -, rfl⟩ := h
  cases hprogress with
  | queued hqueue => exact .queued hqueue
  | skipped hless hqueue => exact .skipped (hcontent ▸ hless) hqueue
  | suspended => exact .suspended
  | noToken => exact .noToken

lemma progresses_acquireIn {first : RegionId} {regions : List RegionId} {a : Acquired}
    (h : acquireIn m first regions r = .ok a s) : Progresses r a s := by
  induction regions generalizing r with
  | nil =>
    cases h
    exact .noToken
  | cons region regions ih =>
    rw [acquireIn] at h
    obtain ⟨outcome, t, hscan, h⟩ := bind_eq_ok.1 h
    obtain ⟨stream, hrescans, hs, hvalid, -⟩ := scan_ok hscan
    apply Progresses.rescans hrescans
    cases outcome with
    | noToken => exact ih h
    | eof => exact progresses_meetEnd h
    | tree id ignore => exact progresses_takeTree hs hvalid h
    | token element length => exact progresses_takeToken hs hvalid h

theorem progresses_acquire {a : Acquired} (h : acquire m r = .ok a s) : Progresses r a s := by
  rw [acquire, get_bind] at h
  obtain ⟨regions, t, hlookup, hacquire⟩ := bind_eq_ok.1 h
  obtain ⟨-, rfl⟩ := lookup_eq_ok.1 hlookup
  exact progresses_acquireIn hacquire

/-- `acquire` as a loop that goes on while something is set aside, so many times at most. -/
def acquireWithin (m : Machine) : (rounds : Nat) → Run →
    Option (EStateM.Result (Failure Error) Run Acquired)
  | 0, _ => none
  | rounds + 1, r =>
    match acquire m r with
    | .ok .skipped s => acquireWithin m rounds s
    | .ok a s => some (.ok a s)
    | .error e s => some (.error e s)

/-- Each round but the last one takes something from the content. -/
lemma acquireWithin_isSome {rounds : Nat} (h : r.content.length < rounds) :
    ∃ result, acquireWithin m rounds r = some result ∧ ∀ s, result ≠ .ok .skipped s := by
  induction rounds generalizing r with
  | zero => omega
  | succ rounds ih =>
    rw [acquireWithin]
    cases hacquire : acquire m r with
    | error e s =>
      refine ⟨.error e s, rfl, fun t ht => ?_⟩
      cases ht
    | ok a s =>
      have hprogress := progresses_acquire hacquire
      cases hprogress with
      | skipped hless hqueue => exact ih (by omega)
      | queued hqueue =>
        refine ⟨.ok .queued s, rfl, fun t ht => ?_⟩
        cases ht
      | @suspended status =>
        refine ⟨.ok (.suspended status) s, rfl, fun t ht => ?_⟩
        cases ht
      | @noToken region =>
        refine ⟨.ok (.noToken region) s, rfl, fun t ht => ?_⟩
        cases ht

/-! ## Going forward -/

/-- Going forward so many times, each time without a lookahead and without an answer. -/
inductive Approaches (m : Machine) : (turns : Nat) → Run → Run → Prop
  | start {r : Run} : Approaches m 0 r r
  | turn {turns : Nat} {r s t : Run} : r.queue = [] → goForward m r = .ok none s →
    Approaches m turns s t → Approaches m (turns + 1) r t

/-- The run has a lookahead to decide on, or goes forward to an answer, to an error, or to turning
back. -/
inductive Arrives (m : Machine) (r : Run) : Prop
  | decision {id : NodeId} {rest : List NodeId} : r.queue = id :: rest → Arrives m r
  | suspension {status : Status} {s : Run} : r.queue = [] → goForward m r = .ok (some status) s →
    Arrives m r
  | error {e : Error} {s : Run} : r.queue = [] → goForward m r = .error (.error e) s → Arrives m r
  | turnsBack {s : Run} : r.queue = [] → goForward m r = .ok none s →
    s.point = .reverse .backtrack → Arrives m r

/-- Something is missing that the run needs to go forward. -/
def Falters (m : Machine) (r : Run) : Prop :=
  ∃ f s, r.queue = [] ∧ goForward m r = .error (.fault f) s

lemma arrives_or_falters_of_error {e : Failure Error} (hqueue : r.queue = [])
    (h : goForward m r = .error e s) : Arrives m r ∨ Falters m r := by
  cases e with
  | error e => exact .inl (.error hqueue h)
  | fault f => exact .inr ⟨f, s, hqueue, h⟩

/-- Without a lookahead, what acquiring comes to is what going forward goes on with. -/
lemma goForward_of_acquire {a : Acquired} (hqueue : r.queue = [])
    (hacquire : acquire m r = .ok a s) :
    (a = .queued → goForward m r = .ok none s) ∧ (a = .skipped → goForward m r = .ok none s) ∧
      (∀ status, a = .suspended status → goForward m r = .ok (some status) s) ∧
      ∀ region, a = .noToken region → goForward m r =
        (turnBack (.lexical region s.position) >>= fun _ => pure none) s := by
  rw [goForward, get_bind, hqueue]
  refine ⟨?_, ?_, ?_, ?_⟩
  · rintro rfl
    exact bind_ok hacquire _
  · rintro rfl
    exact bind_ok hacquire _
  · rintro status rfl
    exact bind_ok hacquire _
  · rintro region rfl
    exact bind_ok hacquire _

lemma goForward_of_acquire_error {e : Failure Error} (hqueue : r.queue = [])
    (hacquire : acquire m r = .error e s) : goForward m r = .error e s := by
  rw [goForward, get_bind, hqueue]
  exact bind_error hacquire _

/-- A run without a lookahead arrives, or goes one turn and holds less or has a lookahead, unless
something is missing. -/
lemma arrives_or_turns (hqueue : r.queue = []) :
    (Arrives m r ∨ Falters m r) ∨ ∃ s, goForward m r = .ok none s ∧
      (s.queue ≠ [] ∨ s.content.length < r.content.length) := by
  cases hacquire : acquire m r with
  | error e s =>
    exact .inl (arrives_or_falters_of_error hqueue (goForward_of_acquire_error hqueue hacquire))
  | ok a s =>
    obtain ⟨hqueued, hskipped, hsuspended, hnone⟩ := goForward_of_acquire hqueue hacquire
    have hprogress := progresses_acquire hacquire
    cases hprogress with
    | queued hne => exact .inr ⟨s, hqueued rfl, .inl hne⟩
    | skipped hless _ => exact .inr ⟨s, hskipped rfl, .inr hless⟩
    | @suspended status => exact .inl (.inl (.suspension hqueue (hsuspended status rfl)))
    | @noToken region =>
      have hforward := hnone region rfl
      cases hback : turnBack (.lexical region s.position) s with
      | error e t =>
        rw [bind_error hback] at hforward
        exact .inl (arrives_or_falters_of_error hqueue hforward)
      | ok u t =>
        rw [bind_ok hback] at hforward
        obtain ⟨-, rfl⟩ := turnBack_ok hback
        exact .inl (.inl (.turnsBack hqueue hforward rfl))

/-- Each turn but the last one takes something from the content. -/
theorem exists_arrives (r : Run) :
    ∃ turns s, turns ≤ r.content.length + 1 ∧ Approaches m turns r s ∧
      (Arrives m s ∨ Falters m s) := by
  induction hlength : r.content.length using Nat.strongRecOn generalizing r with
  | ind k ih =>
    cases hqueue : r.queue with
    | cons id rest => exact ⟨0, r, by omega, .start, .inl (.decision hqueue)⟩
    | nil =>
      rcases arrives_or_turns hqueue with harrives | ⟨s, hforward, hne | hless⟩
      · exact ⟨0, r, by omega, .start, harrives⟩
      · obtain ⟨id, rest, hs⟩ := List.exists_cons_of_ne_nil hne
        exact ⟨1, s, by omega, .turn hqueue hforward .start, .inl (.decision hs)⟩
      · obtain ⟨turns, t, hturns, happroaches, harrives⟩ :=
          ih s.content.length (by omega) s rfl
        exact ⟨turns + 1, t, by omega, .turn hqueue hforward happroaches, harrives⟩

/-! ## Nothing is missing -/

/-- What a run goes forward on is there, if its nodes have their owners and its state exists. -/
theorem not_falters (hgrammar : m.grammar.Fits) (hscanner : m.scanner.Fits) (h : NodesOwned r)
    (hstate : r.state < m.grammar.states) : ¬ Falters m r := by
  rintro ⟨f, s, -, hforward⟩
  have hconfined : Obeys (Law.confined False) (goForward m) r :=
    (confined_turns hscanner).goForward (confined_serves hgrammar hstate)
  rcases hconfined.fault hforward with hlinks | ⟨hcut, -⟩
  · rcases safe_goForward h hforward with ⟨e, he, -⟩ | ⟨f', hf, hnone⟩
    · cases he
    · cases hf
      rw [hnone] at hlinks
      cases hlinks
  · exact hcut

lemma state_acquires {found : Acquired} (h : Acquires m r found s) : s.state = r.state := by
  have hmarked : (marked r).state = r.state := by
    unfold marked
    split <;> rfl
  cases h <;> first | rfl | exact hmarked

/-- A turn without a lookahead leaves every node its owner, and the state what it is. -/
theorem NodesOwned.goForward (h : NodesOwned r) (hqueue : r.queue = [])
    (hforward : goForward m r = .ok none s) : NodesOwned s ∧ s.state = r.state := by
  have hacquired {found : Acquired} {t u : Run} (hrescans : Rescans r t)
      (hacquires : Acquires m t found u) : NodesOwned u ∧ u.state = r.state := by
    have hstate : t.state = r.state := by
      obtain ⟨stream, rest, scanner, -, -, -, rfl⟩ := hrescans
      rfl
    have hmoves : Moves m False (fun _ _ => True) r u :=
      (moves_acquired h.toTidy h.orderly hqueue hrescans hacquires).1
    have hunpushed := (written_acquired hrescans hacquires).own.unpushed
    exact ⟨h.moves hmoves hunpushed, (state_acquires hacquires).trans hstate⟩
  cases goForward_ok h.pool h.attached hforward with
  | stepped hcons _ => cases hqueue.symm.trans hcons
  | acquired _ hrescans hacquires => exact hacquires.elim (hacquired hrescans) (hacquired hrescans)
  | refused _ hrescans hacquires _ =>
    obtain ⟨ht, hstate⟩ := hacquired hrescans hacquires
    exact ⟨ht.keep rfl rfl rfl rfl rfl ht.attached, hstate⟩

theorem Approaches.nodesOwned {r s : Run} (h : Approaches m turns r s) (hr : NodesOwned r) :
    NodesOwned s ∧ s.state = r.state := by
  induction h with
  | start => exact ⟨hr, rfl⟩
  | turn hqueue hforward _ ih =>
    obtain ⟨hs, hstate⟩ := hr.goForward hqueue hforward
    obtain ⟨ht, hstate'⟩ := ih hs
    exact ⟨ht, hstate'.trans hstate⟩

/-- **Going forward comes to a decision, an answer or an error**, whatever the tables say and
whatever the source does, unless something is missing; under validated tables nothing is.  Looking
ahead takes one read of finitely many requests; a scan takes one step more than there are bytes in
front of the first tree, at most; whatever is set aside leaves less of the content, so acquiring
does not go on for ever, and neither does going forward without a lookahead. -/
theorem acquiring_ends (m : Machine) :
    (∀ (stream : Stream) (offset : Nat),
      stream.peekWithin (stream.source.length + 1) 1 offset = some (stream.peek offset)) ∧
    (∀ (stream : Stream) (state : StateId),
      Scanner.Scan.runWithin m.scanner (Stream.leading stream.content + 1) { stream, state } =
        some (Scanner.Scan.run m.scanner { stream, state })) ∧
    (∀ r s : Run, acquire m r = .ok .skipped s → s.content.length < r.content.length) ∧
    (∀ r : Run, ∃ result, acquireWithin m (r.content.length + 1) r = some result ∧
      ∀ s, result ≠ .ok .skipped s) ∧
    (∀ r : Run, ∃ turns s, turns ≤ r.content.length + 1 ∧ Approaches m turns r s ∧
      (Arrives m s ∨ Falters m s)) ∧
    (m.grammar.validate = .ok () → m.scanner.validate = .ok () →
      ∀ r : Run, NodesOwned r → r.state < m.grammar.states →
        ∃ turns s, turns ≤ r.content.length + 1 ∧ Approaches m turns r s ∧ Arrives m s) := by
  refine ⟨fun stream offset => stream.peekWithin_eq offset, fun stream state => ?_, ?_, ?_,
    exists_arrives, fun hgrammar hscanner r hr hstate => ?_⟩
  · exact Scanner.Scan.runWithin_eq (Scanner.Scan.truthful_start _ _ _) (Nat.le_refl _)
  · intro r s h
    cases progresses_acquire h with
    | skipped hless hqueue => exact hless
  · intro r
    exact acquireWithin_isSome (Nat.lt_succ_self _)
  · obtain ⟨turns, s, hturns, happroaches, harrives⟩ := exists_arrives (m := m) r
    obtain ⟨hs, hsame⟩ := happroaches.nodesOwned hr
    have hthere := not_falters (Grammar.Tables.fits_of_validate hgrammar)
      (Scanner.Tables.fits_of_validate hscanner) hs (hsame ▸ hstate)
    exact ⟨turns, s, hturns, happroaches, harrives.resolve_right hthere⟩

end Run

end Rewind
