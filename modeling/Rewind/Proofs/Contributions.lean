import Rewind.Proofs.Dealings

/-!
# What callers contribute

A request that neither parses nor takes back puts something in front of a run, or changes what the
run is to do when it goes on.  Either it is refused, and nothing changes at all, or the log tells of
what it did, with records that no parse would write.  Streams that come and go, and nodes that are
changed by hand, are nothing that the log tells of.
-/

namespace Rewind.Run

open Attempt Op

/-- What a request comes to that neither parses nor takes back nor gives up the log. -/
inductive Contributes (r : Run) : Request → Except Error Reply → Run → Prop
  | refused {request : Request} {e : Error} :
    e.isFatal = true → (request ≠ .reject → ∀ misuse, e ≠ .misuse misuse) →
    (request = .reject → ∀ production commits, r.point ≠ .reduction production commits) →
    Contributes r request (.error e) r
  | attached {stream : Stream} : r.scanner.stream = none →
    Contributes r (.attach stream) (.ok .accepted)
      { r with scanner := { r.scanner with stream := some stream } }
  | detached {stream : Stream} : r.scanner.stream = some stream →
    Contributes r .detach (.ok (.stream stream)) { r with scanner := Scanner.detached }
  | noText : Contributes r (.pushText []) (.ok .accepted) r
  | text {stream : Stream} {text : Bytes} : r.scanner.stream = some stream → text ≠ [] →
    Contributes r (.pushText text) (.ok .accepted) { r with
      scanner := { r.scanner with stream := some (stream.pushText text) }
      log := r.log.append (.textPushed text.length) }
  | tree {stream : Stream} {tree : Node} {ignore : Bool} {slot : NodeId} {forest : Forest} :
    r.scanner.stream = some stream → Pool.alloc r.forest tree = (.ok slot, forest) →
    Contributes r (.pushTree tree ignore) (.ok (.node slot)) { r with
      forest
      scanner := { r.scanner with stream := some (stream.pushTree slot ignore) }
      log := r.log.append (.treePushed slot) }
  | token {element : ElementId} {text : Bytes} {id : NodeId} {forest : Forest} :
    Pool.alloc r.forest (.fabricated element text) = (.ok id, forest) →
    Contributes r (.queueToken element text none) (.ok (.node id)) { r with
      forest
      queue := r.queue ++ [id]
      log := r.log.append (.sent id) }
  | named {element : ElementId} {text : Bytes} {name : VariableId} {id : NodeId}
      {forest : Forest} :
    Pool.alloc r.forest (.fabricated element text) = (.ok id, forest) →
    Contributes r (.queueToken element text (some name)) (.ok (.node id)) { r with
      forest
      queue := r.queue ++ [id]
      log := (r.log.append (.sent id)).append (.bound name (r.bindings.get? name))
      bindings := r.bindings.insert name id }
  | bound {name : VariableId} {id : NodeId} :
    Contributes r (.bind name id) (.ok .accepted) { r with
      log := r.log.append (.bound name (r.bindings.get? name))
      bindings := r.bindings.insert name id }
  | data {data : Bytes} :
    Contributes r (.leaveData data) (.ok .accepted)
      { r with log := r.log.append (.action data) }
  | dropped :
    Contributes r .dropAside (.ok .accepted)
      { r with log := r.log.append (.dropped r.aside), aside := none }
  | rejected {production : ProductionId} {commits : Bool} :
    r.point = .reduction production commits →
    Contributes r .reject (.ok .accepted) { r with rejecting := true }
  | edited {edit : Forest → Forest} :
    Contributes r (.editNodes edit) (.ok .accepted) { r with forest := edit r.forest }

variable {m : Machine} {r s : Run} {turns : Nat} {request : Request}
  {answer : Except Error Reply}

lemma changeStream_error {f : Stream → Stream} {e : Error}
    (h : changeStream f r = .error (.error e) s) :
    s = r ∧ ∃ e', e = .scan e' := by
  unfold changeStream onStream onScanner Scanner.onStream at h
  cases hs : r.scanner.stream with
  | none =>
    simp only [hs] at h
    cases h
    exact ⟨rfl, _, rfl⟩
  | some stream =>
    simp only [hs] at h
    cases h

lemma alloc_fails {n : Node} {e : Error} (h : alloc n r = .error (.error e) s) :
    s = r ∧ ∃ e', e = .alloc e' := by
  refine ⟨alloc_error h, ?_⟩
  unfold alloc at h
  split at h <;> cases h
  exact ⟨_, rfl⟩

/-- A request that is refused by the scanner or the pool. -/
lemma Contributes.stopped {e : Error} (h : s = r ∧ ((∃ e', e = .scan e') ∨ ∃ e', e = .alloc e'))
    (hrequest : request ≠ .reject) : Contributes r request (.error e) s := by
  obtain ⟨rfl, ⟨e', rfl⟩ | ⟨e', rfl⟩⟩ := h
  · exact .refused rfl (fun _ _ => nofun) fun h => absurd h hrequest
  · exact .refused rfl (fun _ _ => nofun) fun h => absurd h hrequest

/-- A reply tells of an answer or of an error. -/
lemma Replied.cases_of {α : Type} {op : Op α} {reply : α → Reply}
    (h : Replied ((do return reply (← op) : Op Reply) r) answer s) :
    (∃ a, op r = .ok a s ∧ answer = .ok (reply a)) ∨
      ∃ e, op r = .error (.error e) s ∧ answer = .error e := by
  cases hop : op r with
  | ok a t =>
    rw [bind_ok hop] at h
    cases h
    exact .inl ⟨a, rfl, rfl⟩
  | error x t =>
    rw [bind_error hop] at h
    cases h
    exact .inr ⟨_, rfl, rfl⟩

lemma contributes_attach {stream : Stream}
    (h : Replied (perform m turns (.attach stream) r) answer s) :
    Contributes r (.attach stream) answer s := by
  rcases h.cases_of with ⟨u, hop, rfl⟩ | ⟨e, hop, rfl⟩
  all_goals
    unfold attach onScanner Scanner.attach at hop
    cases hs : r.scanner.stream <;> simp only [hs] at hop <;> cases hop
  · exact .attached hs
  · exact .stopped ⟨rfl, .inl ⟨_, rfl⟩⟩ nofun

lemma contributes_detach (h : Replied (perform m turns .detach r) answer s) :
    Contributes r .detach answer s := by
  rcases h.cases_of with ⟨stream, hop, rfl⟩ | ⟨e, hop, rfl⟩
  all_goals
    unfold detach onScanner Scanner.detach at hop
    cases hs : r.scanner.stream <;> simp only [hs] at hop <;> cases hop
  · exact .detached hs
  · exact .stopped ⟨rfl, .inl ⟨_, rfl⟩⟩ nofun

lemma contributes_pushText {text : Bytes}
    (h : Replied (perform m turns (.pushText text) r) answer s) :
    Contributes r (.pushText text) answer s := by
  by_cases htext : text = []
  · subst htext
    cases h
    exact .noText
  · have hpush : pushText text =
        changeStream (·.pushText text) >>= fun _ => write (.textPushed text.length) := if_pos htext
    rcases h.cases_of with ⟨u, hop, rfl⟩ | ⟨e, hop, rfl⟩
    · rw [hpush] at hop
      obtain ⟨u', t, hchange, h1⟩ := bind_eq_ok.1 hop
      obtain ⟨stream, hs, rfl⟩ := changeStream_eq_ok.1 hchange
      cases h1
      exact .text hs htext
    · rw [hpush] at hop
      rcases bind_eq_error.1 hop with hchange | ⟨u', t, -, h1⟩
      · obtain ⟨rfl, e', rfl⟩ := changeStream_error hchange
        exact .stopped ⟨rfl, .inl ⟨e', rfl⟩⟩ nofun
      · cases h1

lemma contributes_pushTree {tree : Node} {ignore : Bool}
    (h : Replied (perform m turns (.pushTree tree ignore) r) answer s) :
    Contributes r (.pushTree tree ignore) answer s := by
  cases hs : r.scanner.stream with
  | none =>
    have hstops : pushTree tree ignore r = .error (.error (.scan .notAttached)) r := by
      refine bind_error ?_ _
      unfold changeStream onStream onScanner Scanner.onStream
      simp only [hs]
    rw [perform, bind_error hstops] at h
    cases h
    exact .stopped ⟨rfl, .inl ⟨_, rfl⟩⟩ nofun
  | some stream =>
    have hsame : changeStream id r = .ok () r := by
      rw [changeStream_ok hs]
      simp only [id, ← hs]
    rcases h.cases_of with ⟨slot, hop, rfl⟩ | ⟨e, hop, rfl⟩
    · rw [pushTree, bind_ok hsame] at hop
      obtain ⟨slot', t, hmake, h1⟩ := bind_eq_ok.1 hop
      obtain ⟨forest, halloc, rfl⟩ := alloc_eq_ok.1 hmake
      rw [bind_ok (changeStream_ok (show { r with forest }.scanner.stream = some stream from hs)),
        write_bind] at h1
      cases h1
      exact .tree hs halloc
    · rw [pushTree, bind_ok hsame] at hop
      rcases bind_eq_error.1 hop with hmake | ⟨slot', t, hmake, h1⟩
      · obtain ⟨rfl, e', rfl⟩ := alloc_fails hmake
        exact .stopped ⟨rfl, .inr ⟨e', rfl⟩⟩ nofun
      · obtain ⟨forest, halloc, rfl⟩ := alloc_eq_ok.1 hmake
        rw [bind_ok (changeStream_ok
          (show { r with forest }.scanner.stream = some stream from hs))] at h1
        cases h1

lemma contributes_queueToken {element : ElementId} {text : Bytes} {name : Option VariableId}
    (h : Replied (perform m turns (.queueToken element text name) r) answer s) :
    Contributes r (.queueToken element text name) answer s := by
  rcases h.cases_of with ⟨id, hop, rfl⟩ | ⟨e, hop, rfl⟩
  · obtain ⟨id', t, hmake, h1⟩ := bind_eq_ok.1 hop
    obtain ⟨forest, halloc, rfl⟩ := alloc_eq_ok.1 hmake
    cases name with
    | none =>
      cases h1
      exact .token halloc
    | some name =>
      cases h1
      exact .named halloc
  · rcases bind_eq_error.1 hop with hmake | ⟨id', t, -, h1⟩
    · obtain ⟨rfl, e', rfl⟩ := alloc_fails hmake
      exact .stopped ⟨rfl, .inr ⟨e', rfl⟩⟩ nofun
    · cases name <;> cases h1

lemma contributes_reject (h : Replied (perform m turns .reject r) answer s) :
    Contributes r .reject answer s := by
  by_cases hwaits : ∃ production commits, r.point = .reduction production commits
  · obtain ⟨production, commits, hpoint⟩ := hwaits
    have hreject : rejectNow r = .ok () { r with rejecting := true } := by
      unfold rejectNow reject
      simp only [hpoint]
    rw [perform, bind_ok hreject] at h
    cases h
    exact .rejected hpoint
  · have hreject : rejectNow r = .error (.error (.misuse .rejectOutsideReduction)) r := by
      unfold rejectNow reject
      cases hpoint : r.point with
      | reduction production commits => exact absurd ⟨production, commits, hpoint⟩ hwaits
      | _ => rfl
    rw [perform, bind_error hreject] at h
    cases h
    exact .refused rfl (fun hrequest => absurd rfl hrequest)
      fun _ production commits hpoint => hwaits ⟨production, commits, hpoint⟩

/-- Whatever is replied to such a request, the log tells of what it did. -/
theorem contributes_of_replied (hguarded : request.isGuarded = false)
    (hgive : request ≠ .giveUpLog) (h : Replied (perform m turns request r) answer s) :
    Contributes r request answer s := by
  cases request with
  | parse entry => cases hguarded
  | undoTo target => cases hguarded
  | attach stream => exact contributes_attach h
  | detach => exact contributes_detach h
  | pushText text => exact contributes_pushText h
  | pushTree tree ignore => exact contributes_pushTree h
  | queueToken element text name => exact contributes_queueToken h
  | reject => exact contributes_reject h
  | giveUpLog => exact absurd rfl hgive
  | bind name id =>
    cases h
    exact .bound
  | leaveData data =>
    cases h
    exact .data
  | dropAside =>
    cases h
    exact .dropped
  | editNodes edit =>
    cases h
    exact .edited

end Rewind.Run
