import Rewind.Proofs.Driver
import Rewind.Proofs.Frame
import Rewind.Proofs.Veil

/-!
# What callers ask for and what they are told

A `Request` is anything a caller asks of a run, together with the answer it is waiting for.  A parse
is given as many turns as it needs: what it comes to does not depend on how many there are, as long
as they are enough.
-/

namespace Rewind.Run

open Attempt Op

/-- Something that a caller asks for. -/
inductive Request where
  | attach (stream : Stream)
  | detach
  | parse (entry : Entry)
  | undoTo (target : Nat)
  | pushText (text : Bytes)
  | pushTree (tree : Node) (ignore : Bool)
  | queueToken (element : ElementId) (text : Bytes) (name : Option VariableId)
  | bind (name : VariableId) (id : NodeId)
  | leaveData (data : Bytes)
  | dropAside
  | reject
  | giveUpLog
  /-- Nodes are made, changed or released by hand. -/
  | editNodes (edit : Forest → Forest)

/-- What a caller is told. -/
inductive Reply where
  | accepted
  | status (status : Status)
  | node (id : NodeId)
  | stream (stream : Stream)

/-- Changes nodes by hand.  The log does not know of it. -/
def editNodes (edit : Forest → Forest) : Op Unit :=
  modify fun r => { r with forest := edit r.forest }

/-- What a run does when it is asked, if no parse takes more turns than are allowed. -/
def perform (m : Machine) (turns : Nat) : Request → Op Reply
  | .attach stream => do attach stream; return .accepted
  | .detach => do return .stream (← detach)
  | .parse entry => do return .status (← parse m turns entry)
  | .undoTo target => do return .status (← undoTo m target)
  | .pushText text => do pushText text; return .accepted
  | .pushTree tree ignore => do return .node (← pushTree tree ignore)
  | .queueToken element text name => do return .node (← queueToken element text name)
  | .bind name id => do bind name id; return .accepted
  | .leaveData data => do leaveData data; return .accepted
  | .dropAside => do dropAside; return .accepted
  | .reject => do rejectNow; return .accepted
  | .giveUpLog => do giveUpLog; return .accepted
  | .editNodes edit => do editNodes edit; return .accepted

variable {m : Machine} {r s : Run} {turns : Nat}

lemma perform_parse (m : Machine) (turns : Nat) (entry : Entry) :
    perform m turns (.parse entry) = do return .status (← parse m turns entry) := rfl

/-- The turns allowed were enough. -/
def Finished {α : Type} (x : Result α) : Prop :=
  ∀ s, x ≠ .error (.fault .unfinished) s

lemma Finished.of_ok {α : Type} (a : α) (s : Run) : Finished (.ok a s : Result α) := by
  intro t h
  cases h

/-- What the request comes to, given turns enough. -/
def Comes (m : Machine) (request : Request) (r : Run) (x : Result Reply) : Prop :=
  ∃ turns, perform m turns request r = x ∧ Finished x

/-! ## Requests that a run meets without turns -/

lemma Law.governs_rejectNow {L : Law}
    (hrejecting : ∀ (r : Run) production commits, r.point = .reduction production commits →
      L.ok r { r with rejecting := true })
    (hrefused : ∀ r, L.error r (.misuse .rejectOutsideReduction) r) : L.Governs rejectNow := by
  intro r
  cases hpoint : r.point with
  | reduction production commits =>
    have hreject : rejectNow r = .ok () { r with rejecting := true } := by
      unfold rejectNow reject
      simp only [hpoint]
    exact .of_ok hreject (hrejecting r production commits hpoint)
  | _ =>
    have hreject : rejectNow r = .error (.error (.misuse .rejectOutsideReduction)) r := by
      unfold rejectNow reject
      simp only [hpoint]
    exact .of_error hreject (hrefused r)

/-- A law that allows what a run does for its caller holds of whatever the run is asked for, if it
holds where the stream comes or goes, where a reduction is rejected, of parsing and of going back.
-/
theorem Law.Obliges.perform {L : Law} [L.Composes] (h : L.Obliges)
    (hlog : ∀ r, L.ok r { r with log := Journal.empty })
    (hcounts : ∀ r, L.ok r { r with barrier := 0, retries := 0 }) {request : Request}
    (hrejecting : ∀ (r : Run) production commits, r.point = .reduction production commits →
      L.ok r { r with rejecting := true })
    (hrefused : ∀ r, L.error r (.misuse .rejectOutsideReduction) r)
    (hattach : ∀ stream, request = .attach stream → Obeys L (attach stream) r)
    (hdetach : request = .detach → Obeys L detach r)
    (hparse : ∀ entry, request = .parse entry → Obeys L (parse m turns entry) r)
    (hundo : ∀ target, request = .undoTo target → Obeys L (undoTo m target) r) :
    Obeys L (perform m turns request) r := by
  cases request with
  | parse entry => exact (hparse entry rfl).seq fun _ => .pure _
  | undoTo target => exact (hundo target rfl).seq fun _ => .pure _
  | attach stream => exact (hattach stream rfl).seq fun _ => .pure _
  | detach => exact (hdetach rfl).seq fun _ => .pure _
  | pushText text => exact (h.pushText text r).seq fun _ => .pure _
  | pushTree tree ignore => exact (h.pushTree tree ignore r).seq fun _ => .pure _
  | queueToken element text name => exact (h.queueToken element text name r).seq fun _ => .pure _
  | bind name id => exact (h.bind name id r).seq fun _ => .pure _
  | leaveData data => exact (h.leaveData data r).seq fun _ => .pure _
  | dropAside => exact (h.dropAside r).seq fun _ => .pure _
  | reject => exact (Law.governs_rejectNow hrejecting hrefused r).seq fun _ => .pure _
  | giveUpLog => exact (h.giveUpLog hlog hcounts r).seq fun _ => .pure _
  | editNodes edit => exact (Law.Governs.modify (fun r => h.forest r _) r).seq fun _ => .pure _

/-- A property that has nothing to do with a run's nodes, its stream and its log is kept by what a
run does when it is asked, if it is kept when the stream comes or goes, when a reduction is
rejected, by parsing and by going back. -/
theorem keeps_perform {I : Run → Prop} (h : Inert I)
    (hrejecting : ∀ (r : Run) production commits, r.point = .reduction production commits → I r →
      I { r with rejecting := true }) {request : Request}
    (hattach : ∀ stream, request = .attach stream → Keeps I I (attach stream))
    (hdetach : request = .detach → Keeps I I detach)
    (hparse : ∀ entry, request = .parse entry → Keeps I I (parse m turns entry))
    (hundo : ∀ target, request = .undoTo target → Keeps I I (undoTo m target)) :
    Keeps I I (perform m turns request) :=
  fun r => h.obliges.perform (fun r => h.log r _) (fun r => h.counts r _ _) hrejecting
    (fun _ hr => hr) (fun stream heq => hattach stream heq r) (fun heq => hdetach heq r)
    (fun entry heq => hparse entry heq r) fun target heq => hundo target heq r

/-- Under a veil a run does the same when it is asked, if it does so when its stream comes or goes,
when it parses and when it goes back. -/
theorem commutes_perform {v : Veil} (hv : v.Lawful) {request : Request}
    (hattach : ∀ stream, request = .attach stream → v.Commutes (attach stream) r)
    (hdetach : request = .detach → v.Commutes detach r)
    (hparse : ∀ entry, request = .parse entry → v.Commutes (parse m turns entry) r)
    (hundo : ∀ target, request = .undoTo target → v.Commutes (undoTo m target) r) :
    v.Commutes (perform m turns request) r := by
  have hbind (name : VariableId) (id : NodeId) {q : Run} : v.Commutes (bind name id) q :=
    Veil.commutes_get rfl (Veil.commutes_seq (Veil.commutes_write _) fun _ _ =>
      Veil.commutes_modify rfl)
  have hreply {α : Type} {op : Op α} {reply : α → Reply} (h : v.Commutes op r) :
      v.Commutes (do return reply (← op)) r :=
    Veil.commutes_seq h fun _ _ => Veil.commutes_pure _
  cases request with
  | attach stream => exact hreply (hattach stream rfl)
  | detach => exact hreply (hdetach rfl)
  | parse entry => exact hreply (hparse entry rfl)
  | undoTo target => exact hreply (hundo target rfl)
  | pushText text =>
    exact hreply (Veil.commutes_ite (fun _ => Veil.commutes_seq
      (Veil.commutes_changeStream fun s _ => hv.pushText ..) fun _ _ => Veil.commutes_write _)
      fun _ => Veil.commutes_pure _)
  | pushTree tree ignore =>
    exact hreply (Veil.commutes_seq (Veil.commutes_changeStream fun _ _ => rfl) fun _ _ =>
      Veil.commutes_seq (Veil.commutes_alloc _) fun _ _ =>
      Veil.commutes_seq (Veil.commutes_changeStream fun s _ => hv.pushTree ..) fun _ _ =>
      Veil.commutes_seq (Veil.commutes_write _) fun _ _ => Veil.commutes_pure _)
  | queueToken element text name =>
    refine hreply (Veil.commutes_seq (Veil.commutes_alloc _) fun id _ =>
      Veil.commutes_seq (Veil.commutes_putBack _) fun _ _ =>
      Veil.commutes_seq (Veil.commutes_write _) fun _ _ => ?_)
    cases name with
    | none => exact Veil.commutes_pure _
    | some name => exact Veil.commutes_seq (hbind name id) fun _ _ => Veil.commutes_pure _
  | bind name id => exact hreply (hbind name id)
  | leaveData data => exact hreply (Veil.commutes_write _)
  | dropAside =>
    exact hreply (Veil.commutes_get rfl (Veil.commutes_seq (Veil.commutes_write _) fun _ _ =>
      Veil.commutes_modify rfl))
  | reject =>
    refine hreply ?_
    unfold Veil.Commutes rejectNow reject
    rw [show (v.veiled r).point = r.point from rfl]
    cases r.point <;> rfl
  | giveUpLog =>
    exact hreply (Veil.commutes_get rfl (Veil.commutes_seq (Veil.commutes_lookup _) fun _ _ =>
      Veil.commutes_modify rfl))
  | editNodes edit => exact hreply (Veil.commutes_modify rfl)

/-! ## Turns enough -/

/-- More turns change nothing where there were enough. -/
lemma takeTurns_mono {more : Nat} (hmore : turns ≤ more) (h : Finished (takeTurns m turns r)) :
    takeTurns m more r = takeTurns m turns r := by
  induction turns generalizing more r with
  | zero => exact absurd rfl (h r)
  | succ turns ih =>
    obtain ⟨more, rfl⟩ : ∃ k, more = k + 1 := ⟨more - 1, by omega⟩
    rw [takeTurns] at h ⊢
    rw [takeTurns]
    cases hturn : turn m r with
    | error e s => rw [bind_error hturn, bind_error hturn]
    | ok a s =>
      rw [bind_ok hturn] at h ⊢
      rw [bind_ok hturn]
      cases a with
      | some status => rfl
      | none => exact ih (by omega) h

lemma resume_mono {entry : Entry} {more : Nat} (hmore : turns ≤ more)
    (h : Finished (resume m turns entry r)) : resume m more entry r = resume m turns entry r := by
  rw [resume] at h ⊢
  rw [resume]
  cases henter : enter m entry r with
  | error e s => rw [bind_error henter, bind_error henter]
  | ok a s =>
    rw [bind_ok henter] at h ⊢
    rw [bind_ok henter]
    cases a with
    | some status => rfl
    | none => exact takeTurns_mono hmore h

lemma Finished.of_unlessAborted {op : Op Status} (halive : r.aborted = false)
    (h : Finished (unlessAborted op r)) : Finished (op r) := by
  intro s hop
  refine h s ?_
  rw [unlessAborted, if_neg (by simp [halive]), hop]

lemma parse_mono {entry : Entry} {more : Nat} (hmore : turns ≤ more)
    (h : Finished (parse m turns entry r)) : parse m more entry r = parse m turns entry r := by
  unfold parse at h ⊢
  cases halive : r.aborted with
  | true => rw [unlessAborted, if_pos halive, unlessAborted, if_pos halive]
  | false =>
    rw [unlessAborted, unlessAborted, resume_mono hmore (h.of_unlessAborted halive)]

lemma perform_mono {request : Request} {more : Nat} (hmore : turns ≤ more)
    (h : Finished (perform m turns request r)) :
    perform m more request r = perform m turns request r := by
  cases request with
  | parse entry =>
    have hparse : Finished (parse m turns entry r) := by
      intro s hs
      exact h s (bind_error hs _)
    rw [perform_parse, perform_parse]
    cases hrun : parse m turns entry r with
    | error e s => rw [bind_error ((parse_mono hmore hparse).trans hrun), bind_error hrun]
    | ok a s => rw [bind_ok ((parse_mono hmore hparse).trans hrun), bind_ok hrun]
  | _ => rfl

/-- A request comes to one thing only. -/
lemma Comes.unique {request : Request} {x y : Result Reply} (hx : Comes m request r x)
    (hy : Comes m request r y) : x = y := by
  obtain ⟨turns, rfl, hfinished⟩ := hx
  obtain ⟨turns', rfl, hfinished'⟩ := hy
  rcases Nat.le_total turns turns' with hle | hle
  · exact (perform_mono hle hfinished).symm
  · exact perform_mono hle hfinished'

/-! ## Sessions -/

/-- What the request comes to is replied, and leaves the run like that. -/
inductive Replied : Result Reply → Except Error Reply → Run → Prop
  | ok (reply : Reply) (s : Run) : Replied (.ok reply s) (.ok reply) s
  | error (e : Error) (s : Run) : Replied (.error (.error e) s) (.error e) s

lemma Replied.unique {x : Result Reply} {answer answer' : Except Error Reply}
    (h : Replied x answer r) (h' : Replied x answer' s) : answer = answer' ∧ r = s := by
  cases h <;> cases h' <;> exact ⟨rfl, rfl⟩

/-- What was asked for, with the replies, the latest first. -/
abbrev Dialogue := List (Request × Except Error Reply)

/-- A run after all that its caller asked for since the start. -/
inductive Session (m : Machine) (start : Run) : Dialogue → Run → Prop
  | start : Session m start [] start
  | next {log : Dialogue} {r s : Run} {request : Request} {x : Result Reply}
      {answer : Except Error Reply} :
    Session m start log r → Comes m request r x → Replied x answer s →
    Session m start ((request, answer) :: log) s

/-- The same dialogue leads to the same run. -/
lemma Session.unique {start : Run} {log : Dialogue} (h : Session m start log r)
    (h' : Session m start log s) : r = s := by
  induction h generalizing s with
  | start =>
    cases h'
    rfl
  | next _ hcomes hreplied ih =>
    cases h' with
    | next hbefore hcomes' hreplied' =>
      obtain rfl := ih hbefore
      obtain rfl := hcomes.unique hcomes'
      exact (hreplied.unique hreplied').2

end Rewind.Run
