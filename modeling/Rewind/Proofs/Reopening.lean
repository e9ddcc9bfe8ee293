import Rewind.Proofs.Garbage
import Rewind.Proofs.Onward
import Rewind.Proofs.Outline
import Rewind.Proofs.Ranges
import Rewind.Proofs.Readiness

/-!
# Choices that are taken up again

A decision that leaves a choice is written down with the number of the alternative taken.  When it
is taken back, the next alternative is tried in the same state and with the same lookahead, so it
is there to be tried if it was there when the decision was taken.

That the lookahead is the same does not need every node to be where the log left it.  All that
counts are the queue and the elements of nodes (`Front`), and taking back a record brings both back,
but for nodes that are gone.  So it does not matter how nodes are linked, or shared.
-/

namespace Rewind.Run

open Attempt Op

/-- The lookahead, and the elements of all nodes. -/
structure Front where
  queue : List NodeId
  elements : NodeId → Option ElementId

/-- The front of a run. -/
def front (r : Run) : Front :=
  ⟨r.queue, elementAt (Pool.get? r.forest)⟩

/-- What is tried next in which state, if the decision that the record tells of is taken back. -/
def Record.reopens? : Record → Option (StateId × Nat)
  | .shifted _ previous _ alternative true => some (previous, alternative + 1)
  | .reduced _ previous alternative true => some (previous, alternative + 1)
  | _ => none

namespace Front

/-- The front without a node. -/
def drop (φ : Front) (id : NodeId) : Front :=
  { φ with elements := Function.update φ.elements id none }

/-- The front before the change that the record tells of. -/
def before (φ : Front) : Record → Front
  | .scanned id _ | .sent id => { φ.drop id with queue := φ.queue.dropLast }
  | .setAside id _ | .treePushed id => φ.drop id
  | .treeTaken _ false => { φ with queue := φ.queue.dropLast }
  | .shifted id _ _ _ _ => { φ with queue := id :: φ.queue }
  | .reduced tree _ _ _ => { φ.drop tree with queue := φ.queue.tail }
  | _ => φ

/-- The queue is the same, and no node is new or another. -/
structure Within (φ ψ : Front) : Prop where
  queue : φ.queue = ψ.queue
  elements : ∀ id element, φ.elements id = some element → ψ.elements id = some element

/-- In the state there is such an alternative for the lookahead. -/
def Opens (m : Machine) (φ : Front) (state : StateId) (alternative : Nat) : Prop :=
  ∃ id rest, φ.queue = id :: rest ∧ ∀ element, φ.elements id = some element →
    ∃ decision, m.grammar.decide state element alternative = .ok (some decision)

/-- Whichever decision of the log is taken back, there is an alternative to be tried. -/
def Retriable (m : Machine) : List Record → Front → Prop
  | [], _ => True
  | record :: older, φ =>
    (∀ state alternative, record.reopens? = some (state, alternative) →
      (φ.before record).Opens m state alternative) ∧ Retriable m older (φ.before record)

variable {m : Machine} {φ ψ χ : Front} {id : NodeId} {record : Record} {records : List Record}
  {state : StateId} {alternative : Nat} {nodes nodes' : Nodes}

namespace Within

lemma refl (φ : Front) : φ.Within φ :=
  ⟨rfl, fun _ _ h => h⟩

lemma of_eq (h : φ = ψ) : φ.Within ψ :=
  h ▸ refl φ

lemma drop (h : φ.Within ψ) (id : NodeId) : (φ.drop id).Within (ψ.drop id) := by
  refine ⟨h.queue, fun j element hj => ?_⟩
  simp only [Front.drop] at hj ⊢
  by_cases hid : j = id
  · rw [hid, Function.update_self] at hj
    cases hj
  · rw [Function.update_of_ne hid] at hj ⊢
    exact h.elements j element hj

lemma before (h : φ.Within ψ) (record : Record) : (φ.before record).Within (ψ.before record) := by
  cases record with
  | scanned id start => exact ⟨congrArg List.dropLast h.queue, (h.drop id).elements⟩
  | sent id => exact ⟨congrArg List.dropLast h.queue, (h.drop id).elements⟩
  | setAside id start => exact h.drop id
  | treePushed id => exact h.drop id
  | treeTaken id ignore =>
    cases ignore with
    | true => exact h
    | false => exact ⟨congrArg List.dropLast h.queue, h.elements⟩
  | shifted id previous ignored alternative more =>
    exact ⟨congrArg (List.cons id) h.queue, h.elements⟩
  | reduced tree previous alternative more =>
    exact ⟨congrArg List.tail h.queue, (h.drop tree).elements⟩
  | _ => exact h

end Within

lemma Opens.within (h : ψ.Opens m state alternative) (hφ : φ.Within ψ) :
    φ.Opens m state alternative := by
  obtain ⟨id, rest, hqueue, hdecide⟩ := h
  exact ⟨id, rest, hφ.queue.trans hqueue,
    fun element hid => hdecide element (hφ.elements id element hid)⟩

lemma Retriable.within (h : ψ.Retriable m records) (hφ : φ.Within ψ) : φ.Retriable m records := by
  induction records generalizing φ ψ with
  | nil => trivial
  | cons record older ih =>
    obtain ⟨hopens, holder⟩ := h
    have hbefore := hφ.before record
    exact ⟨fun state alternative hrecord => (hopens state alternative hrecord).within hbefore,
      ih holder hbefore⟩

end Front

/-! ## Elements of nodes -/

section Elements

variable {f g : Forest} {id : NodeId} {n n' : Node} {ids : List NodeId} {r s : Run} {u : Unit}

lemma elementAt_put (hn : Pool.get? f id = some n) (helement : n'.element = n.element) :
    elementAt (Pool.get? (f.put id n')) = elementAt (Pool.get? f) := by
  funext j
  rw [Pool.get?_put hn]
  by_cases hj : j = id
  · rw [hj, elementAt_update_self, elementAt, hn, helement]
    rfl
  · rw [elementAt, elementAt, Function.update_of_ne hj]

lemma elementAt_vacate :
    elementAt (Pool.get? (f.vacate id)) = Function.update (elementAt (Pool.get? f)) id none := by
  funext j
  rw [Pool.get?_vacate]
  by_cases hj : j = id
  · rw [hj, elementAt, Function.update_self, Function.update_self]
    rfl
  · rw [elementAt, Function.update_of_ne hj, Function.update_of_ne hj]
    rfl

/-- Without the new node, all is as before. -/
lemma elementAt_of_alloc (hf : Pool.Sound f) (halloc : Pool.alloc f n = (.ok id, g)) :
    Function.update (elementAt (Pool.get? g)) id none = elementAt (Pool.get? f) := by
  obtain ⟨hvacant, hget⟩ := Pool.get?_of_alloc hf halloc
  funext j
  by_cases hj : j = id
  · rw [hj, Function.update_self, elementAt, hvacant]
    rfl
  · rw [Function.update_of_ne hj, hget, elementAt, Function.update_of_ne hj]
    rfl

lemma linkSiblings_elements (h : linkSiblings ids r = .ok u s) (hr : Pool.Sound r.forest) :
    Pool.Sound s.forest ∧ elementAt (Pool.get? s.forest) = elementAt (Pool.get? r.forest) := by
  induction ids generalizing r with
  | nil =>
    cases h
    exact ⟨hr, rfl⟩
  | cons id ids ih =>
    obtain ⟨u, t, hchange, hrest⟩ := bind_eq_ok.1 h
    obtain ⟨n, hn, rfl⟩ := change_eq_ok.1 hchange
    obtain ⟨hsound, hsame⟩ := ih hrest (hr.put hn)
    exact ⟨hsound, hsame.trans (elementAt_put hn rfl)⟩

lemma restack_elements (h : restack ids r = .ok u s) (hr : Pool.Sound r.forest) :
    ∃ forest stack, s = { r with forest, stack } ∧ Pool.Sound forest ∧
      elementAt (Pool.get? forest) = elementAt (Pool.get? r.forest) := by
  induction ids generalizing r with
  | nil =>
    cases h
    exact ⟨_, _, rfl, hr, rfl⟩
  | cons id ids ih =>
    rw [restack, get_bind] at h
    obtain ⟨u, t, hchange, h1⟩ := bind_eq_ok.1 h
    obtain ⟨n, hn, rfl⟩ := change_eq_ok.1 hchange
    obtain ⟨forest, stack, rfl, hsound, hsame⟩ := ih h1 (hr.put hn)
    exact ⟨forest, stack, rfl, hsound, hsame.trans (elementAt_put hn rfl)⟩

/-- A node that is released is gone. -/
lemma release_elements {found : Option Node} (h : release id r = .ok found s)
    (hr : Pool.Sound r.forest) : ∃ forest, s = { r with forest } ∧ Pool.Sound forest ∧
      elementAt (Pool.get? forest) = Function.update (elementAt (Pool.get? r.forest)) id none := by
  unfold release at h
  cases hn : Pool.get? r.forest id with
  | some n =>
    simp only [hn] at h
    cases h
    exact ⟨_, rfl, hr.vacate hn, elementAt_vacate⟩
  | none =>
    simp only [hn] at h
    cases h
    refine ⟨_, rfl, hr, (Function.update_eq_self_iff.2 ?_).symm⟩
    rw [elementAt, hn]
    rfl

lemma unscan_elements {start : Position} (h : unscan id start r = .ok u s)
    (hr : Pool.Sound r.forest) : ∃ forest scanner, s = { r with forest, scanner } ∧
      Pool.Sound forest ∧
      elementAt (Pool.get? forest) = Function.update (elementAt (Pool.get? r.forest)) id none := by
  obtain ⟨found, t, hrelease, h1⟩ := bind_eq_ok.1 h
  obtain ⟨forest, rfl, hsound, hsame⟩ := release_elements hrelease hr
  obtain ⟨stream, -, rfl⟩ := changeStream_eq_ok.1 h1
  exact ⟨forest, _, rfl, hsound, hsame⟩

/-- A tree that is released is gone, and maybe more. -/
lemma releaseTree_elements (h : releaseTree id r = .ok u s) (hr : Pool.Sound r.forest) :
    ∃ forest, s = { r with forest } ∧ Pool.Sound forest ∧ ∀ j element,
      elementAt (Pool.get? forest) j = some element →
        Function.update (elementAt (Pool.get? r.forest)) id none j = some element := by
  unfold releaseTree at h
  cases hfree : Forest.freeTree r.forest id with
  | error e =>
    simp only [hfree] at h
    cases h
  | ok forest =>
    simp only [hfree] at h
    cases h
    have hswept := Forest.swept_freeAll hfree
    refine ⟨forest, rfl, hr.freeAll hfree, fun j element hj => ?_⟩
    obtain ⟨n, hn, rfl⟩ := Option.map_eq_some_iff.1 hj
    by_cases hid : j = id
    · have hgone := hswept.roots id List.mem_cons_self
      rw [← hid, hn] at hgone
      cases hgone
    · rw [Function.update_of_ne hid, elementAt, hswept.fewer j n hn]
      rfl

end Elements

/-! ## Logs that can be taken back -/

/-- Whichever decision of the log is taken back, there is an alternative to be tried. -/
structure Reopens (m : Machine) (r : Run) : Prop where
  pool : Pool.Sound r.forest
  log : r.front.Retriable m r.log.records

namespace Reopens

variable {m : Machine} {r s t : Run} {record : Record} {older : List Record} {id : NodeId}
  {n : Node} {a : Option Status} {stream rest : Stream}

lemma keep (h : Reopens m r) (hpool : Pool.Sound s.forest) (hlog : s.log = r.log)
    (hfront : s.front.Within r.front) : Reopens m s :=
  ⟨hpool, hlog ▸ h.log.within hfront⟩

/-- Neither log nor front has changed. -/
lemma quiet (h : Reopens m r) (hforest : s.forest = r.forest) (hqueue : s.queue = r.queue)
    (hlog : s.log = r.log) : Reopens m s :=
  h.keep (hforest ▸ h.pool) hlog (.of_eq (by rw [front, front, hforest, hqueue]))

lemma write (h : Reopens m r) (hpool : Pool.Sound s.forest)
    (hlog : s.log = r.log.append record) (hfront : (s.front.before record).Within r.front)
    (hopens : ∀ state alternative, record.reopens? = some (state, alternative) →
      r.front.Opens m state alternative) : Reopens m s := by
  refine ⟨hpool, ?_⟩
  rw [hlog]
  exact ⟨fun state alternative hrecord => (hopens state alternative hrecord).within hfront,
    h.log.within hfront⟩

/-- A record is written that has nothing to do with the front. -/
lemma note (h : Reopens m r) (hforest : s.forest = r.forest) (hqueue : s.queue = r.queue)
    (hlog : s.log = r.log.append record) (hbefore : ∀ φ : Front, φ.before record = φ)
    (hopens : record.reopens? = none) : Reopens m s := by
  refine h.write (hforest ▸ h.pool) hlog (.of_eq ?_) fun state alternative hrecord => ?_
  · rw [hbefore, front, front, hforest, hqueue]
  · rw [hopens] at hrecord
    cases hrecord

/-- A node is made, and the record that tells of it takes it away. -/
lemma place {forest : Forest} (h : Reopens m r)
    (halloc : Pool.alloc r.forest n = (.ok id, forest)) (hpool : Pool.Sound s.forest)
    (hsame : elementAt (Pool.get? s.forest) = elementAt (Pool.get? forest))
    (hlog : s.log = r.log.append record)
    (hbefore : s.front.before record = { s.front.drop id with queue := r.queue })
    (hopens : ∀ state alternative, record.reopens? = some (state, alternative) →
      r.front.Opens m state alternative) : Reopens m s := by
  refine h.write hpool hlog (.of_eq ?_) hopens
  rw [hbefore, Front.drop, front, front, hsame, elementAt_of_alloc h.pool halloc]

/-! ### Going forward -/

lemma turned (h : Reopens m r) (e : Error) : Reopens m (turned e r) :=
  h.quiet rfl rfl rfl

lemma stuck (h : Reopens m r) (e : Error) : Reopens m (stuck e r) :=
  h.quiet rfl rfl rfl

lemma marked (h : Reopens m r) : Reopens m (marked r) := by
  unfold Run.marked
  split
  · exact h.note rfl rfl rfl (fun _ => rfl) rfl
  · exact h

lemma rescans (h : Reopens m r) (hrescans : Rescans r s) : Reopens m s := by
  obtain ⟨-, -, scanner, -, -, -, rfl⟩ := hrescans
  exact h.quiet rfl rfl rfl

lemma acquires {found : Acquired} (h : Reopens m r) (hacquires : Acquires m r found s) :
    Reopens m s := by
  have hmarked := h.marked
  cases hacquires with
  | consumed _ _ _ _ _ => exact hmarked.note rfl rfl rfl (fun _ => rfl) rfl
  | skipped _ _ _ _ _ _ halloc =>
    obtain ⟨-, hget⟩ := Pool.get?_of_alloc hmarked.pool halloc
    have hnew := (congrFun hget _).trans (Function.update_self ..)
    exact hmarked.place halloc ((Pool.sound_of_alloc hmarked.pool halloc).put hnew)
      (elementAt_put hnew rfl) rfl rfl nofun
  | queued _ _ _ _ _ _ halloc =>
    refine hmarked.place halloc (Pool.sound_of_alloc hmarked.pool halloc) rfl rfl ?_ nofun
    rw [Front.before, front, List.dropLast_concat]
  | treeSkipped _ _ _ _ _ hn =>
    exact hmarked.write (hmarked.pool.put hn) rfl
      (.of_eq (congrArg (Front.mk _) (elementAt_put hn rfl))) nofun
  | treeQueued _ _ _ _ _ _ =>
    refine hmarked.write hmarked.pool rfl (.of_eq ?_) nofun
    rw [Front.before, front, List.dropLast_concat]
    rfl
  | preEof => exact h.note rfl rfl rfl (fun _ => rfl) rfl
  | ended _ _ _ halloc =>
    refine h.place halloc (Pool.sound_of_alloc h.pool halloc) rfl rfl ?_ nofun
    rw [Front.before, front, List.dropLast_concat]
  | noToken => exact h

lemma acquire {found : Acquired} (h : Reopens m r) (hrun : acquire m r = .ok found s) :
    Reopens m s := by
  rcases acquire_cases h.pool hrun with ⟨t, hrescans, hacquires⟩ | ⟨rfl, -⟩
  · exact (h.rescans hrescans).acquires hacquires
  · exact h

/-- A decision for the lookahead that leaves another one. -/
lemma opens_of_decide (hgrammar : m.grammar.Fits) (hstate : r.state < m.grammar.states)
    {queue : List NodeId} {decision : Grammar.Decision} (hqueue : r.queue = id :: queue)
    (hn : Pool.get? r.forest id = some n)
    (hdecide : m.grammar.decide r.state n.element r.retry = .ok (some decision))
    (hmore : decision.more = true) : r.front.Opens m r.state (decision.alternative + 1) := by
  refine ⟨id, queue, hqueue, fun element helement => ?_⟩
  obtain rfl : n.element = element := by
    have hfront : r.front.elements id = some n.element := congrArg (Option.map Node.element) hn
    exact Option.some.inj (hfront.symm.trans helement)
  obtain ⟨found, hfound, hfits⟩ := hgrammar.decide hstate n.element r.retry
  obtain rfl : found = some decision := Except.ok.inj (hfound.symm.trans hdecide)
  rw [decide_alternative hdecide]
  exact (hfits decision rfl).2 hmore

lemma shift {target : StateId} {alternative : Nat} {more : Bool} {u : Unit} (h : Reopens m r)
    (hopens : more = true → r.front.Opens m r.state (alternative + 1))
    (hshift : shift m id target alternative more r = .ok u s) : Reopens m s := by
  obtain ⟨rest, n, hqueue, hn, rfl⟩ := shift_ok hshift
  refine h.write (h.pool.put hn) rfl (.of_eq ?_) fun state next hrecord => ?_
  · exact congrArg₂ Front.mk hqueue.symm (elementAt_put hn rfl)
  · cases more with
    | true =>
      cases hrecord
      exact hopens rfl
    | false => cases hrecord

lemma reduce {production : ProductionId} {alternative : Nat} {more commits : Bool}
    (h : Reopens m r) (hopens : more = true → r.front.Opens m r.state (alternative + 1))
    (hreduce : reduce m production alternative more commits r = .ok a s) : Reopens m s := by
  obtain ⟨info, children, below, span, tree, made, linked, state, -, -, -, halloc, hlink, -, -,
    rfl⟩ := reduce_ok hreduce
  obtain ⟨hsound, hsame⟩ := linkSiblings_elements (hlink { r with forest := made } rfl)
    (Pool.sound_of_alloc h.pool halloc)
  refine h.place halloc hsound hsame rfl rfl fun state next hrecord => ?_
  cases more with
  | true =>
    cases hrecord
    exact hopens rfl
  | false => cases hrecord

lemma act {decision : Grammar.Decision} {target : StateId} {commits : Bool} (h : Reopens m r)
    (hopens : decision.more = true → r.front.Opens m r.state (decision.alternative + 1))
    (hact : act m id decision target commits r = .ok a s) : Reopens m s := by
  unfold Run.act at hact
  cases haction : decision.action with
  | shift =>
    rw [haction] at hact
    obtain ⟨u, t, hshift, h1⟩ := bind_eq_ok.1 hact
    cases h1
    exact h.shift hopens hshift
  | reduce production =>
    rw [haction] at hact
    exact h.reduce hopens hact
  | shiftReduce production =>
    rw [haction] at hact
    obtain ⟨u, t, hshift, h1⟩ := bind_eq_ok.1 hact
    exact (h.shift hopens hshift).reduce (fun hmore => by cases hmore) h1

lemma completeStep {commits : Bool} (h : Reopens m r)
    (hcomplete : completeStep m commits r = .ok a s) : Reopens m s := by
  have hclosed : Reopens m (closed commits r) := by
    cases commits with
    | true => exact h.note rfl rfl rfl (fun _ => rfl) rfl
    | false => exact h
  have hstepped : Reopens m (stepped commits r) :=
    hclosed.note rfl rfl rfl (fun _ => rfl) rfl
  obtain ⟨reached, -, ⟨-, -, rfl⟩ | ⟨-, -, -, rfl⟩ | ⟨-, -, -, rfl⟩⟩ := completeStep_ok hcomplete
  · exact hstepped.quiet rfl rfl rfl
  · exact hstepped.quiet rfl rfl rfl
  · exact hstepped

/-! ### Taking back -/

/-- What taking back a record comes to: the front is as it was before, but for nodes that are
gone. -/
structure Undoes (record : Record) (taken : TakenBack) (r s : Run) : Prop where
  pool : Pool.Sound s.forest
  log : s.log = r.log
  front : s.front.Within (r.front.before record)
  reopens : ∀ alternative, taken = .decision alternative →
    record.reopens? = some (s.state, alternative + 1)

theorem undoes {taken : TakenBack} (hr : Pool.Sound r.forest)
    (hundo : undo record r = .ok taken s) : Undoes record taken r s := by
  obtain ⟨rfl, hundoing⟩ := undo_ok hundo
  cases hundoing with
  | scanned hback =>
    obtain ⟨forest, scanner, rfl, hsound, hgone⟩ := unscan_elements hback hr
    exact ⟨hsound, rfl, .of_eq (congrArg (Front.mk _) hgone), nofun⟩
  | setAside _ hback =>
    obtain ⟨forest, scanner, rfl, hsound, hgone⟩ := unscan_elements hback hr
    exact ⟨hsound, rfl, .of_eq (congrArg (Front.mk _) hgone), nofun⟩
  | treeSkipped hn _ =>
    exact ⟨hr.put hn, rfl, .of_eq (congrArg (Front.mk _) (elementAt_put hn rfl)), nofun⟩
  | treeQueued _ => exact ⟨hr, rfl, .refl _, nofun⟩
  | consumed _ => exact ⟨hr, rfl, .refl _, nofun⟩
  | sent hfree =>
    obtain ⟨forest, rfl, hsound, hfewer⟩ := releaseTree_elements hfree hr
    exact ⟨hsound, rfl, ⟨rfl, hfewer⟩, nofun⟩
  | textPushed _ => exact ⟨hr, rfl, .refl _, nofun⟩
  | treePushed _ hrelease =>
    obtain ⟨forest, rfl, hsound, hgone⟩ := release_elements hrelease hr
    exact ⟨hsound, rfl, .of_eq (congrArg (Front.mk _) hgone), nofun⟩
  | @shifted _ _ _ _ more _ hn =>
    refine ⟨hr.put hn, rfl, .of_eq (congrArg (Front.mk _) (elementAt_put hn rfl)), ?_⟩
    intro alternative' htaken
    cases more with
    | true =>
      cases htaken
      rfl
    | false => cases htaken
  | @reduced tree _ _ more _ _ _ _ _ hqueue hrestack hrelease =>
    obtain ⟨forest, stack, rfl, hsound, hkept⟩ := restack_elements hrestack hr
    obtain ⟨forest, rfl, hsound, hgone⟩ := release_elements hrelease hsound
    refine ⟨hsound, rfl, .of_eq (congrArg₂ Front.mk ?_ (hgone.trans ?_)), ?_⟩
    · exact (congrArg List.tail hqueue).symm
    · exact congrArg (Function.update · tree none) hkept
    · intro alternative' htaken
      cases more with
      | true =>
        cases htaken
        rfl
      | false => cases htaken
  | bound => exact ⟨hr, rfl, .refl _, nofun⟩
  | dropped => exact ⟨hr, rfl, .refl _, nofun⟩
  | committed => exact ⟨hr, rfl, .refl _, nofun⟩
  | endActionMarked => exact ⟨hr, rfl, .refl _, nofun⟩
  | action => exact ⟨hr, rfl, .refl _, nofun⟩
  | stepEnded => exact ⟨hr, rfl, .refl _, nofun⟩

end Reopens

/-! ## Alternatives that are tried next -/

/-- The alternative that is tried next is there, and so will all others be that are tried when
something is taken back. -/
structure Resumes (m : Machine) (r : Run) : Prop extends Reopens m r where
  retry : r.retry ≠ 0 → r.point = .start ∧ r.front.Opens m r.state r.retry

/-- What a move comes to: unless the run moves on at once, no alternative waits to be tried. -/
structure Yields (m : Machine) (op : Op (Option Status)) (r : Run) : Prop where
  ok : ∀ a s, op r = .ok a s → Resumes m s ∧ (a ≠ none → s.retry = 0)
  error : ∀ e s, e.isFatal = false → op r = .error (.error e) s → Resumes m s ∧ s.retry = 0

section Moves

variable {m : Machine} {r s t : Run} {record : Record} {older records : List Record} {id : NodeId}
  {n : Node} {a : Option Status}

lemma inert_retry (retry : Nat) : Inert fun r => r.retry = retry :=
  .of_part (fun _ _ _ _ _ _ _ _ _ _ _ _ _ => rfl) retry

lemma Reopens.resumes (h : Reopens m r) (hretry : r.retry = 0) : Resumes m r :=
  ⟨h, fun hne => absurd hretry hne⟩

/-- Neither log nor front has changed, and no alternative waits to be tried. -/
lemma Reopens.rests (h : Reopens m r) (hforest : s.forest = r.forest) (hqueue : s.queue = r.queue)
    (hlog : s.log = r.log) (hretry : s.retry = 0) : Resumes m s :=
  (h.quiet hforest hqueue hlog).resumes hretry

lemma Yields.lasts {op : Op (Option Status)} (h : Yields m op r) (hlasts : Lasts op r s) :
    Resumes m s := by
  rcases hlasts with ⟨a, hrun⟩ | ⟨e, he, hrun⟩
  · exact (h.ok a s hrun).1
  · exact (h.error e s he hrun).1

lemma retry_completeStep {commits : Bool} (hcomplete : completeStep m commits r = .ok a s) :
    s.retry = r.retry := by
  have hstepped : (stepped commits r).retry = r.retry := by cases commits <;> rfl
  obtain ⟨reached, -, ⟨-, -, rfl⟩ | ⟨-, -, -, rfl⟩ | ⟨-, -, -, rfl⟩⟩ := completeStep_ok hcomplete
  · exact hstepped
  · exact hstepped
  · exact hstepped

lemma retry_acquire {found : Acquired} (hrun : acquire m r = .ok found s) :
    s.retry = r.retry :=
  Keeps.part_eq (fun c => (inert_retry c).acquire fun _ _ h => h) hrun

namespace Resumes

/-- Where a run does not go forward, no alternative waits to be tried. -/
lemma idle (h : Resumes m r) (hpoint : r.point ≠ .start) : r.retry = 0 := by
  by_contra hretry
  exact hpoint (h.retry hretry).1

/-- Without a lookahead, no alternative waits to be tried. -/
lemma idle_of_nil (h : Resumes m r) (hqueue : r.queue = []) : r.retry = 0 := by
  by_contra hretry
  obtain ⟨-, id, rest, hfront, -⟩ := h.retry hretry
  cases hqueue.symm.trans hfront

/-- An alternative that waits to be tried is not missing. -/
lemma idle_of_decide {queue : List NodeId} (h : Resumes m r) (hqueue : r.queue = id :: queue)
    (hn : Pool.get? r.forest id = some n)
    (hdecide : m.grammar.decide r.state n.element r.retry = .ok none) : r.retry = 0 := by
  by_contra hretry
  obtain ⟨-, head, rest, hfront, hopens⟩ := h.retry hretry
  obtain ⟨rfl, -⟩ := List.cons.inj (hqueue.symm.trans hfront)
  obtain ⟨decision, hdecision⟩ := hopens n.element (congrArg (Option.map Node.element) hn)
  cases hdecide.symm.trans hdecision

/-! ### Moves -/

lemma step {queue : List NodeId} (h : Resumes m r) (hgrammar : m.grammar.Fits)
    (hstate : r.state < m.grammar.states) (hqueue : r.queue = id :: queue) :
    Yields m (step m id) r := by
  constructor
  · intro a s hrun
    -- the run that decides, acts, and has tried what waited to be tried
    have hacts {n : Node} {decision : Grammar.Decision} {target : StateId} {commits : Bool}
        {a : Option Status} {t : Run} (hn : Pool.get? r.forest id = some n)
        (hdecide : m.grammar.decide r.state n.element r.retry = .ok (some decision))
        (hact : act m id decision target commits (decided n.element decision r) = .ok a t) :
        Reopens m t ∧ t.retry = 0 := by
      have hdecided : Reopens m (decided n.element decision r) := h.toReopens.quiet rfl rfl rfl
      refine ⟨hdecided.act (fun hmore => ?_) hact, ?_⟩
      · exact Reopens.opens_of_decide hgrammar hstate hqueue hn hdecide hmore
      · exact Keeps.part_eq (fun c => (inert_retry c).act (fun _ _ h => h) _ _ _ _) hact
    cases step_ok hrun with
    | refused hn hdecide _ =>
      have hidle := h.idle_of_decide hqueue hn hdecide
      exact ⟨(h.toReopens.turned _).resumes hidle, fun _ => hidle⟩
    | suspended hn hdecide _ _ hact =>
      obtain ⟨hs, hidle⟩ := hacts hn hdecide hact
      exact ⟨hs.resumes hidle, fun _ => hidle⟩
    | @completed n decision commits _ _ _ t hn hdecide _ _ hact hcomplete =>
      obtain ⟨ht, hidle⟩ := hacts hn hdecide hact
      have hidle : s.retry = 0 := (retry_completeStep hcomplete).trans hidle
      exact ⟨(ht.completeStep hcomplete).resumes hidle, fun _ => hidle⟩
  · intro e s he hrun
    obtain ⟨n, hn, hdecide, -, -, rfl⟩ := step_error he hrun
    exact ⟨(h.toReopens.stuck e).resumes rfl, rfl⟩

lemma goForward (h : Resumes m r) (hgrammar : m.grammar.Fits)
    (hstate : r.state < m.grammar.states) : Yields m (goForward m) r := by
  cases hqueue : r.queue with
  | cons id rest =>
    have hstep : Run.goForward m r = Run.step m id r := by
      rw [Run.goForward, get_bind]
      simp only [hqueue]
    have hyields := h.step hgrammar hstate hqueue
    exact ⟨fun a s hrun => hyields.ok a s (hstep ▸ hrun),
      fun e s he hrun => hyields.error e s he (hstep ▸ hrun)⟩
  | nil =>
    have hidle := h.idle_of_nil hqueue
    have hacquired {found : Acquired} {t : Run} (hrun : acquire m r = .ok found t) :
        Reopens m t ∧ t.retry = 0 :=
      ⟨h.toReopens.acquire hrun, (retry_acquire hrun).trans hidle⟩
    constructor
    · intro a s hrun
      rw [Run.goForward, get_bind] at hrun
      simp only [hqueue] at hrun
      obtain ⟨found, t, hacquire, h1⟩ := bind_eq_ok.1 hrun
      obtain ⟨ht, hidle⟩ := hacquired hacquire
      cases found with
      | noToken region =>
        simp only [get_bind] at h1
        obtain ⟨u, t', hturn, h2⟩ := bind_eq_ok.1 h1
        obtain ⟨-, rfl⟩ := turnBack_ok hturn
        cases h2
        exact ⟨(ht.turned _).resumes hidle, fun _ => hidle⟩
      | _ =>
        cases h1
        exact ⟨ht.resumes hidle, fun _ => hidle⟩
    · intro e s he hrun
      rw [Run.goForward, get_bind] at hrun
      simp only [hqueue] at hrun
      rcases bind_eq_error.1 hrun with hacquire | ⟨found, t, hacquire, h1⟩
      · rw [grave_acquire m hacquire] at he
        cases he
      · obtain ⟨ht, hidle⟩ := hacquired hacquire
        cases found with
        | noToken region =>
          simp only [get_bind] at h1
          rcases bind_eq_error.1 h1 with hturn | ⟨u, t', -, h2⟩
          · obtain ⟨-, -, rfl⟩ := turnBack_error hturn
            exact ⟨(ht.stuck _).resumes rfl, rfl⟩
          · cases h2
        | _ => cases h1

end Resumes

/-- A move back brings back a front at which some alternative is there to be tried. -/
theorem yields_unwind (goal : Goal) (hpool : Pool.Sound r.forest)
    (hlog : r.log.records = records) (hfront : r.front.Retriable m records)
    (hidle : r.retry = 0) : Yields m (unwind m goal records) r := by
  have hsettle {q s : Run} {a : Option Status} (hq : Reopens m q)
      (hrun : (do return some (← settle m) : Op (Option Status)) q = .ok a s) :
      Resumes m s ∧ (a ≠ none → s.retry = 0) := by
    obtain ⟨status, t, hsettled, h1⟩ := bind_eq_ok.1 hrun
    cases h1
    rw [settle, get_bind] at hsettled
    obtain ⟨reached, u, hlook, h2⟩ := bind_eq_ok.1 hsettled
    obtain ⟨-, rfl⟩ := lookup_eq_ok.1 hlook
    cases h2
    exact ⟨hq.rests rfl rfl rfl rfl, fun _ => rfl⟩
  refine ⟨fun a s hrun => ?_, fun e s he hrun => ?_⟩
  · induction records generalizing r with
    | nil =>
      rw [unwind, get_bind] at hrun
      split at hrun
      · exact hsettle ⟨hpool, hlog ▸ hfront⟩ hrun
      · cases hrun
    | cons record older ih =>
      rw [unwind, get_bind] at hrun
      split at hrun
      · exact hsettle ⟨hpool, hlog ▸ hfront⟩ hrun
      · rw [modify_bind, tell_bind] at hrun
        obtain ⟨taken, t, hundo, h1⟩ := bind_eq_ok.1 hrun
        have htaken : Reopens.Undoes record taken (begun record older r) t :=
          Reopens.undoes hpool hundo
        obtain ⟨hopens, holder⟩ := hfront
        have hlog' : t.log.records = older := congrArg Journal.records htaken.log
        have hfront' : t.front.Retriable m older := holder.within htaken.front
        have hidle' : t.retry = 0 := by
          refine Eq.trans (Keeps.part_eq (fun c => (inert_retry c).undo ?_) hundo) hidle
          exact fun _ _ _ h => h
        have ht : Reopens m t := ⟨htaken.pool, hlog' ▸ hfront'⟩
        cases taken with
        | action data =>
          cases h1
          exact ⟨ht.resumes hidle', fun _ => hidle'⟩
        | plain => cases goal <;> exact ih htaken.pool hlog' hfront' hidle' h1
        | decision alternative =>
          cases goal with
          | step target => exact ih htaken.pool hlog' hfront' hidle' h1
          | backtrack =>
            cases h1
            refine ⟨⟨ht.quiet rfl rfl rfl, fun _ => ⟨rfl, ?_⟩⟩, fun hnone => absurd rfl hnone⟩
            exact (hopens _ _ (htaken.reopens alternative rfl)).within htaken.front
  · rw [grave_unwind m goal records hrun] at he
    cases he

namespace Resumes

lemma turn (h : Resumes m r) (hgrammar : m.grammar.Fits)
    (hstate : r.state < m.grammar.states) : Yields m (turn m) r := by
  have hyields {op : Op (Option Status)} (hsame : Run.turn m r = op r) (hop : Yields m op r) :
      Yields m (Run.turn m) r :=
    ⟨fun a s hrun => hop.ok a s (hsame ▸ hrun), fun e s he hrun => hop.error e s he (hsame ▸ hrun)⟩
  cases hpoint : r.point with
  | start =>
    refine hyields ?_ (h.goForward hgrammar hstate)
    rw [Run.turn, get_bind]
    simp only [hpoint]
  | reverse goal =>
    have hidle := h.idle fun hstart => by cases hpoint.symm.trans hstart
    refine hyields ?_ (yields_unwind goal h.pool rfl h.log hidle)
    rw [Run.turn, get_bind]
    simp only [hpoint]
  | done =>
    have hidle := h.idle fun hstart => by cases hpoint.symm.trans hstart
    have hdone : Run.turn m r = .ok (some .done) r := by
      rw [Run.turn, get_bind]
      simp only [hpoint]
      rfl
    refine ⟨fun a s hrun => ?_, fun e s _ hrun => ?_⟩
    · cases hdone.symm.trans hrun
      exact ⟨h, fun _ => hidle⟩
    · cases hdone.symm.trans hrun
  | _ =>
    refine ⟨fun a s hrun => ?_, fun e s he hrun => ?_⟩
    all_goals
      rw [Run.turn, get_bind] at hrun
      simp only [hpoint] at hrun
      cases hrun
    cases he

lemma enter {entry : Entry} (h : Resumes m r) (hidle : r.retry = 0) :
    Yields m (enter m entry) r := by
  constructor
  · intro a s hrun
    cases enter_ok hrun with
    | done _ => exact ⟨h, fun _ => hidle⟩
    | back _ => exact ⟨h, fun _ => hidle⟩
    | start _ _ => exact ⟨h, fun _ => hidle⟩
    | action _ _ => exact ⟨h.toReopens.rests rfl rfl rfl hidle, fun _ => hidle⟩
    | reduction _ _ hresume =>
      have hon : Reopens m { r with point := .start } := h.toReopens.quiet rfl rfl rfl
      rcases resumeReduction_ok hresume with ⟨-, -, -, span, rfl⟩ | ⟨-, hcomplete⟩
      · exact ⟨h.toReopens.rests rfl rfl rfl hidle, fun _ => hidle⟩
      · have hidle : s.retry = 0 := (retry_completeStep hcomplete).trans hidle
        exact ⟨(hon.completeStep hcomplete).resumes hidle, fun _ => hidle⟩
  · intro e s he hrun
    rcases enter_error he hrun with ⟨-, -, rfl⟩ | ⟨production, commits, -, -, hresume⟩
    · exact ⟨h, hidle⟩
    · obtain ⟨-, -, span, -, rfl, -⟩ := resumeReduction_error he hresume
      exact ⟨h.toReopens.rests rfl rfl rfl rfl, rfl⟩

end Resumes

end Moves

end Rewind.Run
