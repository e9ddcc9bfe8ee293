import Rewind.Proofs.Calls
import Rewind.Proofs.Laws
import Rewind.Proofs.Release
import Rewind.Proofs.Written

/-!
# Where an operation stops short

An operation can fail in the middle of what it does: the source of the stream breaks off, the pool
is full, a table or the caller is at fault.  What it has done by then is not taken back, but every
node still has its owner, and no link has been followed to a slot that holds nothing.
-/

namespace Rewind

/-! ## Faults of tables -/

/-- A lookup that follows no links. -/
abbrev Linkless {α : Type} (x : Except Fault α) : Prop :=
  Meets (fun f => f.ofLinks = false) x

namespace Linkless

variable {α : Type}

lemma entry (table : Array α) (index : Nat) : Linkless (Rewind.entry table index) := by
  unfold Rewind.entry
  split
  · exact .ok _
  · exact .error rfl

lemma stretch (table : Array α) (start count : Nat) :
    Linkless (Rewind.stretch table start count) := by
  unfold Rewind.stretch
  split
  · exact .ok _
  · exact .error rfl

end Linkless

namespace Grammar.Tables

lemma linkless_lookup (t : Tables) (state : StateId) (element : ElementId) :
    Linkless (t.lookup state element) := by
  refine (Linkless.entry _ _).bind fun low => (Linkless.entry _ _).bind fun high => ?_
  split
  · exact .ok _
  · refine (Linkless.entry _ _).bind fun offset => (Linkless.entry _ _).bind fun owner => ?_
    split
    · refine (Linkless.entry _ _).bind fun transition => ?_
      split <;> exact .ok _
    · exact .ok _

lemma linkless_decide (t : Tables) (state : StateId) (element : ElementId) (alternative : Nat) :
    Linkless (t.decide state element alternative) := by
  refine (t.linkless_lookup state element).bind fun found => ?_
  cases found with
  | none => exact .ok _
  | some transition =>
    refine (Linkless.entry _ _).bind fun start => ?_
    dsimp only
    split
    · split <;> exact .ok _
    · exact .error rfl

lemma linkless_regionsOf (t : Tables) (state : StateId) : Linkless (t.regionsOf state) := by
  refine (Linkless.entry _ _).bind fun start => ?_
  split
  · exact .ok _
  · exact .error rfl

end Grammar.Tables

/-! ## Scans that fail -/

namespace Scanner

lemma Tables.linkless_listAt (t : Tables) (offset : Nat) : Linkless (t.listAt offset) := by
  unfold listAt
  split
  · exact .ok _
  · exact (Linkless.entry _ _).bind fun length => (Linkless.stretch _ _ _).bind fun _ => .ok _

lemma Tables.linkless_transition (t : Tables) (state : StateId) (key : UInt8) :
    Linkless (t.transition state key) := by
  refine (Linkless.entry _ _).bind fun offset => (Linkless.entry _ _).bind fun singles =>
    (Linkless.entry _ _).bind fun ranges => (Linkless.entry _ _).bind fun base =>
    (Linkless.stretch _ _ _).bind fun keys => ?_
  split
  · exact .ok _
  · exact (Linkless.stretch _ _ _).bind fun _ => .ok _

namespace Scan

/-- A stage that fails has taken nothing from the stream, and a fault of it is one of tables. -/
def Harmless (stage : Stage) : Prop :=
  ∀ ⦃s u : Scan⦄ ⦃x : Failure Error⦄, stage s = .error x u →
    u.stream.content = s.stream.content ∧ ∀ f, x = .fault f → f.ofLinks = false

namespace Harmless

variable {t : Tables}

lemma andThen {first second : Stage} (hblind : Blind first) (hfirst : Harmless first)
    (hsecond : Harmless second) : Harmless (first.andThen second) := by
  intro s u x h
  unfold Stage.andThen at h
  split at h
  · rename_i v hv
    rw [← (hblind.ok hv).1]
    exact hsecond h
  · cases h
  · rename_i e v hv
    cases h
    exact hfirst hv

lemma change (f : Scan → Scan) : Harmless (Scan.change f) := by
  intro s u x h
  cases h

lemma fault {α : Type} {x : Except Fault α} {s u : Scan} {f : Fault} {e : Failure Error}
    (hx : Linkless x) (hf : x = .error f)
    (h : (.error (.fault f) s : EStateM.Result (Failure Error) Scan (Option Outcome)) =
      .error e u) :
    u.stream.content = s.stream.content ∧ ∀ f, e = .fault f → f.ofLinks = false := by
  cases h
  refine ⟨rfl, ?_⟩
  rintro _ ⟨⟩
  exact hx f hf

lemma perform (ending : Nat) (action : Action) : Harmless (Scan.perform ending action) := by
  intro s u x h
  have hreported {e : Error} (h : (.error (.error e) s :
      EStateM.Result (Failure Error) Scan (Option Outcome)) = .error x u) :
      u.stream.content = s.stream.content ∧ ∀ f, x = .fault f → f.ofLinks = false := by
    cases h
    exact ⟨rfl, nofun⟩
  unfold Scan.perform at h
  split at h
  · cases h
  · cases h
  · split at h
    · cases h
    · exact hreported h
  · split at h
    · split at h
      · cases h
      · exact hreported h
    · exact hreported h

lemma executeList (list : Except Fault Nat) (hlist : Linkless list) (ending : Nat) :
    Harmless (Scan.executeList t list ending) := by
  have hperformAt (index : Nat) : Harmless (performAt t ending index) := by
    intro s u x h
    unfold performAt at h
    split at h
    · exact perform _ _ h
    · rename_i f hf
      exact fault (Linkless.entry _ _) hf h
  have hexecute : ∀ indices, Harmless (Scan.execute t ending indices) := by
    intro indices
    induction indices with
    | nil =>
      intro s u x h
      cases h
    | cons index rest ih => exact andThen (.performAt ending index) (hperformAt index) ih
  intro s u x h
  unfold Scan.executeList at h
  split at h
  · exact hexecute _ h
  · rename_i f hf
    exact fault (hlist.bind t.linkless_listAt) hf h

lemma conclude : Harmless Scan.conclude := by
  intro s u x h
  unfold Scan.conclude at h
  split at h <;> cases h

lemma finish : Harmless (Scan.finish t) := by
  intro s u x h
  exact andThen (.executeList _ _) (executeList _ (Linkless.entry _ _) _)
    (andThen .remember (change _) conclude) h

lemma advance (key : UInt8) : Harmless (Scan.advance t key) := by
  intro s u x h
  unfold Scan.advance at h
  split at h
  · rename_i f hf
    exact fault (t.linkless_transition _ _) hf h
  · split at h
    · rename_i f hf
      exact fault (Linkless.entry _ _) hf h
    · rename_i target _
      have hend : Harmless (if target = t.dead then Scan.conclude else
          (Scan.executeList t (entry t.onArrival target) (s.offset + 1)).andThen
            (Scan.change (Scan.remember t))) := by
        split
        · exact conclude
        · exact andThen (.executeList _ _) (executeList _ (Linkless.entry _ _) _) (change _)
      have hpass : Blind (Scan.change fun s => { s with offset := s.offset + 1 }) :=
        .change fun _ _ => rfl
      have hall := andThen (.executeList _ _) (executeList _ (Linkless.entry t.onTransition _) _)
        (andThen hpass (change _) hend) h
      exact hall

lemma look : Harmless (Scan.look t) := by
  intro s u x h
  unfold Scan.look at h
  split at h
  · rename_i item stream hpeek
    have hmeet : Harmless (Scan.meet t item) := by
      intro s u x h
      unfold Scan.meet at h
      split at h
      · exact advance _ h
      · split at h
        · cases h
        · exact finish h
      · split at h
        · cases h
        · exact finish h
    obtain ⟨hcontent, hfault⟩ := hmeet h
    exact ⟨hcontent.trans (Stream.peek_ok hpeek).1, hfault⟩
  · rename_i message stream hpeek
    cases h
    exact ⟨(Stream.peek_error hpeek).1, nofun⟩

lemma step : Harmless (Scan.step t) := by
  intro s u x h
  have hall := andThen (.executeList _ _) (executeList _ (Linkless.entry t.onDeparture _) _)
    look h
  exact hall

lemma run {s u : Scan} {x : Failure Error} (h : Scan.run t s = .error x u) :
    u.stream.content = s.stream.content ∧ ∀ f, x = .fault f → f.ofLinks = false := by
  fun_induction Scan.run t s with
  | case1 s v hv ih =>
    obtain ⟨hcontent, hfault⟩ := ih h
    exact ⟨hcontent.trans (step_eq_none hv).1, hfault⟩
  | case2 s outcome v hv => cases h
  | case3 s e v hv =>
    cases h
    exact step hv

end Harmless

end Scan

/-- A scanner that fails has taken nothing from its stream. -/
lemma run_error {t : Tables} {region : RegionId} {s u : Scanner} {stream : Stream}
    {x : Failure Error} (hs : s.stream = some stream) (h : run t region s = .error x u) :
    (∃ rest, u.stream = some rest ∧ rest.content = stream.content) ∧
      ∀ f, x = .fault f → f.ofLinks = false := by
  unfold run at h
  split at h
  · cases h
    exact ⟨⟨stream, hs, rfl⟩, nofun⟩
  · rename_i hnone
    rw [hs] at hnone
    cases hnone
  · rename_i state stream' _ hs'
    obtain rfl : stream = stream' := Option.some.inj (hs.symm.trans hs')
    split at h
    · cases h
    · rename_i e scan hrun
      cases h
      obtain ⟨hcontent, hfault⟩ := Scan.Harmless.run hrun
      exact ⟨⟨_, rfl, hcontent⟩, hfault⟩

end Scanner

namespace Run

open Attempt Op

variable {m : Machine} {strict : Prop} {Noted : List Record → View → Prop} {base : View}
  {before later records : List Record} {v w : View} {unread : Nat} {r s t : Run}

/-! ## Owners along a path -/

/-- Every node of a run has one owner, and its stream and its pool are in order. -/
structure NodesOwned (r : Run) : Prop extends Tidy False r where
  owned : Owned r.log.records r.view

/-- No tree was pushed since. -/
def Unpushed (before : List Record) (r : Run) : Prop :=
  ∃ newer, r.log.records = newer ++ before ∧ ∀ id, .treePushed id ∉ newer

lemma Written.unpushed (h : Written Record.isOwn before r) : Unpushed before r := by
  obtain ⟨newer, hnewer, hown⟩ := h
  refine ⟨newer, hnewer, fun id hmem => ?_⟩
  cases hown _ hmem

lemma Unpushed.single {newer older : List Record} {record : Record} {x x' : View}
    (h : Unpushed before r) (hsplit : r.log.records = newer ++ record :: older)
    (hpath : Path m strict Noted before w unread older x) : Single record x' := by
  obtain ⟨mid, rfl⟩ := hpath.suffix
  obtain ⟨all, hall, hnone⟩ := h
  have hsame : all = newer ++ record :: mid := by
    have hcat : all ++ before = (newer ++ record :: mid) ++ before := by
      rw [← hall, hsplit, List.append_assoc, List.cons_append]
    exact List.append_cancel_right hcat
  rintro id rfl
  exact absurd (by simp [hsame]) (hnone id)

lemma Owned.along (h : Owned before w) (hpath : Path m strict Noted before w unread later v)
    (hsingle : ∀ newer record older x x', later = newer ++ record :: older →
      Path m strict Noted before w unread older x →
      Change m strict unread older.length record x x' → Single record x') : Owned later v := by
  induction hpath with
  | start => exact h
  | @change _ latest _ _ hbefore hc _ ih =>
    refine (ih fun newer record older x x' hsplit =>
      hsingle (latest :: newer) record older x x' ?_).change hc (hsingle [] _ _ _ _ rfl hbefore hc)
    rw [hsplit, List.cons_append]

namespace NodesOwned

lemma orderly (h : NodesOwned r) : Orderly r.view :=
  h.owned.orderly

/-- What pushes no tree leaves every node one owner. -/
lemma moves (h : NodesOwned r) (hmoves : Moves m False Noted r s)
    (hnone : Unpushed r.log.records s) :
    NodesOwned s :=
  ⟨hmoves.tidy, h.owned.along hmoves.path fun _ _ _ _ _ hsplit hpath _ =>
    hnone.single hsplit hpath⟩

/-- Nothing that is owned has changed its place, though text may have been lost. -/
lemma keep (h : NodesOwned r) (hforest : s.forest = r.forest) (hstack : s.stack = r.stack)
    (haside : s.aside = r.aside) (hwaiting : s.waiting = r.waiting)
    (hdropped : s.log.records.filterMap Record.dropped? =
      r.log.records.filterMap Record.dropped?)
    (hattached : s.scanner.stream.isSome) : NodesOwned s := by
  refine ⟨⟨hattached, hforest ▸ h.pool, nofun⟩, h.owned.keep hstack haside ?_ hwaiting hdropped⟩
  exact shown_congr (congrArg _ hforest) fun j => by rw [hwaiting]

lemma marked (h : NodesOwned r) : NodesOwned (marked r) := by
  unfold Run.marked
  split
  · exact h.keep rfl rfl rfl rfl rfl h.attached
  · exact h

/-- A node that waits is live. -/
lemma live (h : NodesOwned r) (id : NodeId) (hid : id ∈ r.waiting) :
    ∃ n, Pool.get? r.forest id = some n := by
  refine Option.isSome_iff_exists.1 ?_
  rw [← isSome_shown]
  exact h.orderly.live id hid

end NodesOwned

/-! ## Operations that stop short -/

/-- If the operation stops short, then with an error that leaves every node its owner, or with a
fault that is not of links. -/
def Safe {α : Type} (op : Op α) (r : Run) : Prop :=
  ∀ ⦃x : Failure Error⦄ ⦃s : Run⦄, op r = .error x s →
    (∃ e, x = .error e ∧ NodesOwned s) ∨ ∃ f, x = .fault f ∧ f.ofLinks = false

namespace Safe

variable {α β : Type}

lemma of_ok {op : Op α} {a : α} (h : op r = .ok a s) : Safe op r := by
  intro x t hrun
  rw [h] at hrun
  cases hrun

lemma bind {x : Op α} {f : α → Op β} (hx : Safe x r)
    (hf : ∀ a t, x r = .ok a t → Safe (f a) t) : Safe (x >>= f) r := by
  intro y s h
  rcases bind_eq_error.1 h with h | ⟨a, t, hxt, h⟩
  · exact hx h
  · exact hf a t hxt h

/-- An operation behind one that succeeds. -/
lemma after {x : Op α} {f : α → Op β} {a : α} (hx : x r = .ok a t) (hf : Safe (f a) t) :
    Safe (x >>= f) r := by
  intro y s h
  rw [bind_ok hx] at h
  exact hf h

lemma pure (a : α) (r : Run) : Safe (pure a) r :=
  of_ok rfl

lemma ite {p : Prop} [Decidable p] {x y : Op α} (hx : p → Safe x r) (hy : ¬p → Safe y r) :
    Safe (if p then x else y) r := by
  split
  · exact hx ‹_›
  · exact hy ‹_›

lemma fail (h : NodesOwned r) (e : Error) : Safe (Op.fail e : Op α) r := by
  intro x s hrun
  cases hrun
  exact .inl ⟨e, rfl, h⟩

lemma lookup {x : Except Fault α} (hx : Linkless x) (r : Run) : Safe (Op.lookup x) r := by
  intro y s hrun
  cases x with
  | ok a => cases hrun
  | error f =>
    cases hrun
    exact .inr ⟨f, rfl, hx f rfl⟩

lemma alloc (h : NodesOwned r) (n : Node) : Safe (Op.alloc n) r := by
  intro x s hrun
  have hsame := alloc_error hrun
  unfold Op.alloc at hrun
  split at hrun
  · cases hrun
  · cases hrun
    exact .inl ⟨_, rfl, by rwa [hsame]⟩

lemma setAside {id : NodeId} (hlive : (Pool.get? r.forest id).isSome) :
    Safe (Op.setAside id) r := by
  obtain ⟨n, hn⟩ := Option.isSome_iff_exists.1 hlive
  exact of_ok (a := ()) (setAside_eq_ok.2 ⟨n, hn, rfl⟩)

lemma turnBack (h : NodesOwned r) (e : Error) : Safe (turnBack e) r := by
  intro x s hrun
  rw [Run.turnBack, tell_bind, get_bind] at hrun
  split at hrun
  · cases hrun
  · rw [modify_bind] at hrun
    cases hrun
    exact .inl ⟨e, rfl, h.keep rfl rfl rfl rfl rfl h.attached⟩

end Safe

/-! ## Acquiring -/

lemma nodesOwned_rescans (h : NodesOwned r) (hrescans : Rescans r s) : NodesOwned s := by
  have hcontent := hrescans.content.1
  obtain ⟨stream, rest, scanner, -, hs, -, rfl⟩ := hrescans
  exact h.keep rfl rfl rfl (by rw [waiting, waiting, hcontent]) rfl (by simp [hs])

lemma safe_scan (h : NodesOwned r) (region : RegionId) : Safe (scan m region) r := by
  obtain ⟨stream, hs⟩ := h.stream
  intro x s hrun
  unfold scan onScanner at hrun
  split at hrun
  · cases hrun
  · rename_i e scanner hscan
    cases hrun
    obtain ⟨⟨rest, hrest, hcontent⟩, -⟩ := Scanner.run_error hs hscan
    refine .inl ⟨_, rfl, h.keep rfl rfl rfl ?_ rfl ?_⟩
    · simp [waiting, content, hs, hrest, hcontent]
    · simp [hrest]
  · rename_i f scanner hscan
    cases hrun
    exact .inr ⟨f, rfl, (Scanner.run_error hs hscan).2 f rfl⟩

/-- The text of a token that finds no slot is lost, but no node is. -/
lemma safe_takeToken (h : NodesOwned r) (region : RegionId) (element : ElementId) (length : Nat) :
    Safe (takeToken m region element length) r := by
  obtain ⟨stream, hs⟩ := h.stream
  rcases hextract : stream.extract length with ⟨text, rest⟩
  obtain ⟨hcontent, -, -, -⟩ := Stream.content_extract hextract
  let t : Run := { r with scanner := { r.scanner with stream := some rest } }
  have hstream : onStream (·.extract length) r = .ok text t :=
    onStream_eq_ok.2 ⟨stream, hs, by rw [hextract], by rw [hextract]⟩
  have htaken : NodesOwned (marked t) := by
    refine NodesOwned.marked (h.keep rfl rfl rfl ?_ rfl rfl)
    simp [waiting, content, hs, hcontent, t]
  refine Safe.after (a := r) (t := r) rfl (.after hstream (.after (tookInput_apply _) ?_))
  generalize marked t = q at htaken
  refine .ite (fun _ => .of_ok rfl) fun _ => .bind (.alloc htaken _) fun id u hmake => ?_
  obtain ⟨forest, halloc, rfl⟩ := alloc_eq_ok.1 hmake
  have hlive := (Pool.get?_of_alloc htaken.pool halloc).2
  refine .after (tell_apply _ _) (.ite (fun _ => ?_) fun _ => .of_ok rfl)
  refine .bind (.setAside ?_) fun _ _ _ => .of_ok rfl
  exact (congrArg Option.isSome (congrFun hlive id)).trans (by simp)

lemma safe_takeTree {stream : Stream} {id : NodeId} {ignore : Bool} (h : NodesOwned r)
    (hs : r.scanner.stream = some stream)
    (hvalid : (Scanner.Outcome.tree id ignore).Valid m.scanner stream) (region : RegionId) :
    Safe (takeTree region id ignore) r := by
  obtain ⟨rest, htake, hcontent, -, -⟩ := Stream.takeTree?_eq_some hvalid
  obtain ⟨n, hn⟩ := h.live id (by simp [waiting, content, hs, hcontent, trees])
  refine .after (changeStream_ok hs) ?_
  simp only [htake]
  refine .after (tookInput_apply _) ?_
  have hn' : Pool.get? (marked { r with
      scanner := { r.scanner with stream := some rest } }).forest id = some n := by
    rw [(sameCourse_marked _).2.1]
    exact hn
  generalize marked { r with scanner := { r.scanner with stream := some rest } } = q at hn'
  refine .after (write_apply _ _) (.after (node_ok hn') (.after (tell_apply _ _)
    (.ite (fun _ => ?_) fun _ => .of_ok rfl)))
  refine .bind (.setAside ?_) fun _ _ _ => .of_ok rfl
  exact Option.isSome_iff_exists.2 ⟨n, hn'⟩

lemma safe_meetEnd (h : NodesOwned r) (region : RegionId) : Safe (meetEnd m region) r := by
  refine Safe.after (a := r) (t := r) rfl (.ite (fun _ => .of_ok rfl) fun _ => ?_)
  exact .bind (.alloc h _) fun id t _ => .of_ok rfl

lemma safe_acquireIn {regions : List RegionId} (h : NodesOwned r) (first : RegionId) :
    Safe (acquireIn m first regions) r := by
  induction regions generalizing r with
  | nil => exact .pure _ _
  | cons region regions ih =>
    refine .bind (safe_scan h region) fun outcome u hscan => ?_
    obtain ⟨stream, hrescans, hs, hvalid, -⟩ := scan_ok hscan
    have hu := nodesOwned_rescans h hrescans
    cases outcome with
    | noToken => exact ih hu
    | eof => exact safe_meetEnd hu region
    | tree id ignore => exact safe_takeTree hu hs hvalid region
    | token element length => exact safe_takeToken hu region element length

lemma safe_acquire (h : NodesOwned r) : Safe (acquire m) r := by
  refine Safe.after (a := r) (t := r) rfl (.bind (.lookup (m.grammar.linkless_regionsOf _) r)
    fun regions t hlook => ?_)
  obtain ⟨-, rfl⟩ := lookup_eq_ok.1 hlook
  exact safe_acquireIn h _

/-! ## Shifting and reducing -/

/-- Nodes are taken off a stack that ends, or found to be too few. -/
lemma unstack_linked {f : Forest} {top : Option NodeId} {ids : List NodeId}
    (h : Linked (Pool.get? f) top ids none) (needed : Nat) (taken : List NodeId) :
    ∃ found, unstack f needed top taken = .ok found := by
  induction needed generalizing top ids taken with
  | zero => exact ⟨_, rfl⟩
  | succ needed ih =>
    cases h with
    | nil => exact ⟨_, rfl⟩
    | cons hn h =>
      obtain ⟨found, hfound⟩ := ih h (_ :: taken)
      refine ⟨found, ?_⟩
      rw [unstack, read_eq_ok.2 hn]
      exact hfound

/-- Live nodes can be linked, and the same slots are live afterwards. -/
lemma linkSiblings_live {ids : List NodeId} (hlive : ∀ id ∈ ids, (Pool.get? r.forest id).isSome) :
    ∃ forest, linkSiblings ids r = .ok () { r with forest } ∧
      ∀ j, (Pool.get? forest j).isSome = (Pool.get? r.forest j).isSome := by
  induction ids generalizing r with
  | nil => exact ⟨r.forest, rfl, fun _ => rfl⟩
  | cons id ids ih =>
    obtain ⟨n, hn⟩ := Option.isSome_iff_exists.1 (hlive id List.mem_cons_self)
    let t : Run := { r with forest := r.forest.put id { n with next := ids.head? } }
    have hput : ∀ j, (Pool.get? t.forest j).isSome = (Pool.get? r.forest j).isSome := by
      intro j
      by_cases hj : j = id
      · subst hj
        rw [hn, Pool.get?_put_self hn]
        rfl
      · rw [Pool.get?_put_of_ne hj]
    obtain ⟨forest, hlink, hsame⟩ := ih (r := t) fun j hj => by
      rw [hput j]
      exact hlive j (List.mem_cons_of_mem _ hj)
    refine ⟨forest, ?_, fun j => (hsame j).trans (hput j)⟩
    rw [linkSiblings, bind_ok (change_ok hn)]
    exact hlink

/-- A reduction stops short before it has changed anything: the stack is too short, or the pool is
full. -/
lemma safe_reduce (h : NodesOwned r) (production : ProductionId) (alternative : Nat)
    (more commits : Bool) : Safe (reduce m production alternative more commits) r := by
  obtain ⟨ids, hlinked, -, -⟩ := stack_shown h.orderly
  refine .bind (.lookup (.entry _ _) r) fun info t hlook => ?_
  obtain ⟨-, rfl⟩ := lookup_eq_ok.1 hlook
  obtain ⟨found, hfound⟩ := unstack_linked hlinked info.length []
  refine Safe.after (a := t) (t := t) rfl (Safe.after (a := t) (t := t) rfl
    (Safe.after (a := t) (t := t) rfl (.after (lookup_eq_ok.2 ⟨hfound, rfl⟩) ?_)))
  cases found with
  | error found => exact .fail h _
  | ok found =>
    obtain ⟨children, below⟩ := found
    obtain ⟨taken, hchildren, -, htaken⟩ := linked_of_unstack hfound
    obtain ⟨rest, -, hrest⟩ := htaken.behind hlinked
    have hlive : ∀ j ∈ children, (Pool.get? t.forest j).isSome := by
      intro j hj
      rw [hchildren, List.append_nil, List.mem_reverse] at hj
      exact htaken.live j hj
    obtain ⟨span, hspan⟩ := spanOf_live hlive
    refine Safe.after (a := t) (t := t) rfl (.after (lookup_eq_ok.2 ⟨hspan, rfl⟩)
      (.bind (.alloc h _) fun tree u hmake => ?_))
    obtain ⟨made, halloc, rfl⟩ := alloc_eq_ok.1 hmake
    have hmade : ∀ j, (Pool.get? t.forest j).isSome → (Pool.get? made j).isSome := by
      intro j hj
      rw [(Pool.get?_of_alloc h.pool halloc).2]
      by_cases hjt : j = tree
      · simp [hjt]
      · rwa [Function.update_of_ne hjt]
    obtain ⟨linked, hlink, hsame⟩ := linkSiblings_live (r := { t with forest := made })
      fun j hj => hmade j (hlive j hj)
    obtain ⟨state, hstate⟩ : ∃ state, stateOf m linked below = .ok state := by
      cases hrest with
      | nil => exact ⟨_, rfl⟩
      | @cons top n _ _ hn _ =>
        have htop : (Pool.get? linked top).isSome := by
          rw [hsame top]
          exact hmade top (by simp [hn])
        obtain ⟨n', hn'⟩ := Option.isSome_iff_exists.1 htop
        exact ⟨n'.state, by rw [stateOf, read_eq_ok.2 hn']; rfl⟩
    refine .after hlink (Safe.after (a := _) (t := _) rfl
      (.after (lookup_eq_ok.2 ⟨hstate, rfl⟩) ?_))
    generalize hq : ({ t with forest := linked } : Run) = q
    refine .after (modify_apply _ _) (.after (modify_apply _ _) (.after (write_apply _ _) ?_))
    exact .ite (fun _ => .after (modify_apply _ _) (.pure _ _)) fun _ => .pure _ _

/-- The lookahead can always be shifted. -/
lemma shift_lookahead {id : NodeId} {rest : List NodeId} {n : Node} (hqueue : r.queue = id :: rest)
    (hn : Pool.get? r.forest id = some n) (target : StateId) (alternative : Nat) (more : Bool) :
    ∃ s, shift m id target alternative more r = .ok () s := by
  have htake : takeFront id r = .ok () { r with queue := rest } :=
    takeFront_eq_ok.2 ⟨rest, hqueue, rfl⟩
  rw [shift, bind_ok htake, bind_ok (node_ok (r := { r with queue := rest }) hn)]
  simp only [get_bind]
  rw [show (if n.ignored.isNone = true ∧ m.grammar.isTerminal n.element = true then r.aside
    else none) = carried m n r.aside from rfl]
  rcases carried_cases m n r.aside with hnone | ⟨first, hsome, -, -⟩
  · simp only [hnone, Option.isSome_none, Bool.false_eq_true, if_false]
    rw [bind_ok (change_ok (r := { r with queue := rest }) hn)]
    exact ⟨_, rfl⟩
  · simp only [hsome, Option.isSome_some, if_true, modify_bind]
    rw [bind_ok (change_ok (r := { r with queue := rest, aside := none }) hn),
      bind_ok (change_ok (Pool.get?_put_self hn))]
    exact ⟨_, rfl⟩

/-- A step can always be completed. -/
lemma safe_completeStep (h : NodesOwned r) (commits : Bool) : Safe (completeStep m commits) r := by
  have hclosed : Moves m False (fun _ _ => True) r (closed commits r) :=
    moves_closed h.toTidy commits
  have hstepped : Orderly (stepped commits r).view := (hclosed.orderly h.orderly).keep rfl rfl rfl
  have hlook : lookup (atEnd m (stepped commits r)) (stepped commits r) =
      .ok ((stepped commits r).view.ended m) (stepped commits r) :=
    lookup_eq_ok.2 ⟨atEnd_ok hstepped, rfl⟩
  have hend : Safe (endStep m) (closed commits r) := by
    refine .after (write_apply _ _) (.after (t := stepped commits r) rfl
      (Safe.after (a := stepped commits r) (t := stepped commits r) rfl (.after hlook ?_)))
    exact .ite (fun _ => .of_ok rfl) fun _ => .ite (fun _ => .of_ok rfl) fun _ =>
      .ite (fun _ => .of_ok rfl) fun _ => .of_ok rfl
  intro x s hrun
  rw [completeStep_eq] at hrun
  exact hend hrun

/-! ## Going forward -/

lemma safe_act {id : NodeId} {rest : List NodeId} {n : Node} {decision : Grammar.Decision}
    {target : StateId} {commits : Bool} (h : NodesOwned r) (hqueue : r.queue = id :: rest)
    (hn : Pool.get? r.forest id = some n)
    (hdecide : m.grammar.decide r.state n.element r.retry = .ok (some decision))
    (htarget : m.grammar.targets[decision.transition]? = some target) :
    Safe (act m id decision target commits) (decided n.element decision r) := by
  have hdecided : NodesOwned (decided n.element decision r) := h.keep rfl rfl rfl rfl rfl h.attached
  obtain ⟨t, ht⟩ := shift_lookahead (m := m) (r := decided n.element decision r) hqueue hn target
    decision.alternative decision.more
  unfold act
  cases haction : decision.action with
  | shift => exact .after ht (.pure _ _)
  | reduce production => exact safe_reduce hdecided ..
  | shiftReduce production =>
    have hshifts : Shifts m r.state n.element decision.alternative decision.more target :=
      ⟨decision, by rw [decide_alternative hdecide, hdecide], rfl, htarget, .inr ⟨_, haction⟩⟩
    have hmoves : Moves m False (fun _ _ => True) r t :=
      (moves_shift h.toTidy h.orderly hn hshifts ht).1
    have hwritten : Written Record.isOwn r.log.records t :=
      written_shift (r := decided n.element decision r) ht
    exact .after ht (safe_reduce (h.moves hmoves hwritten.unpushed) ..)

lemma safe_step {id : NodeId} {rest : List NodeId} (h : NodesOwned r)
    (hqueue : r.queue = id :: rest) :
    Safe (step m id) r := by
  obtain ⟨n, hn⟩ := h.live id (by simp [waiting, hqueue])
  refine .after (node_ok hn) (Safe.after (a := r) (t := r) rfl
    (.bind (.lookup (m.grammar.linkless_decide _ _ _) r) fun found t hlook => ?_))
  obtain ⟨hdecide, rfl⟩ := lookup_eq_ok.1 hlook
  cases found with
  | none => exact .bind (.turnBack h _) fun _ _ _ => .pure _ _
  | some decision =>
    refine .after (tell_apply _ _) (.after (t := decided n.element decision t) rfl
      (.bind (.lookup (.entry _ _) _) fun commits u hlook => ?_))
    obtain ⟨-, rfl⟩ := lookup_eq_ok.1 hlook
    refine .bind (.lookup (.entry _ _) _) fun target u hlook => ?_
    obtain ⟨htarget, rfl⟩ := lookup_eq_ok.1 hlook
    rw [entry_eq_ok_iff] at htarget
    refine .bind (safe_act h hqueue hn hdecide htarget) fun status u hact => ?_
    cases status with
    | some status => exact .pure _ _
    | none =>
      have hmoves : Moves m False (fun _ _ => True) t u :=
        (moves_act h.toTidy h.orderly hn hdecide htarget hact).1
      have hwritten : Written Record.isOwn t.log.records u :=
        written_act (r := decided n.element decision t) hact
      exact safe_completeStep (h.moves hmoves hwritten.unpushed) _

lemma safe_goForward (h : NodesOwned r) : Safe (goForward m) r := by
  refine Safe.after (a := r) (t := r) rfl ?_
  cases hqueue : r.queue with
  | cons id rest => exact safe_step h hqueue
  | nil =>
    refine .bind (safe_acquire h) fun found t hacquire => ?_
    cases found with
    | queued => exact .pure _ _
    | skipped => exact .pure _ _
    | suspended status => exact .pure _ _
    | noToken region =>
      obtain ⟨u, hrescans, hacquires⟩ := acquire_ok h.pool h.attached hacquire
      cases hacquires with
      | noToken _ _ =>
        refine Safe.after (a := t) (t := t) rfl ?_
        exact .bind (.turnBack (nodesOwned_rescans h hrescans) _) fun _ _ _ => .pure _ _

/-! ## Entering -/

lemma safe_resumeReduction (h : NodesOwned r) (production : ProductionId) (commits : Bool) :
    Safe (resumeReduction m production commits) r := by
  have hleft (rejecting : Bool) : NodesOwned { r with point := .start, rejecting } :=
    h.keep rfl rfl rfl rfl rfl h.attached
  let q : Run := { r with point := .start }
  let t : Run := { r with point := .start, rejecting := false }
  have hfront : Safe frontSpan t := by
    refine Safe.after (a := t) (t := t) rfl ?_
    cases hqueue : t.queue with
    | nil => exact .pure _ _
    | cons tree rest =>
      obtain ⟨n, hn⟩ := (hleft false).live tree (by
        exact List.mem_append_left _ (hqueue ▸ List.mem_cons_self))
      exact .after (node_ok hn) (.pure _ _)
  refine Safe.after (t := q) rfl (Safe.after (a := q) (t := q) rfl (.ite (fun _ => ?_) fun _ => ?_))
  · refine Safe.after (t := t) rfl (.bind hfront fun span u hspan => ?_)
    obtain ⟨rfl, -⟩ := frontSpan_ok hspan
    exact .bind (.turnBack (hleft false) _) fun _ _ _ => .pure _ _
  · exact safe_completeStep (hleft r.rejecting) commits

lemma safe_enter (h : NodesOwned r) (entry : Entry) : Safe (enter m entry) r := by
  refine Safe.after (a := r) (t := r) rfl ?_
  cases hpoint : r.point with
  | reduction production commits =>
    cases entry with
    | reduction =>
      exact .ite (fun _ => .fail h _) fun _ => safe_resumeReduction h production commits
    | _ => exact .ite (fun _ => .fail h _) fun _ => .fail h _
  | _ =>
    cases entry <;> first
      | exact .pure _ _
      | exact .ite (fun _ => .fail h _) fun _ => .pure _ _
      | exact .ite (fun _ => .fail h _) fun _ => .fail h _

end Run

end Rewind
