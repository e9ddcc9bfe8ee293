import Rewind.Proofs.Descent
import Rewind.Proofs.Mishaps

/-!
# Moving forward

Whatever a run does forward, it goes on to descend from its base: what it takes from the stream, its
lane gives up too, and everything else it writes down has nothing to do with the stream.  An
operation that fails may lose text, or leave its decision unwritten, but it does not end before the
run is over unless it halts where it stands.
-/

namespace Rewind.Run

open Attempt Op

variable {m : Machine} {base : View} {r s : Run} {loose : List NodeId}
  {kept lane content : List Item} {id : NodeId} {ignore : Bool} {text : Bytes}

/-! ## Acquiring -/

lemma ahead_marked (r : Run) (kept : List Item) : (marked r).ahead kept = r.ahead kept := by
  rw [ahead, ahead, (sameCourse_marked r).1]

section Acquire

variable (h : Descends m base kept loose lane r) (hbase : Owned [] base)
include h

lemma Descends.rescans (hrescans : Rescans r s) : Descends m base kept loose lane s := by
  obtain ⟨stream, rest, scanner, hs, hs', hextends, rfl⟩ := hrescans
  refine h.quiet rfl rfl rfl ?_
  rw [ahead_eq hs, ahead_eq hs', hextends.content]

lemma Descends.marked : Descends m base kept loose lane (marked r) := by
  unfold Run.marked
  split
  · rename_i hran
    exact h.writes (writes_endActionMarked h.tidy false hran r.point) rfl rfl
  · exact h

include hbase

/-- A token comes to the queue. -/
lemma descends_scanned {n : Node} {forest : Forest} {start : Position} (scanner : Scanner)
    (events : List Event)
    (hcontent : r.ahead kept = n.text.map .byte ++ { r with scanner }.ahead kept)
    (halloc : Pool.alloc r.forest n = (.ok id, forest)) (hloose : n.loose = n)
    (hchild : n.child = none) (hignored : n.ignored = none) :
    ∃ lane', Descends m base kept loose lane' { r with
      scanner, forest, events
      queue := r.queue ++ [id]
      log := r.log.append (.scanned id start) } := by
  let s : Run := { r with
    scanner, forest, events
    queue := r.queue ++ [id]
    log := r.log.append (.scanned id start) }
  have hscontent : r.ahead kept = n.text.map .byte ++ s.ahead kept := hcontent
  have htrees : trees (r.ahead kept) = trees (s.ahead kept) := by
    rw [hscontent, trees_bytes_append]
  have hwaiting (j : NodeId) (hj : j ≠ id) :
      j ∈ (s.inFront loose).waiting ↔ j ∈ (r.inFront loose).waiting := by
    rw [waiting_inFront, waiting_inFront]
    simp [s, hj]
  obtain ⟨hvacant, -, hshown⟩ := shown_of_alloc h.tidy (h.orderly hbase) halloc rfl hwaiting
  have hin : id ∈ (s.inFront loose).waiting := by
    rw [waiting_inFront]
    simp [s]
  rw [if_pos hin, hloose] at hshown
  have hfits := h.fits
  rw [hscontent] at hfits
  obtain ⟨lane', hfeeds, hfits'⟩ := hfits.feeds
  refine ⟨lane', h.alters (.scanned hvacant hloose hchild hignored hfeeds) rfl
    (View.ext rfl rfl rfl rfl rfl hshown rfl rfl rfl rfl rfl rfl)
    (Pool.sound_of_alloc h.pool halloc) (htrees ▸ h.nodup) (htrees ▸ h.loose) ?_⟩
  exact hfits'.write (by simp)

/-- A token is set aside. -/
lemma descends_setAside {n : Node} {forest : Forest} {start : Position} (scanner : Scanner)
    (events : List Event)
    (hcontent : r.ahead kept = n.text.map .byte ++ { r with scanner }.ahead kept)
    (halloc : Pool.alloc r.forest n = (.ok id, forest)) (hchild : n.child = none)
    (hignored : n.ignored = none) :
    ∃ lane', Descends m base kept loose lane' { r with
      scanner, events
      forest := forest.put id { n with next := r.aside }
      aside := some id
      log := r.log.append (.setAside id start) } := by
  let s : Run := { r with
    scanner, events
    forest := forest.put id { n with next := r.aside }
    aside := some id
    log := r.log.append (.setAside id start) }
  have hscontent : r.ahead kept = n.text.map .byte ++ s.ahead kept := hcontent
  have htrees : trees (r.ahead kept) = trees (s.ahead kept) := by
    rw [hscontent, trees_bytes_append]
  obtain ⟨hnone, hnodes⟩ := Pool.get?_of_alloc h.pool halloc
  have hid : Pool.get? forest id = some n := by rw [hnodes, Function.update_self]
  have hvacant : (r.bare loose).nodes id = none := shown_eq_none_iff.2 hnone
  have hout : id ∉ (s.inFront loose).waiting := (h.orderly hbase).not_waiting hvacant
  have hshown : (s.inFront loose).shown =
      Function.update (r.inFront loose).shown id (some { n with next := r.aside }) := by
    refine shown_eq_update (fun j hj => ?_) (fun j _ => .rfl) ?_
    · exact (Pool.get?_put_of_ne hj).trans (by rw [hnodes, Function.update_of_ne hj]; rfl)
    · rw [shown_of_not_waiting hout]
      exact Pool.get?_put_self hid
  have hfits := h.fits
  rw [hscontent] at hfits
  obtain ⟨lane', hfeeds, hfits'⟩ := hfits.feeds
  refine ⟨lane', h.alters
    (.setAside (n := { n with next := r.aside }) hvacant rfl hchild hignored hfeeds) rfl
    (View.ext rfl rfl rfl rfl rfl hshown rfl rfl rfl rfl rfl rfl)
    ((Pool.sound_of_alloc h.pool halloc).put hid) (htrees ▸ h.nodup) (htrees ▸ h.loose) ?_⟩
  exact hfits'.write (by simp)

omit hbase in
/-- Text is given to the caller. -/
lemma descends_consumed {start : Position} (scanner : Scanner) (point : Point)
    (hcontent : r.ahead kept = text.map .byte ++ { r with scanner }.ahead kept) :
    ∃ lane', Descends m base kept loose lane' { r with
      scanner, point
      log := r.log.append (.consumed text start) } := by
  let s : Run := { r with scanner, point, log := r.log.append (.consumed text start) }
  have hscontent : r.ahead kept = text.map .byte ++ s.ahead kept := hcontent
  have htrees : trees (r.ahead kept) = trees (s.ahead kept) := by
    rw [hscontent, trees_bytes_append]
  have hfits := h.fits
  rw [hscontent] at hfits
  obtain ⟨lane', hfeeds, hfits'⟩ := hfits.feeds
  refine ⟨lane', h.alters (.consumed hfeeds) rfl rfl h.pool (htrees ▸ h.nodup)
    (htrees ▸ h.loose) ?_⟩
  exact hfits'.write (by simp)

/-- What is behind a tree that is taken from the stream. -/
lemma Descends.behind (hcontent : r.ahead kept = .tree id ignore :: content) :
    id ∈ loose ∧ loose.Nodup ∧ (trees content).Nodup ∧
      (∀ j ∈ trees content, j ∈ loose.erase id) ∧
      ∃ lane', Picks r.log.records id ignore lane lane' ∧
        Fits (.treeTaken id ignore :: r.log.records) content lane' := by
  have hnodup := h.nodup
  have hloose := h.loose
  have hfits := h.fits
  rw [hcontent] at hnodup hloose hfits
  obtain ⟨hid, hnodup⟩ := List.nodup_cons.1 hnodup
  obtain ⟨ids, -, hapart⟩ := (h.orderly hbase).stack
  rw [waiting_bare] at hapart
  obtain ⟨lane', hpicks, hfits'⟩ := hfits.picks
  refine ⟨hloose id List.mem_cons_self, hapart.of_append_right.of_append_right, hnodup,
    fun j hj => ?_, lane', hpicks, hfits'.write (by simp)⟩
  exact (List.mem_erase_of_ne (ne_of_mem_of_not_mem hj hid)).2
    (hloose j (List.mem_cons_of_mem _ hj))

/-- A tree comes to the queue. -/
lemma descends_treeQueued (scanner : Scanner) (events : List Event)
    (hcontent : r.ahead kept = .tree id false :: { r with scanner }.ahead kept) :
    ∃ lane', Descends m base kept (loose.erase id) lane' { r with
      scanner, events
      queue := r.queue ++ [id]
      log := r.log.append (.treeTaken id false) } := by
  let s : Run := { r with
    scanner, events
    queue := r.queue ++ [id]
    log := r.log.append (.treeTaken id false) }
  obtain ⟨hid, hdistinct, hnodup, hloose, lane', hpicks, hfits⟩ := h.behind hbase hcontent
  have hshown : (s.inFront (loose.erase id)).shown = (r.inFront loose).shown := by
    refine shown_congr rfl fun j => ?_
    rw [waiting_inFront, waiting_inFront]
    by_cases hj : j = id
    · simp [s, hj, hid]
    · simp [s, hj, List.mem_erase_of_ne]
  exact ⟨lane', h.alters (.treeQueued (content_inFront r loose) hid hpicks) rfl
    (View.ext rfl rfl rfl rfl rfl hshown rfl rfl rfl rfl (content_inFront s _) rfl) h.pool hnodup
    hloose hfits⟩

/-- A tree is set aside. -/
lemma descends_treeSetAside {n : Node} (scanner : Scanner) (events : List Event)
    (hcontent : r.ahead kept = .tree id true :: { r with scanner }.ahead kept)
    (hn : Pool.get? r.forest id = some n) :
    ∃ lane', Descends m base kept (loose.erase id) lane' { r with
      scanner, events
      forest := r.forest.put id { n with next := r.aside }
      aside := some id
      log := r.log.append (.treeTaken id true) } := by
  let s : Run := { r with
    scanner, events
    forest := r.forest.put id { n with next := r.aside }
    aside := some id
    log := r.log.append (.treeTaken id true) }
  obtain ⟨hid, hdistinct, hnodup, hloose, lane', hpicks, hfits⟩ := h.behind hbase hcontent
  have hin : id ∈ (r.inFront loose).waiting := by
    rw [waiting_inFront]
    exact List.mem_append_right _ hid
  have hnode : (r.bare loose).nodes id = some n.loose :=
    (shown_of_waiting hin).trans (by
      rw [show Pool.get? (r.inFront loose).forest id = some n from hn, Option.map_some])
  have hout : id ∉ (s.inFront (loose.erase id)).waiting := by
    obtain ⟨ids, -, hapart⟩ := (h.orderly hbase).stack
    rw [waiting_bare] at hapart
    rw [waiting_inFront, List.mem_append, not_or]
    exact ⟨fun hmem => List.disjoint_of_nodup_append hapart.of_append_right hmem hid,
      hdistinct.not_mem_erase⟩
  have hshown : (s.inFront (loose.erase id)).shown =
      Function.update (r.inFront loose).shown id (some { n with next := r.aside }) := by
    refine shown_eq_update (fun j hj => Pool.get?_put_of_ne hj) (fun j hj => ?_) ?_
    · rw [waiting_inFront, waiting_inFront]
      simp [s, List.mem_erase_of_ne hj]
    · rw [shown_of_not_waiting hout]
      exact Pool.get?_put_self hn
  exact ⟨lane', h.alters
    (.treeSetAside (content_inFront r loose) hid hnode n.loose_loose hpicks) rfl
    (View.ext rfl rfl rfl rfl rfl hshown rfl rfl rfl rfl (content_inFront s _) rfl)
    (h.pool.put hn) hnodup hloose hfits⟩

end Acquire

/-- Without a stream nothing is acquired. -/
lemma acquire_cases {found : Acquired} (hpool : Pool.Sound r.forest)
    (hrun : acquire m r = .ok found s) :
    (∃ t, Rescans r t ∧ Acquires m t found s) ∨ s = r ∧ ∃ region, found = .noToken region := by
  cases hstream : r.scanner.stream with
  | some stream => exact .inl (acquire_ok hpool (by simp [hstream]) hrun)
  | none =>
    rw [acquire, get_bind] at hrun
    obtain ⟨regions, t, hlookup, hacquire⟩ := bind_eq_ok.1 hrun
    obtain ⟨-, rfl⟩ := lookup_eq_ok.1 hlookup
    cases regions with
    | nil =>
      cases hacquire
      exact .inr ⟨rfl, _, rfl⟩
    | cons region rest =>
      obtain ⟨outcome, u, hscan, -⟩ := bind_eq_ok.1 hacquire
      obtain ⟨-, ⟨stream, rest, scanner, hs, -⟩, -⟩ := scan_ok hscan
      rw [hstream] at hs
      cases hs

/-- The run descends from the base. -/
def Descended (m : Machine) (base : View) (kept : List Item) (r : Run) : Prop :=
  ∃ loose lane, Descends m base kept loose lane r

/-- An operation has failed.  No node was moved since the run descended from the base, and it still
does so unless it is over. -/
def Breaks (m : Machine) (base : View) (kept : List Item) (e : Error) (s : Run) : Prop :=
  (∃ kept t, Descended m base kept t ∧ Unmoved t s) ∧
    (e.isFatal = false → Descended m base kept s)

namespace Descended

variable {a : Option Status} (h : Descended m base kept r) (hbase : Owned [] base)
include h

lemma pool : Pool.Sound r.forest := by
  obtain ⟨loose, lane, h⟩ := h
  exact h.pool

/-- What neither the log tells of nor any bare view shows may change. -/
lemma quiet {kept' : List Item} (hforest : s.forest = r.forest) (hlog : s.log = r.log)
    (hview : ∀ loose, s.bare loose = r.bare loose) (hahead : s.ahead kept' = r.ahead kept) :
    Descended m base kept' s := by
  obtain ⟨loose, lane, h⟩ := h
  exact ⟨loose, lane, h.quiet hforest hlog (hview loose) hahead⟩

lemma rescans (hrescans : Rescans r s) : Descended m base kept s := by
  obtain ⟨loose, lane, h⟩ := h
  exact ⟨loose, lane, h.rescans hrescans⟩

include hbase

lemma acquires {found : Acquired} (hacquires : Acquires m r found s) :
    Descended m base kept s := by
  obtain ⟨loose, lane, h⟩ := h
  have hmarked : Descends m base kept loose lane (marked r) := h.marked
  have hcontent (stream : Stream) (hs : r.scanner.stream = some stream) :
      (Run.marked r).ahead kept = stream.content := by rw [ahead_marked, ahead_eq hs]
  cases hacquires with
  | @consumed region element text stream rest _ _ _ hs htakes =>
    obtain ⟨lane', h'⟩ := descends_consumed hmarked { r.scanner with stream := some rest }
      .generation ((hcontent _ hs).trans htakes.content)
    exact ⟨loose, lane', h'⟩
  | @skipped region element text stream rest id forest _ _ _ _ hs htakes halloc =>
    obtain ⟨lane', h'⟩ := descends_setAside hmarked hbase { r.scanner with stream := some rest } _
      ((hcontent _ hs).trans htakes.content) halloc rfl rfl
    exact ⟨loose, lane', h'⟩
  | @queued region element text stream rest id forest _ _ _ _ hs htakes halloc =>
    obtain ⟨lane', h'⟩ := descends_scanned hmarked hbase { r.scanner with stream := some rest } _
      ((hcontent _ hs).trans htakes.content) halloc rfl rfl rfl
    exact ⟨loose, lane', h'⟩
  | @treeSkipped region id n stream rest _ hs hitems _ _ hn =>
    obtain ⟨lane', h'⟩ := descends_treeSetAside hmarked hbase
      { r.scanner with stream := some rest } _ ((hcontent _ hs).trans hitems) hn
    exact ⟨_, lane', h'⟩
  | @treeQueued region id n stream rest _ hs hitems _ _ _ =>
    obtain ⟨lane', h'⟩ := descends_treeQueued hmarked hbase
      { r.scanner with stream := some rest } _ ((hcontent _ hs).trans hitems)
    exact ⟨_, lane', h'⟩
  | preEof _ _ _ hran =>
    exact ⟨loose, lane, h.writes (writes_endActionMarked h.tidy true hran .preEof) rfl rfl⟩
  | ended _ _ _ halloc =>
    obtain ⟨lane', h'⟩ := descends_scanned h hbase r.scanner _ rfl halloc rfl rfl rfl
    exact ⟨loose, lane', h'⟩
  | noToken _ _ => exact ⟨loose, lane, h⟩

lemma acquire {found : Acquired} (hrun : acquire m r = .ok found s) :
    Descended m base kept s := by
  rcases acquire_cases h.pool hrun with ⟨t, hrescans, hacquires⟩ | ⟨rfl, -⟩
  · exact (h.rescans hrescans).acquires hbase hacquires
  · exact h

/-! ## Shifting and reducing -/

section Act

variable {n : Node} {decision : Grammar.Decision} {target : StateId} {production : ProductionId}
  {alternative : Nat} {more commits : Bool}

lemma shift {u : Unit} (hn : Pool.get? r.forest id = some n)
    (hshifts : Shifts m r.state n.element decision.alternative decision.more target)
    (hrun : shift m id target decision.alternative decision.more (decided n.element decision r) =
      .ok u s) : Descended m base kept s := by
  obtain ⟨loose, lane, h⟩ := h
  obtain ⟨rest, n', hqueue, hn', rfl⟩ := shift_ok hrun
  obtain rfl : n = n' := Option.some.inj (hn.symm.trans hn')
  exact ⟨loose, lane,
    h.writes (writes_shifted h.tidy (h.orderly hbase) hqueue hn hshifts 0 _) rfl rfl⟩

lemma reduce {q : Run} (hq : q = { r with
      events := q.events
      retry := q.retry
      retries := if more then r.retries + 1 else r.retries })
    (hrun : reduce m production alternative more commits q = .ok a s) :
    Descended m base kept s := by
  obtain ⟨loose, lane, h⟩ := h
  obtain ⟨info, children, below, span, tree, made, linked, state, hinfo, hunstack, hspan, halloc,
    hlink, hstate, rfl, rfl⟩ := reduce_ok hrun
  rw [hq] at hunstack hspan halloc ⊢
  obtain ⟨nodes, -, hwrites⟩ := writes_reduced alternative more h.tidy (h.orderly hbase) hinfo
    hunstack hspan halloc (hlink _ rfl) hstate q.retry _ q.events
  exact ⟨loose, lane, h.writes hwrites rfl rfl⟩

lemma act (hn : Pool.get? r.forest id = some n)
    (hdecide : m.grammar.decide r.state n.element r.retry = .ok (some decision))
    (htarget : m.grammar.targets[decision.transition]? = some target)
    (hrun : act m id decision target commits (decided n.element decision r) = .ok a s) :
    Descended m base kept s := by
  have hshifts (hact : decision.action = .shift ∨
      ∃ production, decision.action = .shiftReduce production) :
      Shifts m r.state n.element decision.alternative decision.more target :=
    ⟨decision, by rw [decide_alternative hdecide, hdecide], rfl, htarget, hact⟩
  unfold Run.act at hrun
  cases haction : decision.action with
  | shift =>
    rw [haction] at hrun
    obtain ⟨u, t, hshift, h1⟩ := bind_eq_ok.1 hrun
    obtain ⟨rfl, rfl⟩ := EStateM.Result.ok.inj h1
    exact h.shift hbase hn (hshifts (.inl haction)) hshift
  | reduce production =>
    rw [haction] at hrun
    exact h.reduce hbase rfl hrun
  | shiftReduce production =>
    rw [haction] at hrun
    obtain ⟨u, t, hshift, h1⟩ := bind_eq_ok.1 hrun
    exact (h.shift hbase hn (hshifts (.inr ⟨_, haction⟩)) hshift).reduce hbase rfl h1

end Act

omit hbase in
lemma completeStep {commits : Bool} (hrun : completeStep m commits r = .ok a s) :
    Descended m base kept s := by
  have hstepped : Descended m base kept (stepped commits r) := by
    obtain ⟨loose, lane, h⟩ := h
    have hclosed : Descends m base kept loose lane (closed commits r) := by
      cases commits with
      | true => exact h.writes (writes_committed h.tidy) rfl rfl
      | false => exact h
    exact ⟨loose, lane, hclosed.writes (writes_stepEnded hclosed.tidy) rfl rfl⟩
  obtain ⟨reached, -, ⟨-, -, rfl⟩ | ⟨-, -, -, rfl⟩ | ⟨-, -, -, rfl⟩⟩ := completeStep_ok hrun
  · exact hstepped.quiet rfl rfl (fun _ => rfl) rfl
  · exact hstepped.quiet rfl rfl (fun _ => rfl) rfl
  · exact hstepped

lemma steps (hsteps : Steps m id r a s) : Descended m base kept s := by
  cases hsteps with
  | refused _ _ _ => exact h.quiet rfl rfl (fun _ => rfl) rfl
  | suspended hn hdecide _ htarget hact => exact h.act hbase hn hdecide htarget hact
  | completed hn hdecide _ htarget hact hcomplete =>
    exact (h.act hbase hn hdecide htarget hact).completeStep hcomplete

omit hbase in
lemma turned (e : Error) : Descended m base kept (turned e r) :=
  h.quiet rfl rfl (fun _ => rfl) rfl

omit hbase in
lemma stuck (e : Error) : Descended m base kept (stuck e r) :=
  h.quiet rfl rfl (fun _ => rfl) rfl

lemma goForward (hrun : goForward m r = .ok a s) : Descended m base kept s := by
  rw [Run.goForward, get_bind] at hrun
  cases hqueue : r.queue with
  | cons id rest =>
    simp only [hqueue] at hrun
    exact h.steps hbase (step_ok hrun)
  | nil =>
    simp only [hqueue] at hrun
    obtain ⟨found, t, hacquire, h1⟩ := bind_eq_ok.1 hrun
    have ht : Descended m base kept t := h.acquire hbase hacquire
    cases found with
    | queued =>
      cases h1
      exact ht
    | skipped =>
      cases h1
      exact ht
    | suspended status =>
      cases h1
      exact ht
    | noToken region =>
      simp only [get_bind] at h1
      obtain ⟨u, t', hturn, h2⟩ := bind_eq_ok.1 h1
      obtain ⟨-, rfl⟩ := turnBack_ok hturn
      cases h2
      exact ht.turned _

/-! ## Operations that fail -/

lemma act_error {n : Node} {decision : Grammar.Decision} {target : StateId} {commits : Bool}
    {e : Error} (hn : Pool.get? r.forest id = some n)
    (hdecide : m.grammar.decide r.state n.element r.retry = .ok (some decision))
    (htarget : m.grammar.targets[decision.transition]? = some target)
    (hrun : Run.act m id decision target commits (decided n.element decision r) =
      .error (.error e) s) : ∃ t, Descended m base kept t ∧ Unmoved t s := by
  have hdecided : Unmoved r (decided n.element decision r) :=
    ⟨rfl, rfl, rfl, rfl, rfl, rfl, rfl⟩
  unfold Run.act at hrun
  cases haction : decision.action with
  | shift =>
    rw [haction] at hrun
    exact ⟨r, h, hdecided.trans ((Careful.shift _ _ _ _).last (fun _ => .pure _) hrun)⟩
  | reduce production =>
    rw [haction] at hrun
    exact ⟨r, h, hdecided.trans (Careful.reduce _ _ _ _ hrun)⟩
  | shiftReduce production =>
    rw [haction] at hrun
    rcases bind_eq_error.1 hrun with hshift | ⟨u, t, hshift, h1⟩
    · exact ⟨r, h, hdecided.trans (Careful.shift _ _ _ _ hshift)⟩
    · have hshifts : Shifts m r.state n.element decision.alternative decision.more target :=
        ⟨decision, by rw [decide_alternative hdecide, hdecide], rfl, htarget, .inr ⟨_, haction⟩⟩
      exact ⟨t, h.shift hbase hn hshifts hshift, Careful.reduce _ _ _ _ h1⟩

omit hbase in
/-- A run that has moved no node, and is over if the error ends it. -/
lemma breaks {kept' : List Item} {e : Error} (hunmoved : Unmoved r s) (he : e.isFatal = true) :
    Breaks m base kept' e s :=
  ⟨⟨kept, r, h, hunmoved⟩, fun hlasts => by simp [he] at hlasts⟩

omit hbase in
/-- Turning back fails where no decision is left open. -/
lemma turnBack_error {e e' : Error} (hrun : turnBack e r = .error (.error e') s) :
    Breaks m base kept e' s := by
  obtain ⟨-, -, rfl⟩ := Run.turnBack_error hrun
  exact ⟨⟨kept, r, h, (Still.turnBack e r).error hrun⟩, fun _ => h.stuck e⟩

lemma step_error {e : Error} (hrun : step m id r = .error (.error e) s) :
    Breaks m base kept e s := by
  rw [step] at hrun
  rcases bind_eq_error.1 hrun with hread | ⟨n, t, hread, h1⟩
  · exact absurd hread (Sure.not_error (Sure.edits.node id))
  obtain ⟨hn, rfl⟩ := node_eq_ok.1 hread
  rw [get_bind] at h1
  rcases bind_eq_error.1 h1 with hlookup | ⟨found, t, hlookup, h2⟩
  · exact absurd hlookup (Sure.lookup _).not_error
  obtain ⟨hdecide, rfl⟩ := lookup_eq_ok.1 hlookup
  cases found with
  | none =>
    rcases bind_eq_error.1 h2 with hturn | ⟨u, t, -, h3⟩
    · exact h.turnBack_error hturn
    · cases h3
  | some decision =>
    simp only [tell_bind, modify_bind] at h2
    rcases bind_eq_error.1 h2 with hlookup | ⟨commits, t, hlookup, h3⟩
    · exact absurd hlookup (Sure.lookup _).not_error
    obtain ⟨-, rfl⟩ := lookup_eq_ok.1 hlookup
    rcases bind_eq_error.1 h3 with hlookup | ⟨target, t, hlookup, h4⟩
    · exact absurd hlookup (Sure.lookup _).not_error
    obtain ⟨htarget, rfl⟩ := lookup_eq_ok.1 hlookup
    rcases bind_eq_error.1 h4 with hact | ⟨a, t, -, h5⟩
    · obtain ⟨t, ht, hunmoved⟩ := h.act_error hbase hn hdecide (entry_eq_ok_iff.1 htarget) hact
      exact ht.breaks hunmoved (grave_act _ _ _ _ _ hact)
    · cases a with
      | some status => cases h5
      | none => exact absurd h5 (Sure.not_error (Sure.completes.completeStep _))

theorem goForward_error {e : Error} (hrun : Run.goForward m r = .error (.error e) s) :
    Breaks m base kept e s := by
  rw [Run.goForward, get_bind] at hrun
  cases hqueue : r.queue with
  | cons id rest =>
    simp only [hqueue] at hrun
    exact h.step_error hbase hrun
  | nil =>
    simp only [hqueue] at hrun
    rcases bind_eq_error.1 hrun with hacquire | ⟨found, t, hacquire, h1⟩
    · exact h.breaks (Careful.acquire hacquire) (grave_acquire m hacquire)
    · have ht : Descended m base kept t := h.acquire hbase hacquire
      cases found with
      | queued => cases h1
      | skipped => cases h1
      | suspended status => cases h1
      | noToken region =>
        simp only [get_bind] at h1
        rcases bind_eq_error.1 h1 with hturn | ⟨u, t', -, h2⟩
        · exact ht.turnBack_error hturn
        · cases h2

/-! ## Entering -/

omit hbase in
lemma awaited (point : Point) (rejecting : Bool) :
    Descended m base kept { r with point, rejecting } :=
  h.quiet rfl rfl (fun _ => rfl) rfl

omit hbase in
lemma enter {entry : Entry} (hrun : enter m entry r = .ok a s) : Descended m base kept s := by
  cases enter_ok hrun with
  | done _ => exact h
  | back _ => exact h
  | start _ _ => exact h
  | action _ _ => exact h.awaited _ _
  | reduction _ _ hresume =>
    rcases resumeReduction_ok hresume with ⟨-, -, -, span, rfl⟩ | ⟨-, hcomplete⟩
    · exact (h.awaited .start false).turned _
    · exact (h.awaited .start r.rejecting).completeStep hcomplete

omit hbase in
lemma enter_error {entry : Entry} {e : Error} (hrun : Run.enter m entry r = .error (.error e) s) :
    Breaks m base kept e s := by
  refine ⟨⟨kept, r, h, Careful.enter entry hrun⟩, fun he => ?_⟩
  rcases Run.enter_error he hrun with ⟨-, -, rfl⟩ | ⟨production, commits, -, -, hresume⟩
  · exact h
  · obtain ⟨-, -, span, -, rfl, -⟩ := resumeReduction_error he hresume
    exact (h.awaited .start false).stuck _

end Descended

end Rewind.Run
