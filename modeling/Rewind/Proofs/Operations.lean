import Rewind.Proofs.Forward
import Rewind.Proofs.Laws

/-!
# What the operations of a run come to

Each operation that succeeds is described by the run it leaves, as an equation.  What an operation
looks up on the way, and what it tells, is part of the description where something depends on it.
-/

namespace Rewind.Run

open Attempt Op

variable {m : Machine} {r s : Run}

/-! ## Scanning -/

/-- The second run is the first after scans: more of the stream may be at hand. -/
def Rescans (r s : Run) : Prop :=
  ∃ stream rest scanner, r.scanner.stream = some stream ∧ scanner.stream = some rest ∧
    stream.Extends rest ∧ s = { r with scanner }

lemma Rescans.content {r s : Run} (h : Rescans r s) :
    s.content = r.content ∧ s.position = r.position ∧ s.unread ≤ r.unread := by
  obtain ⟨stream, rest, scanner, hs, hs', hextends, rfl⟩ := h
  obtain ⟨hcontent, hposition, hunread⟩ := content_eq hs
  obtain ⟨hcontent', hposition', hunread'⟩ := content_eq (r := { r with scanner }) hs'
  rw [hcontent, hcontent', hposition, hposition', hunread, hunread']
  exact ⟨hextends.content, hextends.position, hextends.unread⟩

lemma Rescans.trans {r s t : Run} (h : Rescans r s) (h' : Rescans s t) : Rescans r t := by
  obtain ⟨stream, rest, scanner, hs, hs', hextends, rfl⟩ := h
  obtain ⟨stream', rest', scanner', ht, ht', hextends', rfl⟩ := h'
  obtain rfl : rest = stream' := by simpa [hs'] using ht
  exact ⟨stream, rest', scanner', hs, ht', hextends.trans hextends', rfl⟩

lemma scan_ok {region : RegionId} {outcome : Scanner.Outcome}
    (h : scan m region r = .ok outcome s) :
    ∃ stream, Rescans r s ∧ s.scanner.stream = some stream ∧ outcome.Valid m.scanner stream ∧
      Scanner.finds m.scanner region r.content = some outcome := by
  unfold scan onScanner at h
  split at h
  · rename_i outcome' scanner hrun
    cases h
    obtain ⟨stream, rest, hs, hs', hextends, hvalid⟩ := Scanner.valid_of_run hrun
    refine ⟨rest, ⟨stream, rest, scanner, hs, hs', hextends, rfl⟩, hs', hvalid, ?_⟩
    rw [(content_eq hs).1]
    exact Scanner.finds_of_run hs hrun
  · cases h
  · cases h

/-! ## Acquiring -/

/-- Among the regions of the state, the first one to find anything finds this. -/
def Finds (m : Machine) (r : Run) (region : RegionId) (outcome : Scanner.Outcome) : Prop :=
  outcome ≠ .noToken ∧ Scanner.finds m.scanner region r.content = some outcome ∧
    ∃ before after, m.grammar.regionsOf r.state = .ok (before ++ region :: after) ∧
      ∀ other ∈ before, Scanner.finds m.scanner other r.content = some .noToken

/-- What acquiring comes to once the stream has been scanned. -/
inductive Acquires (m : Machine) (r : Run) : Acquired → Run → Prop
  | consumed {region : RegionId} {element : ElementId} {text : Bytes} {stream rest : Stream} :
    Finds m r region (.token element text.length) → m.grammar.generates element = true →
    m.scanner.Names element ∧ text ≠ [] →
    r.scanner.stream = some stream → Takes stream rest text →
    Acquires m r (.suspended (.generation element text ⟨r.position, text.length⟩)) { marked r with
      scanner := { r.scanner with stream := some rest }
      point := .generation
      log := (marked r).log.append (.consumed text r.position) }
  | skipped {region : RegionId} {element : ElementId} {text : Bytes} {stream rest : Stream}
      {id : NodeId} {forest : Forest} :
    Finds m r region (.token element text.length) → m.grammar.generates element = false →
    m.grammar.ignores element = true → m.scanner.Names element ∧ text ≠ [] →
    r.scanner.stream = some stream → Takes stream rest text →
    Pool.alloc (marked r).forest (.token element text ⟨r.position, text.length⟩) =
      (.ok id, forest) →
    Acquires m r .skipped { marked r with
      scanner := { r.scanner with stream := some rest }
      events := .token region element text :: (marked r).events
      forest := forest.put id
        { Node.token element text ⟨r.position, text.length⟩ with next := (marked r).aside }
      aside := some id
      log := (marked r).log.append (.setAside id r.position) }
  | queued {region : RegionId} {element : ElementId} {text : Bytes} {stream rest : Stream}
      {id : NodeId} {forest : Forest} :
    Finds m r region (.token element text.length) → m.grammar.generates element = false →
    m.grammar.ignores element = false → m.scanner.Names element ∧ text ≠ [] →
    r.scanner.stream = some stream → Takes stream rest text →
    Pool.alloc (marked r).forest (.token element text ⟨r.position, text.length⟩) =
      (.ok id, forest) →
    Acquires m r .queued { marked r with
      scanner := { r.scanner with stream := some rest }
      events := .token region element text :: (marked r).events
      forest
      queue := (marked r).queue ++ [id]
      log := (marked r).log.append (.scanned id r.position) }
  | treeSkipped {region : RegionId} {id : NodeId} {n : Node} {stream rest : Stream} :
    Finds m r region (.tree id true) → r.scanner.stream = some stream →
    stream.content = .tree id true :: rest.content → rest.position = stream.position →
    rest.unread = stream.unread → Pool.get? (marked r).forest id = some n →
    Acquires m r .skipped { marked r with
      scanner := { r.scanner with stream := some rest }
      events := .token region n.element n.text :: (marked r).events
      forest := (marked r).forest.put id { n with next := (marked r).aside }
      aside := some id
      log := (marked r).log.append (.treeTaken id true) }
  | treeQueued {region : RegionId} {id : NodeId} {n : Node} {stream rest : Stream} :
    Finds m r region (.tree id false) → r.scanner.stream = some stream →
    stream.content = .tree id false :: rest.content → rest.position = stream.position →
    rest.unread = stream.unread → Pool.get? (marked r).forest id = some n →
    Acquires m r .queued { marked r with
      scanner := { r.scanner with stream := some rest }
      events := .token region n.element n.text :: (marked r).events
      queue := (marked r).queue ++ [id]
      log := (marked r).log.append (.treeTaken id false) }
  | preEof {region : RegionId} :
    Finds m r region .eof → r.content = [] → m.grammar.actsAtEnd region = true →
    r.endActionRan = false →
    Acquires m r (.suspended (.preEof region)) { r with
      point := .preEof
      log := r.log.append (.endActionMarked false)
      endActionRan := true }
  | ended {region : RegionId} {id : NodeId} {forest : Forest} :
    Finds m r region .eof → r.content = [] →
    ¬(m.grammar.actsAtEnd region = true ∧ r.endActionRan = false) →
    Pool.alloc r.forest (.token m.grammar.eof [] ⟨r.position, 0⟩) = (.ok id, forest) →
    Acquires m r .queued { r with
      events := .token region m.grammar.eof [] :: r.events
      forest
      queue := r.queue ++ [id]
      log := r.log.append (.scanned id r.position) }
  | noToken {regions : List RegionId} :
    m.grammar.regionsOf r.state = .ok regions →
    (∀ region ∈ regions, Scanner.finds m.scanner region r.content = some .noToken) →
    Acquires m r (.noToken (regions.headD 0)) r

lemma takeToken_ok {region : RegionId} {element : ElementId} {length : Nat} {a : Acquired}
    {stream : Stream} (hpool : Pool.Sound r.forest)
    (hfinds : Finds m r region (.token element length)) (hs : r.scanner.stream = some stream)
    (hvalid : (Scanner.Outcome.token element length).Valid m.scanner stream)
    (h : takeToken m region element length r = .ok a s) : Acquires m r a s := by
  obtain ⟨hnamed, hpos, hle⟩ := hvalid
  rcases hextract : stream.extract length with ⟨text, rest⟩
  obtain ⟨-, -, -, hlength⟩ := Stream.content_extract hextract
  have htakes := takes_extract hextract
  obtain rfl : text.length = length := by omega
  have htext : text ≠ [] := by
    rintro rfl
    simp at hpos
  have hstream : onStream (·.extract text.length) r = .ok text
      { r with scanner := { r.scanner with stream := some rest } } :=
    onStream_eq_ok.2 ⟨stream, hs, by rw [hextract], by rw [hextract]⟩
  rw [takeToken, get_bind, bind_ok hstream, bind_ok (tookInput_apply _), marked_scanner] at h
  cases hgenerates : m.grammar.generates element with
  | true =>
    simp only [hgenerates, if_true, write_bind, modify_bind, pure_apply] at h
    cases h
    exact .consumed hfinds hgenerates ⟨hnamed, htext⟩ hs htakes
  | false =>
    simp only [hgenerates, Bool.false_eq_true, if_false] at h
    obtain ⟨id, t, hmake, h⟩ := bind_eq_ok.1 h
    obtain ⟨forest, halloc, rfl⟩ := alloc_eq_ok.1 hmake
    rw [tell_bind] at h
    cases hignores : m.grammar.ignores element with
    | true =>
      simp only [hignores, if_true] at h
      obtain ⟨u, t, hset, h⟩ := bind_eq_ok.1 h
      obtain ⟨n, hn, rfl⟩ := setAside_eq_ok.1 hset
      have hpool' : Pool.Sound (marked r).forest := (sameCourse_marked r).2.1 ▸ hpool
      obtain rfl : .token element text ⟨r.position, text.length⟩ = n := by
        rw [(Pool.get?_of_alloc hpool' halloc).2, Function.update_self] at hn
        exact Option.some.inj hn
      cases h
      exact .skipped hfinds hgenerates hignores ⟨hnamed, htext⟩ hs htakes halloc
    | false =>
      simp only [hignores, Bool.false_eq_true, if_false, putBack, modify_bind, write_bind,
        pure_apply] at h
      cases h
      exact .queued hfinds hgenerates hignores ⟨hnamed, htext⟩ hs htakes halloc

lemma takeTree_ok {region : RegionId} {id : NodeId} {ignore : Bool} {a : Acquired}
    {stream : Stream} (hfinds : Finds m r region (.tree id ignore))
    (hs : r.scanner.stream = some stream)
    (hvalid : (Scanner.Outcome.tree id ignore).Valid m.scanner stream)
    (h : takeTree region id ignore r = .ok a s) : Acquires m r a s := by
  obtain ⟨rest, htake, hcontent, hposition, hunread⟩ := Stream.takeTree?_eq_some hvalid
  rw [takeTree] at h
  obtain ⟨u, t, hchange, h⟩ := bind_eq_ok.1 h
  obtain ⟨stream', hs', rfl⟩ := changeStream_eq_ok.1 hchange
  obtain rfl : stream = stream' := Option.some.inj (hs.symm.trans hs')
  simp only [htake] at h
  rw [bind_ok (tookInput_apply _), marked_scanner, write_bind] at h
  obtain ⟨n, t, hread, h⟩ := bind_eq_ok.1 h
  obtain ⟨hn, rfl⟩ := node_eq_ok.1 hread
  rw [tell_bind] at h
  cases ignore with
  | true =>
    simp only [if_true] at h
    obtain ⟨u, t, hset, h⟩ := bind_eq_ok.1 h
    obtain ⟨n', hn', rfl⟩ := setAside_eq_ok.1 hset
    obtain rfl : n = n' := Option.some.inj (hn.symm.trans hn')
    cases h
    exact .treeSkipped hfinds hs hcontent hposition hunread hn
  | false =>
    simp only [Bool.false_eq_true, if_false, putBack, modify_bind, pure_apply] at h
    cases h
    exact .treeQueued hfinds hs hcontent hposition hunread hn

lemma meetEnd_ok {region : RegionId} {a : Acquired} (hfinds : Finds m r region .eof)
    (hempty : r.content = []) (h : meetEnd m region r = .ok a s) : Acquires m r a s := by
  rw [meetEnd, get_bind] at h
  split at h
  · rename_i hdue
    simp only [write_bind, modify_bind, pure_apply] at h
    cases h
    exact .preEof hfinds hempty hdue.1 hdue.2
  · rename_i hdue
    obtain ⟨id, t, hmake, h⟩ := bind_eq_ok.1 h
    obtain ⟨forest, halloc, rfl⟩ := alloc_eq_ok.1 hmake
    simp only [tell_bind, putBack, modify_bind, write_bind, pure_apply] at h
    cases h
    exact .ended hfinds hempty hdue halloc

lemma finds_rescans {t : Run} {region : RegionId} {outcome : Scanner.Outcome}
    (h : Rescans r t) : Finds m t region outcome ↔ Finds m r region outcome := by
  have hcontent := h.content.1
  obtain ⟨-, -, scanner, -, -, -, rfl⟩ := h
  unfold Finds
  rw [hcontent]

/-- Regions are scanned one after the other, until one of them finds something. -/
lemma acquireIn_ok {regions before : List RegionId} {a : Acquired} (hpool : Pool.Sound r.forest)
    (hregions : m.grammar.regionsOf r.state = .ok (before ++ regions))
    (hbefore : ∀ region ∈ before, Scanner.finds m.scanner region r.content = some .noToken)
    (hattached : r.scanner.stream.isSome)
    (h : acquireIn m ((before ++ regions).headD 0) regions r = .ok a s) :
    ∃ t, Rescans r t ∧ Acquires m t a s := by
  induction regions generalizing r before with
  | nil =>
    cases h
    obtain ⟨stream, hs⟩ := Option.isSome_iff_exists.1 hattached
    rw [List.append_nil] at hregions ⊢
    exact ⟨s, ⟨stream, stream, s.scanner, hs, hs, .refl _, rfl⟩, .noToken hregions hbefore⟩
  | cons region regions ih =>
    rw [acquireIn] at h
    obtain ⟨outcome, t, hscan, h⟩ := bind_eq_ok.1 h
    obtain ⟨stream, hrescans, hs, hvalid, hfound⟩ := scan_ok hscan
    have hcontent := hrescans.content.1
    have hfinds (hne : outcome ≠ .noToken) : Finds m t region outcome :=
      (finds_rescans hrescans).2 ⟨hne, hfound, before, regions, hregions, hbefore⟩
    have hsame : t.forest = r.forest ∧ t.state = r.state := by
      obtain ⟨-, -, scanner, -, -, -, rfl⟩ := hrescans
      exact ⟨rfl, rfl⟩
    cases outcome with
    | noToken =>
      have happend : before ++ region :: regions = (before ++ [region]) ++ regions := by simp
      rw [happend] at h hregions
      obtain ⟨t', hrescans', hacquires⟩ := ih (hsame.1 ▸ hpool) (by rw [hsame.2, hregions])
        (fun other hother => by
          rw [hcontent]
          rcases List.mem_append.1 hother with hother | hother
          · exact hbefore other hother
          · rwa [List.mem_singleton.1 hother])
        (by simp [hs]) h
      exact ⟨t', hrescans.trans hrescans', hacquires⟩
    | eof =>
      have hempty : t.content = [] := (content_eq hs).1.trans hvalid
      exact ⟨t, hrescans, meetEnd_ok (hfinds nofun) hempty h⟩
    | tree id ignore => exact ⟨t, hrescans, takeTree_ok (hfinds nofun) hs hvalid h⟩
    | token element length =>
      exact ⟨t, hrescans, takeToken_ok (hsame.1 ▸ hpool) (hfinds nofun) hs hvalid h⟩

lemma acquire_ok {a : Acquired} (hpool : Pool.Sound r.forest)
    (hattached : r.scanner.stream.isSome) (h : acquire m r = .ok a s) :
    ∃ t, Rescans r t ∧ Acquires m t a s := by
  rw [acquire, get_bind] at h
  obtain ⟨regions, t, hlookup, hacquire⟩ := bind_eq_ok.1 h
  obtain ⟨hregions, rfl⟩ := lookup_eq_ok.1 hlookup
  rw [← List.nil_append regions] at hregions hacquire
  exact acquireIn_ok hpool hregions (by simp) hattached hacquire

/-! ## Shifting and reducing -/

lemma shift_ok {id : NodeId} {target : StateId} {alternative : Nat} {more : Bool} {u : Unit}
    (h : shift m id target alternative more r = .ok u s) :
    ∃ rest n, r.queue = id :: rest ∧ Pool.get? r.forest id = some n ∧ s = { r with
      queue := rest
      aside := if (carried m n r.aside).isSome then none else r.aside
      forest := r.forest.put id { n with
        state := target
        next := r.stack
        ignored := (carried m n r.aside).or n.ignored }
      stack := some id
      state := target
      log := r.log.append (.shifted id r.state (carried m n r.aside) alternative more) } := by
  rw [shift] at h
  obtain ⟨u, t, htake, h⟩ := bind_eq_ok.1 h
  obtain ⟨rest, hqueue, rfl⟩ := takeFront_eq_ok.1 htake
  obtain ⟨n, t, hread, h⟩ := bind_eq_ok.1 h
  obtain ⟨hn, rfl⟩ := node_eq_ok.1 hread
  refine ⟨rest, n, hqueue, hn, ?_⟩
  simp only [get_bind] at h
  rw [show (if n.ignored.isNone = true ∧ m.grammar.isTerminal n.element = true then r.aside
    else none) = carried m n r.aside from rfl] at h
  rcases carried_cases m n r.aside with hnone | ⟨first, hsome, -, -⟩
  · simp only [hnone, Option.isSome_none, Bool.false_eq_true, if_false, Option.none_or] at h ⊢
    obtain ⟨u, t, hchange, h⟩ := bind_eq_ok.1 h
    obtain ⟨n', hn', rfl⟩ := change_eq_ok.1 hchange
    obtain rfl : n = n' := Option.some.inj (hn.symm.trans hn')
    cases h
    rfl
  · simp only [hsome, Option.isSome_some, if_true, modify_bind, Option.some_or] at h ⊢
    obtain ⟨u, t, hchange, h⟩ := bind_eq_ok.1 h
    obtain ⟨n', hn', rfl⟩ := change_eq_ok.1 hchange
    obtain rfl : n = n' := Option.some.inj (hn.symm.trans hn')
    obtain ⟨u, t, hchange', h⟩ := bind_eq_ok.1 h
    obtain ⟨n'', hn'', rfl⟩ := change_eq_ok.1 hchange'
    have hput := (Pool.get?_put_self hn).symm.trans hn''
    cases hput
    simp only [modify_bind, write_bind, modify_apply, Pool.put_put] at h
    cases h
    rfl

/-- Live nodes have a span. -/
lemma spanOf_live {f : Forest} {ids : List NodeId}
    (hlive : ∀ id ∈ ids, (Pool.get? f id).isSome) : ∃ span, spanOf f ids = .ok span := by
  unfold spanOf
  generalize Span.unknown = first
  induction ids generalizing first with
  | nil => exact ⟨first, rfl⟩
  | cons id ids ih =>
    obtain ⟨n, hn⟩ := Option.isSome_iff_exists.1 (hlive id List.mem_cons_self)
    obtain ⟨span, hspan⟩ := ih (fun j hj => hlive j (List.mem_cons_of_mem _ hj))
      (first.merge n.span)
    refine ⟨span, ?_⟩
    rw [List.foldlM_cons, read_eq_ok.2 hn]
    exact hspan

/-- Linking depends on the forest alone, and changes nothing else. -/
lemma linkSiblings_forest {ids : List NodeId} {u : Unit} (h : linkSiblings ids r = .ok u s) :
    ∃ forest, s = { r with forest } ∧
      ∀ q : Run, q.forest = r.forest → linkSiblings ids q = .ok () { q with forest } := by
  induction ids generalizing r with
  | nil =>
    cases h
    exact ⟨_, rfl, fun q hq => by rw [← hq]; rfl⟩
  | cons id ids ih =>
    rw [linkSiblings] at h
    obtain ⟨u, t, hchange, hrest⟩ := bind_eq_ok.1 h
    obtain ⟨n, hn, rfl⟩ := change_eq_ok.1 hchange
    obtain ⟨forest, rfl, hlink⟩ := ih hrest
    refine ⟨forest, rfl, fun q hq => ?_⟩
    rw [linkSiblings, bind_ok (change_ok (hq ▸ hn))]
    exact hlink _ (by rw [hq])

lemma reduce_ok {production : ProductionId} {alternative : Nat} {more commits : Bool}
    {a : Option Status} (h : reduce m production alternative more commits r = .ok a s) :
    ∃ info children below span tree made linked state,
      m.grammar.productions[production]? = some info ∧
      unstack r.forest info.length r.stack [] = .ok (.ok (children, below)) ∧
      spanOf r.forest children = .ok span ∧
      Pool.alloc r.forest (.reduced info.lhs production children.head? span) = (.ok tree, made) ∧
      (∀ q : Run, q.forest = made → linkSiblings children q = .ok () { q with forest := linked }) ∧
      stateOf m linked below = .ok state ∧
      a = (if info.hasAction then some (.reduction production tree children) else none) ∧
      s = { r with
        state
        point := if info.hasAction then .reduction production commits else r.point
        forest := linked
        stack := below
        queue := tree :: r.queue
        log := r.log.append (.reduced tree r.state alternative more) } := by
  rw [reduce] at h
  obtain ⟨info, t, hlook, h1⟩ := bind_eq_ok.1 h
  obtain ⟨hinfo, rfl⟩ := lookup_eq_ok.1 hlook
  simp only [get_bind] at h1
  obtain ⟨found, t, hlook, h2⟩ := bind_eq_ok.1 h1
  obtain ⟨hunstack, rfl⟩ := lookup_eq_ok.1 hlook
  cases found with
  | error found => cases h2
  | ok found =>
    obtain ⟨children, below⟩ := found
    simp only [get_bind] at h2
    obtain ⟨span, t, hlook, h3⟩ := bind_eq_ok.1 h2
    obtain ⟨hspan, rfl⟩ := lookup_eq_ok.1 hlook
    obtain ⟨tree, t, hmake, h4⟩ := bind_eq_ok.1 h3
    obtain ⟨made, halloc, rfl⟩ := alloc_eq_ok.1 hmake
    obtain ⟨u, t, hlink, h5⟩ := bind_eq_ok.1 h4
    obtain ⟨linked, rfl, hlinked⟩ := linkSiblings_forest hlink
    rw [get_bind] at h5
    obtain ⟨state, t, hlook, h6⟩ := bind_eq_ok.1 h5
    obtain ⟨hstate, rfl⟩ := lookup_eq_ok.1 hlook
    simp only [modify_bind, putFront, write_bind] at h6
    refine ⟨info, children, below, span, tree, made, linked, state, entry_eq_ok_iff.1 hinfo,
      hunstack, hspan, halloc, hlinked, hstate, ?_⟩
    cases haction : info.hasAction with
    | true =>
      simp only [haction, if_true, modify_bind, pure_apply] at h6
      cases h6
      exact ⟨rfl, rfl⟩
    | false =>
      simp only [haction, Bool.false_eq_true, if_false, pure_apply] at h6
      cases h6
      exact ⟨rfl, rfl⟩

/-! ## Ends of steps -/

/-- The run behind a commit, if the step makes one. -/
def closed (commits : Bool) (r : Run) : Run :=
  if commits then { r with
    log := r.log.append (.committed r.barrier r.retries)
    barrier := r.log.length + 1
    retries := 0 }
  else r

/-- The run behind the end of a step. -/
def stepped (commits : Bool) (r : Run) : Run :=
  { closed commits r with
    log := (closed commits r).log.append .stepEnded
    steps := (closed commits r).steps + 1 }

/-- Completes a step whose commit, if it makes one, is done. -/
def endStep (m : Machine) : Op (Option Status) := do
  write .stepEnded
  modify fun r => { r with steps := r.steps + 1 }
  let r ← get
  if ← lookup (atEnd m r) then
    modify fun r => { r with point := .done }
    return some .done
  else if r.stopping then
    modify fun r => { r with stopping := false }
    return some .stopped
  else if r.target = some r.steps then
    return some .paused
  else
    return none

lemma completeStep_eq (m : Machine) (commits : Bool) (r : Run) :
    completeStep m commits r = endStep m (closed commits r) := by
  cases commits <;> rfl

lemma completeStep_ok {commits : Bool} {a : Option Status}
    (h : completeStep m commits r = .ok a s) :
    ∃ reached, atEnd m (stepped commits r) = .ok reached ∧
      ((reached = true ∧ a = some .done ∧ s = { stepped commits r with point := .done }) ∨
        (reached = false ∧ (stepped commits r).stopping = true ∧ a = some .stopped ∧
          s = { stepped commits r with stopping := false }) ∨
        (reached = false ∧ (stepped commits r).stopping = false ∧
          a = (if (stepped commits r).target = some (stepped commits r).steps then some .paused
            else none) ∧ s = stepped commits r)) := by
  rw [completeStep_eq, endStep, write_bind, modify_bind, get_bind] at h
  obtain ⟨reached, t, hlook, hend⟩ := bind_eq_ok.1 h
  obtain ⟨hreached, rfl⟩ := lookup_eq_ok.1 hlook
  refine ⟨reached, hreached, ?_⟩
  cases reached with
  | true =>
    cases hend
    exact .inl ⟨rfl, rfl, rfl⟩
  | false =>
    refine .inr ?_
    simp only [Bool.false_eq_true, if_false] at hend
    split at hend
    · rename_i hstopping
      cases hend
      exact .inl ⟨rfl, hstopping, rfl, rfl⟩
    · rename_i hstopping
      refine .inr ⟨rfl, by simpa [stepped] using hstopping, ?_⟩
      split at hend
      · rename_i htarget
        cases hend
        exact ⟨(if_pos htarget).symm, rfl⟩
      · rename_i htarget
        cases hend
        exact ⟨(if_neg htarget).symm, rfl⟩

/-! ## Deciding -/

lemma decide_alternative {t : Grammar.Tables} {state : StateId} {element : ElementId}
    {alternative : Nat} {decision : Grammar.Decision}
    (h : t.decide state element alternative = .ok (some decision)) :
    decision.alternative = alternative := by
  unfold Grammar.Tables.decide at h
  obtain ⟨found, hfound, h1⟩ := Except.bind_eq_ok.1 h
  cases found with
  | none => cases h1
  | some transition =>
    unfold Grammar.Tables.alternative at h1
    obtain ⟨start, hstart, h2⟩ := Except.bind_eq_ok.1 h1
    dsimp only at h2
    split at h2
    · split at h2
      · cases h2
      · obtain ⟨action, -, haction⟩ := Option.map_eq_some_iff.1 (Except.ok.inj h2)
        rw [← haction]
    · cases h2

lemma turnBack_ok {e : Error} {u : Unit} (h : turnBack e r = .ok u s) :
    0 < r.retries ∧
      s = { r with events := .failed e :: r.events, point := .reverse .backtrack } := by
  rw [turnBack, tell_bind, get_bind] at h
  split at h
  · rename_i hpos
    cases h
    exact ⟨hpos, rfl⟩
  · rw [modify_bind] at h
    cases h

lemma turnBack_error {e e' : Error} (h : turnBack e r = .error (.error e') s) :
    e' = e ∧ r.retries = 0 ∧
      s = { r with
        events := .failed e :: r.events, halted := true, retry := 0, point := .start } := by
  rw [turnBack, tell_bind, get_bind] at h
  split at h
  · cases h
  · rename_i hzero
    rw [modify_bind] at h
    cases h
    exact ⟨rfl, by simpa using hzero, rfl⟩

/-! ## Going forward -/

/-- The run that has decided and not yet acted. -/
def decided (element : ElementId) (decision : Grammar.Decision) (r : Run) : Run :=
  { r with
    events := .decided r.state element decision :: r.events
    retry := 0
    retries := if decision.more then r.retries + 1 else r.retries }

/-- The run that turns back because of an error. -/
def turned (e : Error) (r : Run) : Run :=
  { r with events := .failed e :: r.events, point := .reverse .backtrack }

/-- The run that an error halts. -/
def stuck (e : Error) (r : Run) : Run :=
  { r with events := .failed e :: r.events, halted := true, retry := 0, point := .start }

/-- What a step comes to. -/
inductive Steps (m : Machine) (id : NodeId) (r : Run) : Option Status → Run → Prop
  | refused {n : Node} :
    Pool.get? r.forest id = some n → m.grammar.decide r.state n.element r.retry = .ok none →
    0 < r.retries → Steps m id r none (turned (.unexpected n.element r.state n.span) r)
  | suspended {n : Node} {decision : Grammar.Decision} {commits : Nat} {target : StateId}
      {status : Status} {s : Run} :
    Pool.get? r.forest id = some n →
    m.grammar.decide r.state n.element r.retry = .ok (some decision) →
    m.grammar.commits[decision.transition]? = some commits →
    m.grammar.targets[decision.transition]? = some target →
    act m id decision target (commits ≠ 0) (decided n.element decision r) = .ok (some status) s →
    Steps m id r (some status) s
  | completed {n : Node} {decision : Grammar.Decision} {commits : Nat} {target : StateId}
      {a : Option Status} {s t : Run} :
    Pool.get? r.forest id = some n →
    m.grammar.decide r.state n.element r.retry = .ok (some decision) →
    m.grammar.commits[decision.transition]? = some commits →
    m.grammar.targets[decision.transition]? = some target →
    act m id decision target (commits ≠ 0) (decided n.element decision r) = .ok none t →
    completeStep m (commits ≠ 0) t = .ok a s → Steps m id r a s

theorem step_ok {id : NodeId} {a : Option Status} (h : step m id r = .ok a s) :
    Steps m id r a s := by
  rw [step] at h
  obtain ⟨n, t, hread, h1⟩ := bind_eq_ok.1 h
  obtain ⟨hn, rfl⟩ := node_eq_ok.1 hread
  rw [get_bind] at h1
  obtain ⟨found, t, hlook, h2⟩ := bind_eq_ok.1 h1
  obtain ⟨hdecide, rfl⟩ := lookup_eq_ok.1 hlook
  cases found with
  | none =>
    obtain ⟨u, t, hturn, h3⟩ := bind_eq_ok.1 h2
    obtain ⟨hpos, rfl⟩ := turnBack_ok hturn
    cases h3
    exact .refused hn hdecide hpos
  | some decision =>
    simp only [tell_bind, modify_bind] at h2
    obtain ⟨commits, t, hlook, h3⟩ := bind_eq_ok.1 h2
    obtain ⟨hcommits, rfl⟩ := lookup_eq_ok.1 hlook
    obtain ⟨target, t, hlook, h4⟩ := bind_eq_ok.1 h3
    obtain ⟨htarget, rfl⟩ := lookup_eq_ok.1 hlook
    obtain ⟨status, t, hact, h5⟩ := bind_eq_ok.1 h4
    rw [entry_eq_ok_iff] at hcommits htarget
    cases status with
    | some status =>
      cases h5
      exact .suspended hn hdecide hcommits htarget hact
    | none => exact .completed hn hdecide hcommits htarget hact h5

/-- What going forward comes to. -/
inductive Forwards (m : Machine) (r : Run) : Option Status → Run → Prop
  | stepped {id : NodeId} {rest : List NodeId} {a : Option Status} {s : Run} :
    r.queue = id :: rest → Steps m id r a s → Forwards m r a s
  | acquired {s t : Run} :
    r.queue = [] → Rescans r t → Acquires m t .queued s ∨ Acquires m t .skipped s →
    Forwards m r none s
  | suspended {status : Status} {s t : Run} :
    r.queue = [] → Rescans r t → Acquires m t (.suspended status) s → Forwards m r (some status) s
  | refused {region : RegionId} {t : Run} :
    r.queue = [] → Rescans r t → Acquires m t (.noToken region) t → 0 < t.retries →
    Forwards m r none (turned (.lexical region t.position) t)

theorem goForward_ok {a : Option Status} (hpool : Pool.Sound r.forest)
    (hattached : r.scanner.stream.isSome) (h : goForward m r = .ok a s) : Forwards m r a s := by
  rw [goForward, get_bind] at h
  cases hqueue : r.queue with
  | cons id rest =>
    simp only [hqueue] at h
    exact .stepped hqueue (step_ok h)
  | nil =>
    simp only [hqueue] at h
    obtain ⟨found, t, hacquire, h1⟩ := bind_eq_ok.1 h
    obtain ⟨t', hrescans, hacquires⟩ := acquire_ok hpool hattached hacquire
    cases found with
    | queued =>
      cases h1
      exact .acquired hqueue hrescans (.inl hacquires)
    | skipped =>
      cases h1
      exact .acquired hqueue hrescans (.inr hacquires)
    | suspended status =>
      cases h1
      exact .suspended hqueue hrescans hacquires
    | noToken region =>
      simp only [get_bind] at h1
      obtain ⟨u, t'', hturn, h2⟩ := bind_eq_ok.1 h1
      obtain ⟨hpos, rfl⟩ := turnBack_ok hturn
      cases h2
      cases hacquires with
      | noToken hregions hnone => exact .refused hqueue hrescans (.noToken hregions hnone) hpos

/-! ## Errors -/

lemma grave_takeTree (region : RegionId) (id : NodeId) (ignore : Bool) :
    Grave (takeTree region id ignore) :=
  (Law.grave_takes.takeTree (Law.grave_writes _) region id ignore).grave

lemma grave_acquire (m : Machine) : Grave (acquire m) :=
  Law.Governs.grave fun _ =>
    (Law.grave_advances m).acquire (Law.grave_writes _) fun _ _ => trivial

lemma grave_shift (m : Machine) (id : NodeId) (target : StateId) (alternative : Nat)
    (more : Bool) : Grave (shift m id target alternative more) :=
  (Law.grave_rearranges.shift (Law.grave_writes _) id target alternative more).grave

lemma governs_act (m : Machine) (id : NodeId) (decision : Grammar.Decision) (target : StateId)
    (commits : Bool) : Law.grave.Governs (act m id decision target commits) :=
  Law.grave_decides.act (fun _ _ _ _ _ => trivial) id target commits

lemma grave_act (m : Machine) (id : NodeId) (decision : Grammar.Decision) (target : StateId)
    (commits : Bool) : Grave (act m id decision target commits) :=
  (governs_act m id decision target commits).grave

lemma grave_completeStep (m : Machine) (commits : Bool) : Grave (completeStep m commits) :=
  (Law.grave_completes.completeStep commits).grave

lemma step_error {id : NodeId} {e : Error} (he : e.isFatal = false)
    (h : step m id r = .error (.error e) s) :
    ∃ n, Pool.get? r.forest id = some n ∧ m.grammar.decide r.state n.element r.retry = .ok none ∧
      r.retries = 0 ∧ e = .unexpected n.element r.state n.span ∧ s = stuck e r := by
  have hgrave {α : Type} {op : Op α} {t u : Run} (hop : Law.grave.Governs op) :
      op t ≠ .error (.error e) u := by
    intro hfail
    rw [hop.grave hfail] at he
    cases he
  rw [step] at h
  obtain h1 | ⟨n, t, hread, h1⟩ := bind_eq_error.1 h
  · exact absurd h1 (hgrave (Law.grave_rearranges.node _))
  obtain ⟨hn, rfl⟩ := node_eq_ok.1 hread
  rw [get_bind] at h1
  obtain h2 | ⟨found, t, hlook, h2⟩ := bind_eq_error.1 h1
  · exact absurd h2 (hgrave (.lookup fun _ _ _ => trivial))
  obtain ⟨hdecide, rfl⟩ := lookup_eq_ok.1 hlook
  cases found with
  | none =>
    obtain h3 | ⟨u, t, -, h3⟩ := bind_eq_error.1 h2
    · obtain ⟨rfl, hzero, rfl⟩ := turnBack_error h3
      exact ⟨n, hn, hdecide, hzero, rfl, rfl⟩
    · cases h3
  | some decision =>
    refine absurd h2 (hgrave ?_)
    have hfound {α : Type} (x : Except Fault α) : Law.grave.Governs (lookup x) :=
      .lookup fun _ _ _ => trivial
    refine ((Law.grave_advances m).tells.tell _).bind fun _ =>
      (Law.Governs.modify fun _ => trivial).bind fun _ => (hfound _).bind fun _ =>
      (hfound _).bind fun _ => (governs_act _ _ _ _ _).bind fun status => ?_
    cases status with
    | none => exact Law.grave_completes.completeStep _
    | some status => exact .pure _

/-- A parse error leaves the run where it was, but halted. -/
theorem goForward_error {e : Error} (hpool : Pool.Sound r.forest)
    (hattached : r.scanner.stream.isSome) (he : e.isFatal = false)
    (h : goForward m r = .error (.error e) s) :
    ∃ t, t.retries = 0 ∧ s = stuck e t ∧
      ((∃ id rest n, r.queue = id :: rest ∧ Pool.get? r.forest id = some n ∧
          m.grammar.decide r.state n.element r.retry = .ok none ∧
          e = .unexpected n.element r.state n.span ∧ t = r) ∨
        ∃ region, r.queue = [] ∧ Rescans r t ∧ Acquires m t (.noToken region) t ∧
          e = .lexical region t.position) := by
  rw [goForward, get_bind] at h
  cases hqueue : r.queue with
  | cons id rest =>
    simp only [hqueue] at h
    obtain ⟨n, hn, hdecide, hzero, he', hs⟩ := step_error he h
    exact ⟨r, hzero, hs, .inl ⟨id, rest, n, rfl, hn, hdecide, he', rfl⟩⟩
  | nil =>
    simp only [hqueue] at h
    obtain h1 | ⟨found, t, hacquire, h1⟩ := bind_eq_error.1 h
    · rw [grave_acquire m h1] at he
      cases he
    obtain ⟨t', hrescans, hacquires⟩ := acquire_ok hpool hattached hacquire
    cases found with
    | queued => cases h1
    | skipped => cases h1
    | suspended status => cases h1
    | noToken region =>
      simp only [get_bind] at h1
      obtain h2 | ⟨u, t'', -, h2⟩ := bind_eq_error.1 h1
      · obtain ⟨rfl, hzero, rfl⟩ := turnBack_error h2
        cases hacquires with
        | noToken hregions hnone =>
          exact ⟨t, hzero, rfl, .inr ⟨_, rfl, hrescans, .noToken hregions hnone, rfl⟩⟩
      · cases h2

end Rewind.Run
