import Rewind.Proofs.Trail
import Rewind.Proofs.Turns

/-!
# A parse in step with its search

Each thing that a run does going forward is a move of the search, from the scene of the run to the
next, and the log leaves open the choices that the search does.
-/

namespace Rewind.Run

open Attempt Op

variable {m : Machine} {base : View} {σ τ : Scene} {left : List Choice} {r s t : Run}

/-! ## Taking from the input -/

/-- Regions that find nothing make no difference. -/
lemma firstFound_append {scanner : Scanner.Tables} {items : List Item}
    {before : List RegionId} (rest : List RegionId)
    (h : ∀ region ∈ before, Scanner.finds scanner region items = some .noToken) :
    firstFound scanner items (before ++ rest) = firstFound scanner items rest := by
  induction before with
  | nil => rfl
  | cons region before ih =>
    rw [List.cons_append, firstFound, h region List.mem_cons_self]
    exact ih fun other hother => h other (List.mem_cons_of_mem _ hother)

lemma acquired_of_finds {region : RegionId} {outcome : Scanner.Outcome}
    (hdepicts : Depicts r.view σ) (h : Finds m r region outcome) :
    σ.acquired m = (σ.receive m region outcome).map .ok := by
  obtain ⟨hne, hfound, before, after, hregions, hbefore⟩ := h
  have hitems : r.content = σ.items := hdepicts.items
  have hstate : r.state = σ.state := hdepicts.state
  rw [hitems] at hfound hbefore
  rw [hstate] at hregions
  rw [Scene.acquired, hregions]
  simp only [firstFound_append _ hbefore, firstFound, hfound]

lemma acquired_of_noToken {regions : List RegionId} (hdepicts : Depicts r.view σ)
    (hregions : m.grammar.regionsOf r.state = .ok regions)
    (hnone : ∀ region ∈ regions, Scanner.finds m.scanner region r.content = some .noToken) :
    σ.acquired m = some (.error (.lexical (regions.headD 0) r.position)) := by
  have hitems : r.content = σ.items := hdepicts.items
  have hstate : r.state = σ.state := hdepicts.state
  have hposition : r.position = σ.position := hdepicts.position
  rw [hitems] at hnone
  rw [hstate] at hregions
  have hlost : firstFound m.scanner σ.items regions = some none := by
    have happend := firstFound_append [] hnone
    rwa [List.append_nil] at happend
  rw [Scene.acquired, hregions, hposition]
  simp only [hlost]

lemma receive_token {region : RegionId} {element : ElementId} {text : Bytes} {rest : List Item}
    (hitems : σ.items = text.map .byte ++ rest) :
    σ.receive m region (.token element text.length) = some (
      if m.grammar.generates element then Scene.read text rest { σ with endActionRan := false }
      else if m.grammar.ignores element then
        Scene.skipped element text rest { σ with endActionRan := false }
      else Scene.queued element text rest { σ with endActionRan := false }) := by
  have htake : bytes (σ.items.take text.length) = text := by
    have hbytes := bytes_text text []
    rw [List.append_nil] at hbytes
    rw [hitems, List.take_append_of_le_length (by simp), List.take_of_length_le (by simp), hbytes]
    exact List.append_nil text
  have hdrop : σ.items.drop text.length = rest := by
    rw [hitems, List.drop_append_of_le_length (by simp), List.drop_of_length_le (by simp),
      List.nil_append]
  rw [Scene.receive, htake, hdrop]

/-- The run came to a scene by changes that decide nothing. -/
structure Advances (m : Machine) (base : View) (r s : Run) (τ : Scene) (left : List Choice) :
    Prop where
  stands : Stands m base s τ left
  retry : s.retry = r.retry
  chosen : chosen s.log.records = chosen r.log.records
  between : isBetween r.log.records = true → isBetween s.log.records = true

lemma Advances.trans {σ' : Scene} {left' : List Choice} (h : Advances m base r s σ left)
    (h' : Advances m base s t σ' left') : Advances m base r t σ' left' :=
  ⟨h'.stands, h'.retry.trans h.retry, h'.chosen.trans h.chosen,
    fun hbetween => h'.between (h.between hbetween)⟩

lemma advances_marked (h : Stands m base r σ left) :
    Advances m base r (marked r) { σ with endActionRan := false } left := by
  unfold marked
  split
  · rename_i hran
    have hstands := h.write (writes_endActionMarked h.tidy false hran r.point) rfl (.inl rfl)
      (h.depicts.marked false) rfl rfl rfl rfl
    exact ⟨hstands, rfl, rfl, fun _ => rfl⟩
  · rename_i hran
    have hsame : { σ with endActionRan := false } = σ := by
      have hend : r.endActionRan = σ.endActionRan := h.depicts.endActionRan
      rw [show r.endActionRan = false by simpa using hran] at hend
      rw [hend]
    rw [hsame]
    exact ⟨h, rfl, rfl, fun hbetween => hbetween⟩

section Token

variable {stream rest : Stream} {scanner : Scanner} {element : ElementId} {text : Bytes}
  {id : NodeId} {forest : Forest} (h : Stands m base r σ left) (hbase : Begins base)
  (hs : r.scanner.stream = some stream) (hs' : scanner.stream = some rest)
  (htakes : Takes stream rest text) (hqueue : r.queue = [])
include h hs hs' htakes hqueue

lemma advances_consumed
    (hnames : m.scanner.Names element ∧ text ≠ [] ∧ m.grammar.generates element = true)
    (point : Point) :
    Advances m base r { r with
      scanner, point
      log := r.log.append (.consumed text r.position) } (σ.read text rest.content) left :=
  ⟨h.write (writes_consumed h.tidy hs hs' htakes hqueue hnames point) rfl (.inl rfl)
    (depicts_read h.depicts text rest.content) rfl rfl rfl rfl, rfl, rfl, fun _ => rfl⟩

include hbase

lemma advances_setAside (hnames : m.scanner.Names element ∧ text ≠ [])
    (halloc : Pool.alloc r.forest (.token element text ⟨r.position, text.length⟩) =
      (.ok id, forest)) (events : List Event) :
    Advances m base r { r with
      scanner, events
      forest := forest.put id
        { Node.token element text ⟨r.position, text.length⟩ with next := r.aside }
      aside := some id
      log := r.log.append (.setAside id r.position) }
        (σ.skipped element text rest.content) left := by
  have hvacant : r.view.nodes id = none :=
    shown_eq_none_iff.2 (Pool.get?_of_alloc h.tidy.pool halloc).1
  have hwrites := writes_setAside h.tidy (h.orderly hbase) hs hs' htakes hqueue hnames halloc events
  exact ⟨h.write hwrites rfl (.inl rfl) (depicts_setAside h.depicts hvacant) rfl rfl rfl rfl, rfl,
    rfl, fun _ => rfl⟩

lemma advances_scanned (hscans : Scans m r.content element text)
    (halloc : Pool.alloc r.forest (.token element text ⟨r.position, text.length⟩) =
      (.ok id, forest)) (events : List Event) :
    Advances m base r { r with
      scanner, forest, events
      queue := r.queue ++ [id]
      log := r.log.append (.scanned id r.position) } (σ.queued element text rest.content) left := by
  have hvacant : r.view.nodes id = none :=
    shown_eq_none_iff.2 (Pool.get?_of_alloc h.tidy.pool halloc).1
  have hwrites := writes_scanned h.tidy (h.orderly hbase) hs hs' htakes hqueue hscans halloc events
  exact ⟨h.write hwrites rfl (.inl rfl) (depicts_scanned h.depicts hqueue hvacant) rfl rfl rfl rfl,
    rfl, rfl, fun _ => rfl⟩

end Token

/-- What a run acquires, its scene does. -/
lemma advances_acquires {found : Acquired} (h : Stands m base r σ left) (hbase : Begins base)
    (hqueue : r.queue = []) (hacquires : Acquires m r found s) :
    ((∀ region, found ≠ .noToken region) ∧
        ∃ τ, σ.acquired m = some (.ok τ) ∧ Advances m base r s τ left) ∨
      ∃ region, found = .noToken region ∧ s = r ∧
        σ.acquired m = some (.error (.lexical region r.position)) := by
  have hmarked := advances_marked h
  obtain ⟨hscanner, -, hqueue', -⟩ := sameCourse_marked r
  rw [hqueue] at hqueue'
  have hstream {stream : Stream} (hs : r.scanner.stream = some stream) :
      (marked r).scanner.stream = some stream := by rw [hscanner, hs]
  have hitems {stream rest : Stream} {text : Bytes} (hs : r.scanner.stream = some stream)
      (htakes : Takes stream rest text) : σ.items = text.map .byte ++ rest.content := by
    rw [← h.depicts.items, show r.view.items = r.content from rfl, (content_eq hs).1,
      htakes.content]
  have hend : r.endActionRan = σ.endActionRan := h.depicts.endActionRan
  have htrees : trees r.content = [] := by
    rw [show r.content = σ.items from h.depicts.items]
    exact h.trail.bytes hbase
  cases hacquires with
  | @consumed region element text stream rest hfinds hgenerates hnames hs htakes =>
    refine .inl ⟨by simp, Scene.read text rest.content { σ with endActionRan := false }, ?_, ?_⟩
    · rw [acquired_of_finds h.depicts hfinds, receive_token (hitems hs htakes), if_pos hgenerates]
      rfl
    · rw [← position_marked]
      refine hmarked.trans (advances_consumed hmarked.stands (hstream hs) ?_ htakes hqueue'
        ⟨hnames.1, hnames.2, hgenerates⟩ .generation)
      rfl
  | @skipped region element text stream rest id forest hfinds hgenerates hignores hnames hs htakes
      halloc =>
    refine .inl ⟨by simp, Scene.skipped element text rest.content { σ with endActionRan := false },
      ?_, ?_⟩
    · rw [acquired_of_finds h.depicts hfinds, receive_token (hitems hs htakes),
        if_neg (by simp [hgenerates]), if_pos hignores]
      rfl
    · rw [← position_marked] at halloc ⊢
      refine hmarked.trans (advances_setAside hmarked.stands hbase (hstream hs) ?_ htakes hqueue'
        hnames halloc _)
      rfl
  | @queued region element text stream rest id forest hfinds hgenerates hignores hnames hs htakes
      halloc =>
    refine .inl ⟨by simp, Scene.queued element text rest.content { σ with endActionRan := false },
      ?_, ?_⟩
    · rw [acquired_of_finds h.depicts hfinds, receive_token (hitems hs htakes),
        if_neg (by simp [hgenerates]), if_neg (by simp [hignores])]
      rfl
    · rw [← position_marked] at halloc ⊢
      refine hmarked.trans (advances_scanned hmarked.stands hbase (hstream hs) ?_ htakes hqueue'
        (.inl hnames) halloc _)
      rfl
  | @treeSkipped region id n stream rest _ hs hcontent _ _ _ =>
    rw [(content_eq hs).1, hcontent] at htrees
    cases htrees
  | @treeQueued region id n stream rest _ hs hcontent _ _ _ =>
    rw [(content_eq hs).1, hcontent] at htrees
    cases htrees
  | @preEof region hfinds hempty hdue hran =>
    refine .inl ⟨by simp, { σ with endActionRan := true }, ?_, ?_⟩
    · rw [acquired_of_finds h.depicts hfinds, Scene.receive, if_pos ⟨hdue, hend ▸ hran⟩]
      rfl
    · exact ⟨h.write (writes_endActionMarked h.tidy true hran .preEof) rfl (.inl rfl)
        (h.depicts.marked true) rfl rfl rfl rfl, rfl, rfl, fun _ => rfl⟩
  | @ended region id forest hfinds hempty hdue halloc =>
    obtain ⟨stream, hs⟩ := h.tidy.stream
    have hnothing : stream.content = [] := (content_eq hs).1 ▸ hempty
    refine .inl ⟨by simp, σ.queued m.grammar.eof [] [], ?_, ?_⟩
    · rw [acquired_of_finds h.depicts hfinds, Scene.receive, if_neg (hend ▸ hdue)]
      rfl
    · have hended := advances_scanned h hbase hs hs (takes_nothing stream) hqueue
        (.inr ⟨rfl, rfl, hempty⟩) halloc (.token region m.grammar.eof [] :: r.events)
      rw [hnothing] at hended
      exact hended
  | noToken hregions hnone =>
    exact .inr ⟨_, rfl, rfl, acquired_of_noToken h.depicts hregions hnone⟩

/-! ## Deciding -/

section Act

variable {id : NodeId} {rest : List NodeId} {n : Node} {target : StateId}
  {decision : Grammar.Decision} {production : ProductionId} {commits : Bool} {a : Option Status}

/-- The lookahead of a run is that of its scene. -/
lemma Stands.front (h : Stands m base r σ left) (hqueue : r.queue = id :: rest) :
    ∃ s queue n, σ.queue = s :: queue ∧ Pool.get? r.forest id = some n ∧
      s.element = n.element ∧ s.span = n.span ∧ r.forest.shape id = .ok s := by
  obtain ⟨stack, aside, ownedS, ownedQ, ownedA, -, -, -, hwaiting, -, hnodup⟩ := h.depicts.trees
  rw [show r.view.nodes = Pool.get? r.forest from h.tidy.shown_eq,
    show r.view.queue = id :: rest from hqueue] at hwaiting
  have hdistinct : ownedQ.Nodup := (List.Nodup.of_append_left hnodup).of_append_right
  have hshapes := Forest.mapM_shape hwaiting hdistinct
  obtain ⟨n, -, -, -, -, -, kids, set, shapes, hn, -, -, -, -, -, -, hqueued⟩ := hwaiting.of_cons
  rw [List.mapM_cons, hqueued] at hshapes
  obtain ⟨s, hs, hothers⟩ := Except.bind_eq_ok.1 hshapes
  obtain ⟨queue, -, hcons⟩ := Except.bind_eq_ok.1 hothers
  obtain ⟨rfl, rfl⟩ := List.cons.inj (Except.ok.inj hcons)
  exact ⟨_, _, n, hqueued, hn, rfl, rfl, hs⟩

lemma stands_shift {u : Unit} (h : Stands m base r σ left) (hbase : Begins base)
    (hn : Pool.get? r.forest id = some n)
    (hshifts : Shifts m r.state n.element decision.alternative decision.more target)
    (hbetween : isBetween r.log.records = true)
    (hshift : shift m id target decision.alternative decision.more
      (decided n.element decision r) = .ok u s) :
    Stands m base s (σ.shifted m target)
        (Choice.leaves ⟨σ, decision.alternative, chosen r.log.records⟩ decision.more left) ∧
      s.retry = 0 ∧ s.point = r.point ∧
      ∃ ignored, s.log.records =
        .shifted id r.state ignored decision.alternative decision.more :: r.log.records := by
  obtain ⟨rest, n', hqueue, hn', rfl⟩ := shift_ok hshift
  obtain rfl : n = n' := Option.some.inj (hn.symm.trans hn')
  have hshown : r.view.nodes id = some n :=
    (congrFun (show r.view.nodes = _ from h.tidy.shown_eq) id).trans hn
  have hwrites := writes_shifted h.tidy (h.orderly hbase) hqueue hn hshifts 0
    (.decided r.state n.element decision :: r.events)
  exact ⟨h.write hwrites rfl (.inr hbetween) (depicts_shifted h.depicts hqueue hshown) rfl rfl rfl
    rfl, rfl, rfl, _, rfl⟩

/-- A reduction, with the decision for it.  What is decided otherwise makes no difference. -/
lemma stands_reduce {q : Run} {alternative : Nat} {more : Bool} (h : Stands m base r σ left)
    (hbase : Begins base)
    (hq : q = { r with
      events := q.events
      retry := q.retry
      retries := if more then r.retries + 1 else r.retries })
    (hbetween : more = false ∨ isBetween r.log.records = true)
    (hreduce : reduce m production alternative more commits q = .ok a s) :
    ∃ info tree children, m.grammar.productions[production]? = some info ∧
      σ.reduce? m production = some (σ.reduced m production info) ∧
      Stands m base s (σ.reduced m production info)
        (Choice.leaves ⟨σ, alternative, chosen r.log.records⟩ more left) ∧
      s.queue = tree :: r.queue ∧ s.retry = q.retry ∧
      s.log.records = .reduced tree r.state alternative more :: r.log.records ∧
      a = (if info.hasAction then some (.reduction production tree children) else none) ∧
      s.point = if info.hasAction then .reduction production commits else r.point := by
  obtain ⟨info, children, below, span, tree, made, linked, state, hinfo, hunstack, hspan, halloc,
    hlink, hstate, rfl, rfl⟩ := reduce_ok hreduce
  rw [hq] at hunstack hspan halloc ⊢
  obtain ⟨nodes, hreduces, hwrites⟩ :=
    writes_reduced alternative more h.tidy (h.orderly hbase) hinfo
    hunstack hspan halloc (hlink _ rfl) hstate q.retry
    (if info.hasAction then .reduction production commits else r.point) q.events
  have hplain : (Record.reduced tree r.state alternative more).takenBack = .plain ∨
      isBetween r.log.records = true := by
    refine hbetween.imp_left fun hmore => ?_
    rw [hmore]
    rfl
  refine ⟨info, tree, children, hinfo, ?_, h.write hwrites rfl hplain
    (depicts_reduced h.depicts hreduces) rfl rfl rfl rfl, rfl, rfl, rfl, rfl, rfl⟩
  rw [Scene.reduce?, hinfo]
  exact if_pos (h.depicts.length_le hreduces)

/-- What an alternative that was tried leaves to the caller: nothing, or a tree to act on. -/
inductive Leaves (m : Machine) (t : Tried) (point : Point) (s : Run) : Option Status → Prop
  | nothing : s.point = point → (∀ rejects, t.rejection m rejects = none) →
    Leaves m t point s none
  | tree {production : ProductionId} {tree : NodeId} {children rest : List NodeId}
      {shape : Shape} :
    s.point = .reduction production t.commits → s.queue = tree :: rest →
    s.forest.shape tree = .ok shape →
    (∀ rejects, t.rejection m rejects =
      if rejects shape then some (.rejected production shape.span) else none) →
    Leaves m t point s (some (.reduction production tree children))

/-- A run that tried an alternative of a choice, and has not completed the step. -/
structure Tries (m : Machine) (base : View) (c : Choice) (left : List Choice) (t : Tried)
    (s : Run) : Prop where
  tried : ∃ lookahead queue, c.scene.queue = lookahead :: queue ∧
    c.scene.tried m lookahead c.alternative = some (.ok t)
  stands : Stands m base s t.scene (c.leaves t.decision.more left)
  retry : s.retry = 0
  chosen : chosen s.log.records = t.decision.alternative :: c.chosen

lemma leaves_reduced {info : Grammar.Production} {tree : NodeId} {children : List NodeId}
    {point : Point} {left' : List Choice}
    (hstands : Stands m base s (σ.reduced m production info) left')
    (haction : production? decision.action = some production)
    (hinfo : m.grammar.productions[production]? = some info) (hqueue : s.queue = tree :: rest)
    (ha : a = if info.hasAction then some (.reduction production tree children) else none)
    (hpoint : s.point = if info.hasAction then .reduction production commits else point) :
    Leaves m ⟨decision, commits, σ.reduced m production info⟩ point s a := by
  obtain ⟨shape, queue, n, hfront, -, -, -, hshape⟩ := hstands.front hqueue
  have hrejection (rejects : Shape → Bool) :
      Tried.rejection m rejects ⟨decision, commits, σ.reduced m production info⟩ =
        if info.hasAction && rejects shape then some (.rejected production shape.span)
        else none := by
    simp only [Tried.rejection, haction, hinfo, hfront, Option.bind_eq_bind, Option.bind_some,
      List.head?_cons]
  cases hhas : info.hasAction with
  | true =>
    rw [hhas, if_pos rfl] at ha hpoint
    rw [ha]
    refine .tree hpoint hqueue hshape fun rejects => ?_
    rw [hrejection, hhas, Bool.true_and]
  | false =>
    rw [hhas, if_neg Bool.false_ne_true] at ha hpoint
    rw [ha]
    refine .nothing hpoint fun rejects => ?_
    rw [hrejection, hhas, Bool.false_and, if_neg Bool.false_ne_true]

/-- What a run does with a decision, its scene does. -/
lemma tries_act {commits : Nat} (h : Stands m base r σ left) (hbase : Begins base)
    (hqueue : r.queue = id :: rest) (hn : Pool.get? r.forest id = some n)
    (hdecide : m.grammar.decide r.state n.element r.retry = .ok (some decision))
    (hcommits : m.grammar.commits[decision.transition]? = some commits)
    (htarget : m.grammar.targets[decision.transition]? = some target)
    (hbetween : isBetween r.log.records = true)
    (hact : act m id decision target (commits ≠ 0) (decided n.element decision r) = .ok a s) :
    ∃ t, Tries m base ⟨σ, r.retry, chosen r.log.records⟩ left t s ∧
      t.commits = decide (commits ≠ 0) ∧
      Leaves m t r.point s a := by
  obtain ⟨lookahead, queue, n', hfront, hn', helement, -, -⟩ := h.front hqueue
  obtain rfl : n = n' := Option.some.inj (hn.symm.trans hn')
  have halternative : decision.alternative = r.retry := decide_alternative hdecide
  have htried {τ : Scene} (hacted : σ.acted m target decision.action = some τ) :
      ∃ lookahead queue, σ.queue = lookahead :: queue ∧
        σ.tried m lookahead r.retry = some (.ok ⟨decision, commits ≠ 0, τ⟩) := by
    refine ⟨lookahead, queue, hfront, ?_⟩
    rw [Scene.tried, ← h.depicts.state, helement, show r.view.state = r.state from rfl, hdecide]
    simp only [htarget, hcommits, hacted]
    rfl
  have hshifts (haction : decision.action = .shift ∨
      ∃ production, decision.action = .shiftReduce production) :
      Shifts m r.state n.element decision.alternative decision.more target :=
    ⟨decision, by rw [halternative, hdecide], rfl, htarget, haction⟩
  unfold act at hact
  cases haction : decision.action with
  | shift =>
    rw [haction] at hact
    obtain ⟨u, s', hshift, hrest⟩ := bind_eq_ok.1 hact
    obtain ⟨rfl, rfl⟩ := EStateM.Result.ok.inj hrest
    obtain ⟨hstands, hretry, hpoint, ignored, hlog⟩ :=
      stands_shift h hbase hn (hshifts (.inl haction)) hbetween hshift
    refine ⟨⟨decision, commits ≠ 0, σ.shifted m target⟩, ⟨htried ?_, ?_, hretry, ?_⟩, rfl,
      .nothing hpoint fun rejects => ?_⟩
    · rw [haction]
      rfl
    · rw [← halternative]
      exact hstands
    · rw [hlog]
      rfl
    · simp [Tried.rejection, haction, production?]
  | reduce production =>
    rw [haction] at hact
    obtain ⟨info, tree, children, hinfo, hreduced, hstands, hqueue', hretry, hlog, ha, hpoint⟩ :=
      stands_reduce h hbase rfl (.inr hbetween) hact
    refine ⟨⟨decision, commits ≠ 0, σ.reduced m production info⟩, ⟨htried ?_, ?_, hretry, ?_⟩, rfl,
      leaves_reduced hstands (by rw [haction]; rfl) hinfo hqueue' ha hpoint⟩
    · rw [haction]
      exact hreduced
    · rw [← halternative]
      exact hstands
    · rw [hlog]
      exact chosen_reduced hbetween _ _ _ _
  | shiftReduce production =>
    rw [haction] at hact
    obtain ⟨u, s', hshift, hreduce⟩ := bind_eq_ok.1 hact
    obtain ⟨hstands, hretry, hpoint, ignored, hlog⟩ :=
      stands_shift h hbase hn (hshifts (.inr ⟨_, haction⟩)) hbetween hshift
    obtain ⟨info, tree, children, hinfo, hreduced, hstands', hqueue', hretry', hlog', ha,
        hpoint'⟩ :=
      stands_reduce hstands hbase rfl (.inl rfl) hreduce
    rw [hpoint] at hpoint'
    refine ⟨⟨decision, commits ≠ 0, (σ.shifted m target).reduced m production info⟩,
      ⟨htried ?_, ?_, hretry'.trans hretry, ?_⟩, rfl,
      leaves_reduced hstands' (by rw [haction]; rfl) hinfo hqueue' ha hpoint'⟩
    · rw [haction]
      exact hreduced
    · rw [← halternative]
      exact hstands'
    · rw [hlog', hlog]
      rfl

end Act

/-! ## Completing a step -/

/-- Whether the parse is at its end can be seen from the scene. -/
lemma Depicts.ended {v : View} (h : Depicts v σ) : v.ended m = σ.ended m := by
  obtain ⟨stack, aside, ownedS, ownedQ, ownedA, hs, -, hstack, -⟩ := h.trees
  rw [View.ended]
  generalize v.stack = top at hs
  cases hs with
  | nil =>
    obtain ⟨-, hnone⟩ := hstack.of_nil
    rw [Scene.ended, hnone]
    rfl
  | @cons id n ids _ hn hrest =>
    obtain ⟨n', -, -, -, -, ownedR, kids, set, below, hn', -, -, -, -, hbelow, -, hshapes⟩ :=
      hstack.of_cons
    obtain rfl : n = n' := Option.some.inj (hn.symm.trans hn')
    have halone : n.next = none ↔ below.isEmpty = true := by
      rw [hrest.head_eq, Option.or_none, List.head?_eq_none_iff, List.isEmpty_iff,
        ← List.length_eq_zero_iff, ← List.length_eq_zero_iff, hbelow.length_eq]
    rw [Scene.ended, hshapes, Option.bind_some, hn]
    simp only [halone, Node.shape]
    congr

lemma stands_closed (h : Stands m base r τ left) (commits : Bool) :
    Stands m base (closed commits r) τ (if commits then [] else left) ∧
      chosen (closed commits r).log.records = chosen r.log.records := by
  cases commits with
  | true =>
    have hdepicts := h.depicts
    exact ⟨h.write (writes_committed h.tidy) rfl (.inl rfl) ⟨hdepicts.state, hdepicts.items,
      hdepicts.position, hdepicts.endActionRan, hdepicts.trees⟩ rfl rfl rfl rfl, rfl⟩
  | false => exact ⟨h, rfl⟩

/-- Behind the end of a step nothing was decided yet.  If the step commits, then nothing before it
is left open. -/
lemma stands_completeStep {commits : Bool} {a : Option Status} (h : Stands m base r τ left)
    (hbase : Begins base) (hcomplete : completeStep m commits r = .ok a s) :
    Stands m base s τ (if commits then [] else left) ∧ s.retry = r.retry ∧
      chosen s.log.records = chosen r.log.records ∧ isBetween s.log.records = true ∧
      (τ.ended m = true ∧ a = some .done ∨
        τ.ended m = false ∧ a = none ∧ s.point = r.point) := by
  obtain ⟨hclosed, hchosen⟩ := stands_closed h commits
  have hdepicts := hclosed.depicts
  have hstepped : Stands m base (stepped commits r) τ (if commits then [] else left) :=
    hclosed.write (writes_stepEnded hclosed.tidy) rfl (.inl rfl) ⟨hdepicts.state, hdepicts.items,
      hdepicts.position, hdepicts.endActionRan, hdepicts.trees⟩ rfl rfl rfl rfl
  have hretry : (stepped commits r).retry = r.retry := by cases commits <;> rfl
  have hpoint : (stepped commits r).point = r.point := by cases commits <;> rfl
  obtain ⟨reached, hreached, hcases⟩ := completeStep_ok hcomplete
  rw [atEnd_ok (hstepped.orderly hbase), hstepped.depicts.ended] at hreached
  obtain rfl : τ.ended m = reached := Except.ok.inj hreached
  rcases hcases with ⟨hended, rfl, rfl⟩ | ⟨-, hstopping, -⟩ | ⟨hended, -, rfl, rfl⟩
  · exact ⟨hstepped.await .done _ _, hretry, hchosen, rfl, .inl ⟨hended, rfl⟩⟩
  · rw [hstepped.stopping] at hstopping
    cases hstopping
  · refine ⟨hstepped, hretry, hchosen, rfl, .inr ⟨hended, ?_, hpoint⟩⟩
    rw [hstepped.target]
    rfl

end Rewind.Run
