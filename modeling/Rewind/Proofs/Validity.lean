import Rewind.Proofs.Ascent
import Rewind.Proofs.Confines
import Rewind.Proofs.Known
import Rewind.Proofs.Reopening
import Rewind.Proofs.Scripts

/-!
# Validated tables are enough

If both tables of a machine are valid and it starts in a state that exists, then a run is only ever
in states that exist or that a pushed node brought along, and so are the nodes of its stack
(`Knows`). As long as its states exist, nothing that a run looks up is missing: no index is beyond
its table, and an alternative that a decision leaves is there when it is tried.

That no state on the stack is one that a node brought along follows if no such state is missing from
the tables, or if nodes are pushed alone, since the stack is a path of shifts then (`Housed`).  It
does not follow otherwise: giving up the log releases what was set aside and dropped, with all below
it, also where the stack still holds some of that, and a node that is pushed next may take its slot.
-/

namespace Rewind

lemma Linked.isPrefix {nodes : Nodes} {head tail : Option NodeId} {xs ys : List NodeId}
    (h : Linked nodes head xs tail) (h' : Linked nodes head ys none) : xs <+: ys := by
  induction h generalizing ys with
  | nil => exact List.nil_prefix
  | cons hn _ ih =>
    cases h' with
    | cons hn' hrest =>
      obtain rfl := Option.some.inj (hn.symm.trans hn')
      exact List.cons_prefix_cons.2 ⟨rfl, ih hrest⟩

namespace Run

open Attempt Op

variable {m : Machine} {P : StateId → Prop} {K : Run → Prop} {r s : Run} {turns : Nat}
  {request : Request}
  {answer : Except Error Reply} {log : Dialogue} {start : Run} {made : List NodeId}

/-! ## Runs in states that exist -/

/-- The state of the run holds of `P`, and so do those of the nodes on its stack. -/
structure InStates (P : StateId → Prop) (r : Run) : Prop where
  state : P r.state
  stack : ∀ ids tail, Linked (Pool.get? r.forest) r.stack ids tail → ∀ id ∈ ids,
    ∃ n, Pool.get? r.forest id = some n ∧ P n.state

/-- A property that moves keep, wherever the run is, and that tells that its states exist. -/
structure Homes (m : Machine) (K : Run → Prop) : Prop extends Steady m K where
  point : ∀ ⦃r : Run⦄ point, K r → K { r with point }
  inStates : ∀ ⦃r : Run⦄, K r → InStates (· < m.grammar.states) r

lemma lasts_enter_start {entry : Entry} (hpoint : r.point = .start)
    (h : Lasts (enter m entry) r s) : s = r := by
  rcases h with ⟨a, hrun⟩ | ⟨e, he, hrun⟩
  · cases enter_ok hrun with
    | done hdone => cases hpoint.symm.trans hdone
    | back hback => cases hpoint.symm.trans hback
    | start _ _ => rfl
    | reduction hwaits _ _ => cases hpoint.symm.trans hwaits
    | action hwaits _ => rcases hwaits with hwaits | hwaits <;> cases hpoint.symm.trans hwaits
  · rcases enter_error he hrun with ⟨-, -, rfl⟩ | ⟨_, _, hwaits, -, -⟩
    · rfl
    · cases hpoint.symm.trans hwaits

namespace Homes

variable (hK : Homes m K) (hgrammar : m.grammar.Fits)

include hK hgrammar

/-- Moves keep what they need to resume. -/
theorem steady_resumes : Steady m fun q => K q ∧ Resumes m q where
  enter r s entry h hlasts := by
    refine ⟨hK.enter h.1 hlasts, ?_⟩
    by_cases hidle : r.retry = 0
    · exact (h.2.enter hidle).lasts hlasts
    · obtain rfl := lasts_enter_start (h.2.retry hidle).1 hlasts
      exact h.2
  turn r s h hlasts :=
    ⟨hK.turn h.1 hlasts, (h.2.turn hgrammar (hK.inStates h.1).state).lasts hlasts⟩
  events r events h := ⟨hK.events events h.1, h.2.toReopens.quiet rfl rfl rfl, h.2.retry⟩

/-- When turns end, no alternative waits to be tried. -/
lemma takeTurns (hr : K r) (h : Resumes m r) (hlasts : Lasts (takeTurns m turns) r s) :
    Resumes m s ∧ s.retry = 0 := by
  induction turns generalizing r with
  | zero => rcases hlasts with ⟨status, hrun⟩ | ⟨e, -, hrun⟩ <;> cases hrun
  | succ turns ih =>
    have hturn := h.turn hgrammar (hK.inStates hr).state
    rcases lasts_bind hlasts with ⟨e, he, hfails⟩ | ⟨a, t, hruns, hrest⟩
    · exact hturn.error e s he hfails
    · obtain ⟨ht, hidle⟩ := hturn.ok a t hruns
      cases a with
      | some status =>
        rcases hrest with ⟨status', hrun⟩ | ⟨e, -, hrun⟩ <;> cases hrun
        exact ⟨ht, hidle nofun⟩
      | none => exact ih (hK.turn hr (lasts_ok hruns)) ht hrest

lemma resume {entry : Entry} (hr : K r) (h : Resumes m r) (hidle : r.retry = 0)
    (hlasts : Lasts (resume m turns entry) r s) : Resumes m s ∧ s.retry = 0 := by
  have henter : Yields m (enter m entry) r := h.enter hidle
  rcases lasts_bind hlasts with ⟨e, he, hfails⟩ | ⟨a, t, hruns, hrest⟩
  · exact henter.error e s he hfails
  · obtain ⟨ht, hidle⟩ := henter.ok a t hruns
    cases a with
    | some status =>
      rcases hrest with ⟨status', hrun⟩ | ⟨e, -, hrun⟩ <;> cases hrun
      exact ⟨ht, hidle nofun⟩
    | none => exact hK.takeTurns hgrammar (hK.enter hr (lasts_ok hruns)) ht hrest

lemma goBack {target : Nat} (hr : K r) (h : Resumes m r) (hidle : r.retry = 0)
    (hlasts : Lasts (goBack m target) r s) : Resumes m s ∧ s.retry = 0 := by
  obtain ⟨-, -, hturns⟩ := lasts_goBack hlasts
  refine hK.takeTurns hgrammar ?_ ?_ hturns
  · exact hK.point _ hr
  · exact h.toReopens.rests rfl rfl rfl hidle

end Homes

/-! ## Requests -/

lemma Reopens.contributes (h : Reopens m r) (hedit : ∀ edit, request ≠ .editNodes edit)
    (hc : Contributes r request answer s) : Reopens m s ∧ s.retry = r.retry := by
  have hsent {id : NodeId} {forest : Forest} {element : ElementId} {text : Bytes}
      (halloc : Pool.alloc r.forest (.fabricated element text) = (.ok id, forest)) :
      Reopens m { r with forest, queue := r.queue ++ [id], log := r.log.append (.sent id) } := by
    refine h.place halloc (Pool.sound_of_alloc h.pool halloc) rfl rfl ?_ fun _ _ h => by cases h
    rw [Front.before, front, List.dropLast_concat]
  cases hc with
  | refused _ _ _ => exact ⟨h, rfl⟩
  | noText => exact ⟨h, rfl⟩
  | attached _ => exact ⟨h.quiet rfl rfl rfl, rfl⟩
  | detached _ => exact ⟨h.quiet rfl rfl rfl, rfl⟩
  | text _ _ => exact ⟨h.note rfl rfl rfl (fun _ => rfl) rfl, rfl⟩
  | tree _ halloc =>
    exact ⟨h.place halloc (Pool.sound_of_alloc h.pool halloc) rfl rfl rfl
      (fun _ _ h => by cases h), rfl⟩
  | token halloc => exact ⟨hsent halloc, rfl⟩
  | named halloc => exact ⟨(hsent halloc).note rfl rfl rfl (fun _ => rfl) rfl, rfl⟩
  | bound => exact ⟨h.note rfl rfl rfl (fun _ => rfl) rfl, rfl⟩
  | data => exact ⟨h.note rfl rfl rfl (fun _ => rfl) rfl, rfl⟩
  | dropped => exact ⟨h.note rfl rfl rfl (fun _ => rfl) rfl, rfl⟩
  | rejected _ => exact ⟨h.quiet rfl rfl rfl, rfl⟩
  | edited => exact absurd rfl (hedit _)

/-- Once the log is given up, there is nothing to be taken back. -/
lemma Reopens.giveUpLog (h : Reopens m r)
    (hreplied : Replied (perform m turns .giveUpLog r) answer s) :
    Reopens m s ∧ s.retry = r.retry := by
  rcases hreplied.cases_of with ⟨u, hrun, -⟩ | ⟨e, hrun, -⟩
  · have hs := (givenUp_of_ok hrun).same
    refine ⟨⟨sound_giveUpLog h.pool hrun, ?_⟩, by rw [hs]⟩
    rw [hs]
    trivial
  · exact absurd hrun giveUpLog_ne_error

/-- Whatever is asked for, no alternative waits to be tried behind the reply, unless the run is
over, and any that will be tried later is there. -/
lemma Homes.asked (hK : Homes m K) (hgrammar : m.grammar.Fits)
    (h : r.aborted = false → K r ∧ Resumes m r ∧ r.retry = 0)
    (hedit : ∀ edit, request ≠ .editNodes edit)
    (hreplied : Replied (perform m turns request r) answer s) (halive : s.aborted = false) :
    Resumes m s ∧ s.retry = 0 := by
  have hguarded {op : Op Status} (hop : K r → Resumes m r → r.retry = 0 → ∀ t, Lasts op r t →
      Resumes m t ∧ t.retry = 0) (hg : Guarded op r answer s) : Resumes m s ∧ s.retry = 0 := by
    cases hg with
    | refused haborted => cases haborted.symm.trans halive
    | answered hbefore hrun =>
      obtain ⟨hr, hresumes, hidle⟩ := h hbefore
      obtain ⟨ht, hidle⟩ := hop hr hresumes hidle _ (lasts_ok hrun)
      exact ⟨ht.toReopens.rests rfl rfl rfl hidle, hidle⟩
    | halted hbefore hrun he =>
      obtain ⟨hr, hresumes, hidle⟩ := h hbefore
      exact hop hr hresumes hidle _ (.inr ⟨_, he, hrun⟩)
    | ended _ _ _ => cases halive
  cases hguard : request.isGuarded with
  | true =>
    rcases Request.guarded_of_replied hguard hreplied with ⟨entry, -, hg⟩ | ⟨target, -, hg⟩
    · exact hguarded (fun hr hresumes hidle t => hK.resume hgrammar hr hresumes hidle) hg
    · exact hguarded (fun hr hresumes hidle t => hK.goBack hgrammar hr hresumes hidle) hg
  | false =>
    obtain ⟨-, hresumes, hidle⟩ := h ((aborted_unguarded hguard hreplied).symm.trans halive)
    have hs : Reopens m s ∧ s.retry = r.retry := by
      by_cases hgive : request = .giveUpLog
      · subst hgive
        exact hresumes.toReopens.giveUpLog hreplied
      · exact hresumes.toReopens.contributes hedit (contributes_of_replied hguard hgive hreplied)
    have hretry : s.retry = 0 := hs.2.trans hidle
    exact ⟨hs.1.resumes hretry, hretry⟩

/-! ## Where states are known from -/

/-- The state of each node that was pushed holds of `P`. -/
def PushesIn (P : StateId → Prop) (log : Dialogue) : Prop :=
  ∀ entry ∈ log, ∀ tree ignore, entry.1 = .pushTree tree ignore → P tree.state

/-- The state exists, or a node that was pushed brought it along. -/
def Occurs (m : Machine) (log : Dialogue) (state : StateId) : Prop :=
  state < m.grammar.states ∨
    ∃ entry ∈ log, ∃ tree ignore, entry.1 = .pushTree tree ignore ∧ tree.state = state

lemma Knows.inStates (h : Knows P r) : InStates P r := by
  refine ⟨h.state, fun ids tail hlinked id hid => ?_⟩
  obtain ⟨n, hn⟩ := Option.isSome_iff_exists.1 (hlinked.live id hid)
  exact ⟨n, hn, h.nodes id n hn⟩

lemma Admits.steady (h : Admits m P) : Steady m (Knows P) where
  enter _ _ entry hr hlasts := (Knows.enter entry).lasts hr hlasts
  turn _ _ hr hlasts := (Knows.turn h).lasts hr hlasts
  events _ _ hr := hr.keep rfl rfl rfl

/-- The states that exist are enough. -/
lemma admits_exists (hgrammar : m.grammar.Fits) (hstart : m.start < m.grammar.states) :
    Admits m (· < m.grammar.states) :=
  ⟨Nat.lt_of_le_of_lt (Nat.zero_le _) hstart, hstart, hgrammar.target⟩

lemma Admits.mono {Q : StateId → Prop} (h : Admits m P) (hPQ : ∀ state, P state → Q state) :
    Admits m Q :=
  ⟨hPQ _ h.fresh, hPQ _ h.start, fun _ _ htarget => hPQ _ (h.target _ _ htarget)⟩

lemma admits_occurs (hgrammar : m.grammar.Fits) (hstart : m.start < m.grammar.states)
    (log : Dialogue) : Admits m (Occurs m log) :=
  (admits_exists hgrammar hstart).mono fun _ => .inl

lemma homes_knows (hgrammar : m.grammar.Fits) (hstart : m.start < m.grammar.states) :
    Homes m (Knows (· < m.grammar.states)) where
  toSteady := (admits_exists hgrammar hstart).steady
  point _ _ h := h.keep rfl rfl rfl
  inStates _ h := h.inStates

/-- A path of shifts only leads to states that exist. -/
lemma Climbs.exists_state {nodes : Nodes} {from_ to_ : StateId} {ids : List NodeId}
    (h : Climbs m nodes from_ ids to_) (hgrammar : m.grammar.Fits)
    (hfrom : from_ < m.grammar.states) : to_ < m.grammar.states ∧
      ∀ id ∈ ids, ∃ n, nodes id = some n ∧ n.state < m.grammar.states := by
  induction h with
  | stay => exact ⟨hfrom, fun id hid => absurd hid List.not_mem_nil⟩
  | @up state target id n rest hn hedge _ ih =>
    obtain ⟨transition, start, code, -, htarget, -⟩ := hedge
    have hstate := hgrammar.target transition _ htarget
    obtain ⟨hto, hrest⟩ := ih hstate
    refine ⟨hto, fun j hj => ?_⟩
    rcases List.mem_cons.1 hj with rfl | hj
    · exact ⟨n, hn, hstate⟩
    · exact hrest j hj

lemma Housed.inStates (h : Housed m made r) (hgrammar : m.grammar.Fits)
    (hstart : m.start < m.grammar.states) : InStates (· < m.grammar.states) r := by
  obtain ⟨-, ⟨ids, hchain, hclimbs⟩, -⟩ := h.paths
  obtain ⟨hstate, hstates⟩ := hclimbs.exists_state hgrammar hstart
  refine ⟨hstate, fun xs tail hlinked id hid => hstates id (List.mem_reverse.2 ?_)⟩
  exact (hlinked.isPrefix (Forest.linked_of_chain hchain)).subset hid

/-- The log tells how the nodes came where they are, from where all of them were in order. -/
def Founded (m : Machine) (made : List NodeId) (kept : List Item) (r : Run) : Prop :=
  ∃ base, Owned [] base ∧ Ascended m made [] base ∧ Descended m base kept r

lemma homes_founded (kept : List Item) (hgrammar : m.grammar.Fits)
    (hstart : m.start < m.grammar.states) : Homes m (Founded m made kept) where
  enter r s entry h hlasts := by
    obtain ⟨base, hbase, hascended, hdescended⟩ := h
    rcases hlasts with ⟨a, hrun⟩ | ⟨e, he, hrun⟩
    · exact ⟨base, hbase, hascended, hdescended.enter hrun⟩
    · exact ⟨base, hbase, hascended, (hdescended.enter_error hrun).2 he⟩
  turn r s h hlasts := by
    obtain ⟨base, hbase, hascended, hdescended⟩ := h
    have hturn := hdescended.turn hbase
    rcases hlasts with ⟨a, hrun⟩ | ⟨e, he, hrun⟩
    · exact ⟨base, hbase, hascended, hturn.ok a s hrun⟩
    · exact ⟨base, hbase, hascended, (hturn.error e s hrun).2 he⟩
  events r events h := by
    obtain ⟨base, hbase, hascended, hdescended⟩ := h
    exact ⟨base, hbase, hascended, hdescended.quiet rfl rfl (fun _ => rfl) rfl⟩
  point r point h := by
    obtain ⟨base, hbase, hascended, hdescended⟩ := h
    exact ⟨base, hbase, hascended, hdescended.awaited point r.rejecting⟩
  inStates r h := by
    obtain ⟨base, hbase, hascended, hdescended⟩ := h
    exact (hdescended.housed hbase hascended).inStates hgrammar hstart

/-! ## Whole runs -/

/-- What a run has to do with is there.  Its state exists, and so do those of its stack; the regions
of the state are a stretch of their table that a zero ends; whatever is decided there is in the
tables with all that it needs, with the next alternative if it leaves one; and if an alternative
waits to be tried, it is there. -/
structure Furnished (m : Machine) (r : Run) : Prop where
  inStates : InStates (· < m.grammar.states) r
  regions : ∃ start count : Nat, m.grammar.regionStarts[r.state]? = some start ∧
    m.grammar.regions[start + count]? = some 0 ∧
    m.grammar.regionsOf r.state = .ok ((m.grammar.regions.toList.drop start).take count)
  decides : ∀ element alternative, ∃ found,
    m.grammar.decide r.state element alternative = .ok found ∧ ∀ decision, found = some decision →
      m.grammar.DecisionFits decision ∧ (decision.more = true →
        ∃ next, m.grammar.decide r.state element (alternative + 1) = .ok (some next))
  retry : r.retry ≠ 0 → ∃ id rest, r.queue = id :: rest ∧ ∀ n, Pool.get? r.forest id = some n →
    ∃ decision, m.grammar.decide r.state n.element r.retry = .ok (some decision)

lemma Resumes.furnished (h : Resumes m r) (hstates : InStates (· < m.grammar.states) r)
    (hgrammar : m.grammar.Fits) : Furnished m r where
  inStates := hstates
  regions := by
    obtain ⟨start, count, hstart, hzero, hregions, -⟩ := hgrammar.regionsOf hstates.state
    exact ⟨start, count, hstart, hzero, hregions⟩
  decides element alternative := hgrammar.decide hstates.state element alternative
  retry hretry := by
    obtain ⟨-, id, rest, hqueue, hdecide⟩ := h.retry hretry
    exact ⟨id, rest, hqueue, fun n hn =>
      hdecide n.element (congrArg (Option.map Node.element) hn)⟩

/-- The states of the run exist, also once it is over.  Until then it has what it needs to go on. -/
structure Equipped (m : Machine) (r : Run) : Prop where
  inStates : InStates (· < m.grammar.states) r
  ready : r.aborted = false → ∃ K, Homes m K ∧ K r ∧ Resumes m r ∧ r.retry = 0

lemma Equipped.furnished (h : Equipped m r) (hgrammar : m.grammar.Fits)
    (halive : r.aborted = false) :
    Furnished m r ∧ ∀ turns entry, ∀ q ∈ passed m turns entry r, Furnished m q := by
  obtain ⟨K, hhomes, hr, hresumes, -⟩ := h.ready halive
  refine ⟨hresumes.furnished (hhomes.inStates hr) hgrammar, fun turns entry q hq => ?_⟩
  obtain ⟨hKq, hq⟩ := (hhomes.steady_resumes hgrammar).passed ⟨hr, hresumes⟩ hq
  exact hq.furnished (hhomes.inStates hKq) hgrammar

lemma resumes_initial (blockLength blockLimit : Nat) (target : Option Nat) :
    Resumes m (initial m (Pool.empty blockLength blockLimit) target) :=
  Reopens.resumes ⟨Pool.sound_empty .., trivial⟩ rfl

lemma Admits.knows_initial (h : Admits m P) (blockLength blockLimit : Nat)
    (target : Option Nat) : Knows P (initial m (Pool.empty blockLength blockLimit) target) := by
  refine ⟨h.start, fun id n hn => ?_, nofun⟩
  simp [initial, Pool.get?, Pool.empty] at hn

lemma Resumes.sets (h : Resumes m r ∧ r.retry = 0) (hsets : Sets r s) :
    Resumes m s ∧ s.retry = 0 :=
  hsets.keeps (I := fun q => Resumes m q ∧ q.retry = 0)
    (fun _ _ _ h => ⟨h.1.toReopens.rests rfl rfl rfl h.2, h.2⟩) h

section Whole

variable {blockLength blockLimit : Nat} {target : Option Nat}

/-- If no node is edited, a run knows of no states but those that the tables lead to and those that
pushed nodes bring along. -/
lemma Dealings.knows (hP : Admits m P)
    (h : Dealings m (initial m (Pool.empty blockLength blockLimit) target) log r)
    (hedits : NoEdits log) (hpushes : PushesIn P log) : Knows P r := by
  induction h with
  | start => exact hP.knows_initial _ _ _
  | @asked log r s turns request answer _ hreplied ih =>
    have hr := ih (fun entry hentry => hedits entry (List.mem_cons_of_mem _ hentry))
      fun entry hentry => hpushes entry (List.mem_cons_of_mem _ hentry)
    exact hreplied.left ▸ (Knows.perform hP turns (hpushes _ List.mem_cons_self)
      (hedits _ List.mem_cons_self)).left hr
  | set _ hsets ih => exact hsets.keeps (fun _ _ _ h => h.keep rfl rfl rfl) (ih hedits hpushes)

variable (hgrammar : m.grammar.Fits) (hstart : m.start < m.grammar.states)

include hgrammar hstart

lemma Dealings.equipped
    (h : Dealings m (initial m (Pool.empty blockLength blockLimit) target) log r)
    (hedits : NoEdits log) (hpushes : PushesIn (· < m.grammar.states) log) : Equipped m r := by
  have hadmits := admits_exists hgrammar hstart
  have hhomes := homes_knows hgrammar hstart
  refine ⟨(h.knows hadmits hedits hpushes).inStates, fun halive =>
    ⟨_, hhomes, h.knows hadmits hedits hpushes, ?_⟩⟩
  induction h with
  | start => exact ⟨resumes_initial .., rfl⟩
  | @asked log r s turns request answer hr hreplied ih =>
    have holder : NoEdits log := fun entry hentry => hedits entry (List.mem_cons_of_mem _ hentry)
    have hpushed : PushesIn (· < m.grammar.states) log :=
      fun entry hentry => hpushes entry (List.mem_cons_of_mem _ hentry)
    exact hhomes.asked hgrammar
      (fun hbefore => ⟨hr.knows hadmits holder hpushed, ih holder hpushed hbefore⟩)
      (hedits _ List.mem_cons_self) hreplied halive
  | @set log r s _ hsets ih =>
    have hsame : s.aborted = r.aborted :=
      hsets.keeps (I := fun q => q.aborted = r.aborted) (fun _ _ _ h => h) rfl
    exact Resumes.sets (ih hedits hpushes (hsame.symm.trans halive)) hsets

lemma Tended.equipped
    (h : Tended m (initial m (Pool.empty blockLength blockLimit) target) made log r) :
    Equipped m r := by
  have hasked {made : List NodeId} {log : Dialogue} {r s : Run} {turns : Nat} {request : Request}
      {answer : Except Error Reply}
      (hr : Tended m (initial m (Pool.empty blockLength blockLimit) target) made log r)
      (ih : r.aborted = false → Resumes m r ∧ r.retry = 0)
      (hedit : ∀ edit, request ≠ .editNodes edit)
      (hreplied : Replied (perform m turns request r) answer s) (halive : s.aborted = false) :
      Resumes m s ∧ s.retry = 0 :=
    (homes_founded (lent log) hgrammar hstart).asked hgrammar
      (fun hbefore => ⟨hr.housedByLog.descended hbefore, ih hbefore⟩) hedit hreplied halive
  refine ⟨h.housedByLog.housed.inStates hgrammar hstart, fun halive =>
    ⟨_, homes_founded (lent log) hgrammar hstart, h.housedByLog.descended halive, ?_⟩⟩
  induction h with
  | start => exact ⟨resumes_initial .., rfl⟩
  | asked hr hduplicates _ hreplied ih =>
    refine hasked hr ih (fun edit hedit => ?_) hreplied halive
    subst hedit
    exact hduplicates
  | gaveUp hr hreplied ih => exact hasked hr ih (fun edit hedit => by cases hedit) hreplied halive
  | @set made log r s _ hsets ih =>
    have hsame : s.aborted = r.aborted :=
      hsets.keeps (I := fun q => q.aborted = r.aborted) (fun _ _ _ h => h) rfl
    exact Resumes.sets (ih (hsame.symm.trans halive)) hsets

end Whole

/-- Let the tables be valid, the machine start in a state that exists, and the caller edit no node.
Then every state that the run is in, between requests or between the turns of a parse, and every
state on its stack exists or came with a node that was pushed; and a request looks something up
beyond a table only in a state that came along in this way.  If all states of pushed nodes exist, or
if nodes are pushed without links, then nothing that the run has to do with is missing, and no
request looks anything up beyond a table. -/
theorem validated_suffice {blockLength blockLimit : Nat} {target : Option Nat}
    (hgrammar : m.grammar.validate = .ok ()) (hscanner : m.scanner.validate = .ok ())
    (hstart : m.start < m.grammar.states)
    (h : Dealings m (initial m (Pool.empty blockLength blockLimit) target) log r)
    (hedits : NoEdits log) :
    InStates (Occurs m log) r ∧
    (∀ turns entry, ∀ q ∈ passed m turns entry r, InStates (Occurs m log) q) ∧
    (∀ turns request index size s,
      perform m turns request r = .error (.fault (.outOfRange index size)) s →
      r.aborted = false ∧
        ∃ entry, ∃ q ∈ passed m turns entry r, ¬ q.state < m.grammar.states) ∧
    (PushesIn (· < m.grammar.states) log ∨
        (∃ made log, Tended m (initial m (Pool.empty blockLength blockLimit) target) made log r) →
      InStates (· < m.grammar.states) r ∧
      (r.aborted = false → Furnished m r ∧
        ∀ turns entry, ∀ q ∈ passed m turns entry r, Furnished m q) ∧
      ∀ turns request index size s,
        perform m turns request r ≠ .error (.fault (.outOfRange index size)) s) := by
  have hgrammar := Grammar.Tables.fits_of_validate hgrammar
  have hscanner := Scanner.Tables.fits_of_validate hscanner
  have hoccurs := admits_occurs hgrammar hstart log
  have hknows : Knows (Occurs m log) r := h.knows hoccurs hedits
    fun entry hentry tree ignore hpush => .inr ⟨entry, hentry, tree, ignore, hpush, rfl⟩
  have hrange (turns : Nat) (request : Request) (index size : Nat) (s : Run)
      (hrun : perform m turns request r = .error (.fault (.outOfRange index size)) s) :
      r.aborted = false ∧
        ∃ entry, ∃ q ∈ passed m turns entry r, ¬ q.state < m.grammar.states := by
    by_contra hnone
    have hconfined : Obeys (Law.confined True) (perform m turns request) r :=
      perform_confined hgrammar hscanner (fun halive entry q hq => by
        by_contra hstate
        exact hnone ⟨halive, entry, q, hq, hstate⟩) request
    rcases hconfined.fault hrun with h | ⟨-, h⟩ <;> cases h
  refine ⟨hknows.inStates, fun turns entry q hq => (hoccurs.steady.passed hknows hq).inStates,
    hrange, fun hclass => ?_⟩
  have hequipped : Equipped m r := by
    rcases hclass with hpushes | ⟨made, log, htended⟩
    · exact h.equipped hgrammar hstart hedits hpushes
    · exact htended.equipped hgrammar hstart
  refine ⟨hequipped.inStates, hequipped.furnished hgrammar,
    fun turns request index size s hrun => ?_⟩
  obtain ⟨halive, entry, q, hq, hstate⟩ := hrange turns request index size s hrun
  exact hstate ((hequipped.furnished hgrammar halive).2 turns entry q hq).inStates.state

/-- The machine for a letter turns back, and what it then tries is there. -/
theorem validated_suffice_letter : ∃ q ∈ passed letterMachine 20 .start letterStart,
    q.retry = 1 ∧ Furnished letterMachine q := by
  let log : Dialogue := [(.attach (Stream.ofBytes [97]), .ok .accepted)]
  have hattach : Dealings letterMachine (initial letterMachine (Pool.empty 8 8) none) log
      letterStart :=
    .replied .start (show perform letterMachine 0 (.attach _) _ = _ from rfl) (.ok _ _)
  have hentries : ∀ entry ∈ log, entry.1 = .attach (Stream.ofBytes [97]) := by simp [log]
  have hretries : (passed letterMachine 20 .start letterStart).any (·.retry == 1) = true := by
    decide +kernel
  obtain ⟨q, hq, hretry⟩ := List.any_eq_true.1 hretries
  obtain ⟨-, -, -, hclasses⟩ := validated_suffice (m := letterMachine) (by decide +kernel)
    (by decide +kernel) (by decide) hattach
    fun entry hentry edit hedit => by cases (hentries entry hentry).symm.trans hedit
  obtain ⟨-, hfurnished, -⟩ := hclasses <| .inl fun entry hentry tree ignore hpush => by
    cases (hentries entry hentry).symm.trans hpush
  exact ⟨q, hq, by simpa using hretry, (hfurnished rfl).2 20 .start q hq⟩

/-- A machine for a word of two letters, after which it wants a unit, an item, and two letters. -/
def unitMachine : Machine where
  grammar := {
    transitions := #[0, 1, 2, 3, 4, 5, 6, 7, 8, 9]
    owners := #[0, 0, 0, 1, 2, 2, 3, 4, 5, 6]
    bounds := #[1, 3, 1, 1, 3, 4, 1, 1, 1, 1, 1, 1, 0, 0, 1, 0]
    offsets := #[0, 3, 4, 6, 7, 8, 9, 0]
    targets := #[1, 0, 2, 0, 3, 4, 0, 5, 6, 7]
    codeStarts := #[0, 2, 4, 6, 8, 10, 12, 14, 16, 18]
    codes := #[1, 0, 7, 0, 1, 0, 3, 0, 1, 0, 1, 0, 10, 0, 1, 0, 1, 0, 1, 0]
    commits := #[0, 0, 0, 0, 0, 0, 0, 0, 0, 0]
    regionStarts := #[0, 0, 0, 0, 0, 0, 0, 0]
    regions := #[1, 0]
    elements := #[⟨"end", false, false⟩, ⟨"letter", false, false⟩, ⟨"word", false, false⟩,
      ⟨"unit", false, false⟩, ⟨"item", false, false⟩]
    productions := #[⟨2, 2, false⟩, ⟨3, 1, false⟩, ⟨4, 1, false⟩]
    endActions := #[true, true]
    states := 8
    start := 0
    firstNonterminal := 2
    eof := 0 }
  scanner := letterMachine.scanner

/-- Copies of nodes that are in use are set aside, dropped, and given up with all below them, twice.
The slot at the top of the stack is then free, and the next node that is pushed takes it. -/
def unitScript : List (Run → Call) := [
  fun _ => .attach (Stream.ofBytes [97, 97]), fun _ => .parse 30 .start,
  Call.copyAside 3, fun _ => .parse 30 .preEof, fun _ => .dropAside,
  Call.copyAside 2, fun _ => .parse 30 .preEof, fun _ => .giveUpLog,
  fun _ => .queueToken 3 [120] none, fun _ => .queueToken 1 [121] none,
  fun _ => .queueToken 1 [122] none, fun _ => .pauseAt (some 5), fun _ => .parse 30 .preEof,
  fun _ => .dropAside, fun _ => .giveUpLog,
  fun _ => .pushTree { Node.fabricated 4 [] with state := 99 } false]

/-- Valid tables are not enough in every run without edits: of the eight states of this machine the
node at the top of the stack has the hundredth. -/
theorem validated_insufficient_unit :
    unitMachine.grammar.validate = .ok () ∧ unitMachine.scanner.validate = .ok () ∧
    unitMachine.start < unitMachine.grammar.states ∧
    ∃ log r, Dealings unitMachine (initial unitMachine (Pool.empty 8 8) none) log r ∧
      NoEdits log ∧ r.aborted = false ∧
      ∃ id n, r.stack = some id ∧ Pool.get? r.forest id = some n ∧
        ¬ n.state < unitMachine.grammar.states := by
  refine ⟨by decide +kernel, by decide +kernel, by decide, ?_⟩
  have hplayed : (play unitMachine unitScript (initial unitMachine (Pool.empty 8 8) none)).any
      (fun r => !r.aborted && r.stack == some 0 &&
        (Pool.get? r.forest 0).any (·.state == 99)) = true := by
    decide +kernel
  obtain ⟨r, hplay, hr⟩ := (Option.any_eq_true _ _).1 hplayed
  simp only [Bool.and_eq_true, Bool.not_eq_true', beq_iff_eq] at hr
  obtain ⟨⟨halive, hstack⟩, htop⟩ := hr
  obtain ⟨n, hn, hstate⟩ := (Option.any_eq_true _ _).1 htop
  obtain ⟨log, hdealings, hedits⟩ := Dealings.play hplay
  refine ⟨log, r, hdealings, hedits, halive, 0, n, hstack, hn, ?_⟩
  rw [beq_iff_eq.1 hstate]
  decide

end Run

end Rewind
