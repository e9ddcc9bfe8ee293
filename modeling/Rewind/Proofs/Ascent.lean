import Rewind.Proofs.Garbage
import Rewind.Proofs.Retrace

/-!
# Stack and trees are paths

Between any two requests, the stack of a run is a path of shifts from where the machine starts to
the state of the run, and every tree that a reduction made has the children that its production
asks for, which are such a path too.  This holds of every run whose caller is `Tended`: who pushes
single nodes only, edits none, and attaches no stream that holds trees, unless it is the one that
was detached last.  The caller may ask in any order, take back what was done, give up the log, and
go on asking once the run is over.

While a run is not over, its log tells how the bare view came about (`Descended`).  A request that
ends the run may leave the log in disorder, but the nodes are where they should be (`Housed`), and
what a caller can still do to them keeps it so.
-/

namespace Rewind

lemma Linked.head {nodes : Nodes} {head : Option NodeId} {ids : List NodeId}
    (h : Linked nodes head ids none) : ids.head? = head := by
  cases h with
  | nil => rfl
  | cons _ _ => rfl

/-! ## Fewer nodes -/

lemma Linked.same_of_fewer {nodes nodes' : Nodes} {head tail : Option NodeId} {ids : List NodeId}
    (hfewer : Fewer nodes nodes') (h : Linked nodes' head ids tail) :
    ∀ id ∈ ids, nodes' id = nodes id := by
  intro id hid
  obtain ⟨n, hn⟩ := Option.isSome_iff_exists.1 (h.live id hid)
  rw [hn, hfewer id n hn]

namespace Run

open Attempt Op

variable {m : Machine} {nodes nodes' : Nodes} {roots : List NodeId} {tree id : NodeId}
  {made : List NodeId} {base v v' : View} {r s : Run} {loose loose' : List NodeId}
  {kept lane lane' : List Item} {records : List Record} {record : Record} {turns : Nat}
  {request : Request} {answer : Except Error Reply} {log : Dialogue} {start : Run}

/-- A tree that is left has its children left. -/
lemma Grown.fewer (h : Grown m nodes tree) (hfewer : Fewer nodes nodes')
    (hrooted : Rooted nodes' roots) (hlive : (nodes' tree).isSome) : Grown m nodes' tree := by
  obtain ⟨n, production, info, children, from_, to_, hn, hproduction, hinfo, helement, hlinked,
    hlength, hclimbs⟩ := h
  obtain ⟨n', hn'⟩ := Option.isSome_iff_exists.1 hlive
  obtain rfl : n' = n := Option.some.inj ((hfewer _ _ hn').symm.trans hn)
  obtain ⟨owned, shapes, htrees, hnodup, hall⟩ := hrooted
  obtain ⟨children', hlinked', -⟩ := htrees.children hnodup (hall tree hlive) hn'
  obtain rfl : children' = children := (hlinked'.of_fewer hfewer).unique hlinked
  exact ⟨n', production, info, children', from_, to_, hn', hproduction, hinfo, helement, hlinked',
    hlength, hclimbs.congr fun id hid => by rw [hlinked'.same_of_fewer hfewer id hid]⟩

/-- The stack is left. -/
lemma View.Rises.fewer (h : v.Rises m) (hfewer : Fewer v.nodes v'.nodes) (ho : Orderly v')
    (hstack : v'.stack = v.stack) (hstate : v'.state = v.state) : v'.Rises m := by
  obtain ⟨ids, hlinked, hclimbs⟩ := h
  obtain ⟨ids', hlinked', -⟩ := ho.stack
  obtain rfl : ids' = ids := (hlinked'.of_fewer hfewer).unique (hstack ▸ hlinked)
  refine ⟨ids', hlinked', ?_⟩
  rw [hstate]
  exact hclimbs.congr fun id hid => by
    rw [hlinked'.same_of_fewer hfewer id (List.mem_reverse.1 hid)]

/-! ## Nodes in their places -/

/-- Every node has one owner, and the stack and the trees made are paths. -/
structure Houses (m : Machine) (made loose : List NodeId) (r : Run) : Prop where
  pool : Pool.Sound r.forest
  owned : Owned r.log.records (r.bare loose)
  ascended : Ascended m made r.log.records (r.bare loose)

/-- The nodes are where they should be, if these are loose. -/
def Housed (m : Machine) (made : List NodeId) (r : Run) : Prop :=
  ∃ loose, Houses m made loose r

lemma Descended.housed (h : Descended m base kept r) (hbase : Owned [] base)
    (hascended : Ascended m made [] base) : Housed m made r := by
  obtain ⟨loose, lane, h⟩ := h
  exact ⟨loose, h.pool, h.owned hbase, h.lineage.ascended hbase hascended⟩

lemma Unmoved.nodes_bare (h : Unmoved r s) (loose : List NodeId) :
    (s.bare loose).nodes = (r.bare loose).nodes := by
  refine shown_congr (r := r.inFront loose) (congrArg Pool.get? h.forest) fun j => ?_
  rw [waiting_inFront, waiting_inFront, h.queue]

lemma Housed.unmoved (h : Housed m made r) (hunmoved : Unmoved r s) : Housed m made s := by
  obtain ⟨loose, hpool, howned, hrises, hgrown⟩ := h
  have hnodes := hunmoved.nodes_bare loose
  refine ⟨loose, hunmoved.forest ▸ hpool, ?_, ?_, fun tree htree => ?_⟩
  · refine howned.keep hunmoved.stack hunmoved.aside hnodes ?_ hunmoved.dropped
    rw [waiting_bare, waiting_bare, hunmoved.queue]
  · exact hrises.keep hunmoved.stack hunmoved.state hnodes
  · rw [hnodes]
    rw [hunmoved.trees] at htree
    exact hgrown tree htree

/-- The stack and the trees of a run are paths. -/
lemma Housed.paths (h : Housed m made r) :
    Below m (Pool.get? r.forest) r.stack r.state ∧
    (∃ ids, r.forest.chain r.stack = .ok ids ∧
      Climbs m (Pool.get? r.forest) m.start ids.reverse r.state) ∧
    ∀ tree ∈ made ++ r.log.records.filterMap Record.tree?, Grown m (Pool.get? r.forest) tree := by
  obtain ⟨loose, -, howned, ⟨ids, hlinked, hclimbs⟩, hgrown⟩ := h
  have ho : Orderly (r.bare loose) := howned.orderly
  have hsame (id : NodeId) (hid : id ∉ (r.inFront loose).waiting) :
      Pool.get? r.forest id = (r.bare loose).nodes id :=
    (shown_of_not_waiting hid).symm
  have hstacked (id : NodeId) (hid : id ∈ ids) : Pool.get? r.forest id = (r.bare loose).nodes id :=
    hsame id fun hwaits => ho.not_stacked hwaits hlinked hid
  have hpath : Climbs m (Pool.get? r.forest) m.start ids.reverse r.state :=
    hclimbs.congr fun id hid => by rw [hstacked id (List.mem_reverse.1 hid)]
  have hnodup : ids.Nodup := by
    obtain ⟨ids', hlinked', hnodup⟩ := ho.stack
    obtain rfl : ids' = ids := hlinked'.unique hlinked
    exact hnodup.of_append_left
  have htop : ids.head? = r.stack := hlinked.head
  refine ⟨htop ▸ hpath.arrives,
    ⟨ids, Forest.chain_of_linked (hlinked.congr hstacked) hnodup, hpath⟩, fun tree htree => ?_⟩
  obtain ⟨stack, aside, dropped, -, -, -, hrooted⟩ := howned.roots
  refine (hgrown tree htree).untouched hrooted ⟨fun id hid _ => ?_, fun id _ n hn => ?_⟩
  · refine hsame id fun hwaits => hid (List.mem_append_right _ (List.mem_append_left _ ?_))
    exact hwaits
  · obtain ⟨n', hn', hloose⟩ := exists_of_shown hn
    exact ⟨n', hn', (congrArg Node.element hloose :), (congrArg Node.production hloose :),
      (congrArg Node.child hloose :)⟩

/-! ## What callers contribute -/

lemma Houses.alters (lane : List Item) (h : Houses m made loose r)
    (halters : Alters m r.log.records record (r.bare loose) lane (s.bare loose') lane')
    (hlog : s.log = r.log.append record) (hpool : Pool.Sound s.forest) : Housed m made s := by
  have hrecords : s.log.records = record :: r.log.records := congrArg Journal.records hlog
  refine ⟨loose', hpool, ?_, ?_⟩ <;> rw [hrecords]
  · exact h.owned.alters halters
  · exact h.ascended.alters h.owned halters

/-- A move that writes down one record is the change that it tells of. -/
lemma change_of_moves
    (hmoves : Moves m False (fun _ _ => True) (r.inFront loose) (s.inFront loose))
    (hlog : s.log = r.log.append record) :
    Change m False 0 r.log.length record (r.bare loose) (s.bare loose) := by
  have hpath := hmoves.path
  change Path m False _ r.log.records (r.bare loose) 0 s.log.records (s.bare loose) at hpath
  rw [congrArg Journal.records hlog] at hpath
  exact hpath.of_single

lemma Houses.moves (h : Houses m made loose r)
    (hmoves : Moves m False (fun _ _ => True) (r.inFront loose) (s.inFront loose))
    (hlog : s.log = r.log.append record) (hinward : record.isInward = true) : Housed m made s :=
  h.alters [] (.inward hinward (change_of_moves hmoves hlog)) hlog hmoves.tidy.pool

lemma Descends.moves (h : Descends m base kept loose lane r)
    (hmoves : Moves m False (fun _ _ => True) (r.inFront loose) (s.inFront loose))
    (hlog : s.log = r.log.append record) (hinward : record.isInward = true)
    (hahead : s.ahead kept = r.ahead kept) : Descends m base kept loose lane s :=
  h.inward (change_of_moves hmoves hlog) hinward hlog hmoves.tidy.pool hahead

/-- A tree is pushed in front of the stream. -/
lemma alters_treePushed {n : Node} {forest : Forest} (lane : List Item) (scanner : Scanner)
    (ignore : Bool) (hpool : Pool.Sound r.forest) (ho : Orderly (r.bare loose))
    (halloc : Pool.alloc r.forest n = (.ok id, forest)) (hchild : n.child = none)
    (hignored : n.ignored = none) :
    id ∉ loose ∧ Alters m r.log.records (.treePushed id) (r.bare loose) lane
      (bare { r with forest, scanner, log := r.log.append (.treePushed id) } (id :: loose))
      (.tree id ignore :: lane) := by
  let s : Run := { r with forest, scanner, log := r.log.append (.treePushed id) }
  have hwaiting (j : NodeId) (hj : j ≠ id) :
      j ∈ (s.inFront (id :: loose)).waiting ↔ j ∈ (r.inFront loose).waiting := by
    rw [waiting_inFront, waiting_inFront]
    simp [s, hj]
  obtain ⟨hvacant, hout, hshown⟩ :=
    shown_of_alloc (tidy_inFront hpool loose) ho halloc rfl hwaiting
  rw [waiting_inFront, List.mem_append, not_or] at hout
  have hin : id ∈ (s.inFront (id :: loose)).waiting := by
    rw [waiting_inFront]
    simp
  rw [if_pos hin] at hshown
  have hview : s.bare (id :: loose) = { r.bare loose with
      nodes := Function.update (r.bare loose).nodes id (some n.loose)
      items := .tree id false :: (r.bare loose).items } :=
    View.ext rfl rfl rfl rfl rfl hshown rfl rfl rfl rfl
      ((content_inFront s _).trans (congrArg _ (content_inFront r loose).symm)) rfl
  refine ⟨hout.2, ?_⟩
  rw [show bare _ _ = _ from hview]
  exact .treePushed hvacant hchild hignored

/-- The stream that was handed out last. -/
def lent : Dialogue → List Item
  | [] => []
  | (_, .ok (.stream stream)) :: _ => stream.content
  | _ :: log => lent log

/-- Whether a caller asks for nothing that would put a node in two places: trees are pushed as
single nodes, a stream that is attached holds trees only if it is the one that was handed out last,
and no node is edited. -/
def NoDuplicates (log : Dialogue) : Request → Prop
  | .attach stream => trees stream.content = [] ∨ stream.content = lent log
  | .pushTree tree _ => tree.child = none ∧ tree.ignored = none
  | .editNodes _ => False
  | _ => True

/-- Whatever a caller contributes who puts no node in two places, the nodes are where they should
be. -/
lemma Housed.contributes (h : Housed m made r) (hduplicates : NoDuplicates log request)
    (hc : Contributes r request answer s) : Housed m made s := by
  obtain ⟨loose, hhouses⟩ := id h
  have htidy : Tidy False (r.inFront loose) := tidy_inFront hhouses.pool loose
  have ho : Orderly (r.bare loose) := hhouses.owned.orderly
  cases hc with
  | refused _ _ _ => exact h
  | noText => exact h
  | attached _ => exact h.unmoved ⟨rfl, rfl, rfl, rfl, rfl, rfl, rfl⟩
  | detached _ => exact h.unmoved ⟨rfl, rfl, rfl, rfl, rfl, rfl, rfl⟩
  | text _ _ => exact h.unmoved ⟨rfl, rfl, rfl, rfl, rfl, rfl, rfl⟩
  | bound => exact h.unmoved ⟨rfl, rfl, rfl, rfl, rfl, rfl, rfl⟩
  | data => exact h.unmoved ⟨rfl, rfl, rfl, rfl, rfl, rfl, rfl⟩
  | rejected _ => exact h.unmoved ⟨rfl, rfl, rfl, rfl, rfl, rfl, rfl⟩
  | tree _ halloc =>
    exact hhouses.alters []
      (alters_treePushed [] _ false hhouses.pool ho halloc hduplicates.1 hduplicates.2).2 rfl
      (Pool.sound_of_alloc hhouses.pool halloc)
  | token halloc => exact hhouses.moves (moves_sent htidy ho halloc) rfl rfl
  | @named _ _ _ id forest halloc =>
    let t : Run := { r with forest, queue := r.queue ++ [id], log := r.log.append (.sent id) }
    have hsent : Housed m made t := hhouses.moves (moves_sent htidy ho halloc) rfl rfl
    exact hsent.unmoved ⟨rfl, rfl, rfl, rfl, rfl, rfl, rfl⟩
  | dropped => exact hhouses.moves (moves_dropped htidy) rfl rfl
  | edited => exact hduplicates.elim

/-- Whatever such a caller contributes, the run goes on to descend. -/
lemma Descended.contributes (h : Descended m base (lent log) r) (hbase : Owned [] base)
    (hduplicates : NoDuplicates log request) (hc : Contributes r request answer s) :
    Descended m base (lent ((request, answer) :: log)) s := by
  obtain ⟨loose, lane, hdescends⟩ := id h
  have htidy : Tidy False (r.inFront loose) := hdescends.tidy
  have ho : Orderly (r.bare loose) := hdescends.orderly hbase
  cases hc with
  | refused _ _ _ => exact h
  | noText => exact h
  | rejected _ => exact h.awaited _ _
  | attached hnone =>
    have hkept : r.ahead (lent log) = lent log := by
      rw [ahead, hnone]
      rfl
    rcases hduplicates with htreeless | hsame
    · exact ⟨loose, lane, hdescends.treeless rfl rfl rfl htreeless⟩
    · exact h.quiet rfl rfl (fun _ => rfl) (hsame.trans hkept.symm)
  | detached hs => exact h.quiet rfl rfl (fun _ => rfl) (ahead_eq hs).symm
  | @text stream text hs _ =>
    have hahead : (stream.pushText text).content = text.map .byte ++ r.ahead (lent log) := by
      rw [ahead_eq hs, Stream.content_pushText]
    refine ⟨loose, _, hdescends.alters .textPushed rfl rfl hdescends.pool ?_ ?_ ?_⟩
    · change (trees (stream.pushText text).content).Nodup
      rw [hahead, trees_bytes_append]
      exact hdescends.nodup
    · change ∀ id ∈ trees (stream.pushText text).content, id ∈ loose
      rw [hahead, trees_bytes_append]
      exact hdescends.loose
    · change Fits _ (stream.pushText text).content _
      rw [hahead]
      exact (hdescends.fits.write (by simp)).push _
  | @tree stream tree ignore id forest hs halloc =>
    have hahead : (stream.pushTree id ignore).content = .tree id ignore :: r.ahead (lent log) := by
      rw [ahead_eq hs, Stream.content_pushTree]
    obtain ⟨hout, halters⟩ := alters_treePushed lane
      { r.scanner with stream := some (stream.pushTree id ignore) } ignore hdescends.pool ho halloc
      hduplicates.1 hduplicates.2
    have hnew : id ∉ trees (r.ahead (lent log)) := fun hid => hout (hdescends.loose id hid)
    refine ⟨_, _, hdescends.alters halters rfl rfl (Pool.sound_of_alloc hdescends.pool halloc)
      ?_ ?_ ?_⟩
    · change (trees (stream.pushTree id ignore).content).Nodup
      rw [hahead]
      exact List.nodup_cons.2 ⟨hnew, hdescends.nodup⟩
    · change trees (stream.pushTree id ignore).content ⊆ id :: loose
      rw [hahead]
      exact List.cons_subset_cons id hdescends.loose
    · change Fits _ (stream.pushTree id ignore).content _
      rw [hahead]
      refine (hdescends.fits.write fun j hj => ?_).push [.tree id ignore]
      rintro ⟨⟩
      exact hnew hj
  | token halloc =>
    exact ⟨loose, lane, hdescends.moves (moves_sent htidy ho halloc) rfl rfl rfl⟩
  | @named _ _ _ id forest halloc =>
    let t : Run := { r with forest, queue := r.queue ++ [id], log := r.log.append (.sent id) }
    have hsent : Descends m base (lent log) loose lane t :=
      hdescends.moves (moves_sent htidy ho halloc) rfl rfl rfl
    exact ⟨loose, lane, hsent.moves (moves_bound hsent.tidy _ _) rfl rfl rfl⟩
  | bound => exact ⟨loose, lane, hdescends.moves (moves_bound htidy _ _) rfl rfl rfl⟩
  | data => exact ⟨loose, lane, hdescends.moves (moves_action htidy _) rfl rfl rfl⟩
  | dropped => exact ⟨loose, lane, hdescends.moves (moves_dropped htidy) rfl rfl rfl⟩
  | edited => exact hduplicates.elim

/-! ## Giving up the log -/

/-- The trees made that are still there once the log is given up. -/
def survivors (made : List NodeId) (r s : Run) : List NodeId :=
  (made ++ r.log.records.filterMap Record.tree?).filter fun id =>
    (Pool.get? s.forest id).isSome

/-- What is left when the log is given up is where it was. -/
structure Relieved (m : Machine) (made loose : List NodeId) (r s : Run) : Prop where
  same : s = { r with log := Journal.empty, forest := s.forest, barrier := 0, retries := 0 }
  pool : Pool.Sound s.forest
  owned : Owned [] (s.bare loose)
  ascended : Ascended m (survivors made r s) [] (s.bare loose)

lemma deaf_giveUpLog : Deaf giveUpLog :=
  .look (fun _ _ => rfl) fun _ => (Deaf.lookup _).bind fun _ => .modify fun _ _ => by rfl

lemma Houses.giveUpLog (h : Houses m made loose r) :
    ∃ s, Run.giveUpLog r = .ok () s ∧ Relieved m made loose r s := by
  obtain ⟨t, hgive, hsame, hpool, howned, hkept⟩ :=
    giveUpLog_ok (r := r.inFront loose) h.pool h.owned
  obtain ⟨forest, rfl⟩ : ∃ forest, t = { r.inFront loose with
      log := Journal.empty
      forest
      barrier := 0
      retries := 0 } := ⟨_, hsame⟩
  let s : Run := { r with log := Journal.empty, forest, barrier := 0, retries := 0 }
  have hunder := deaf_giveUpLog (r.inFront loose) r.scanner
  rw [hgive] at hunder
  change Owned [] (s.bare loose) at howned
  have hfewer : Fewer (r.bare loose).nodes (s.bare loose).nodes := by
    intro id n hn
    change (s.inFront loose).shown id = some n at hn
    change (r.inFront loose).shown id = some n
    have hwaiting : (s.inFront loose).waiting = (r.inFront loose).waiting := rfl
    by_cases hwaits : id ∈ (r.inFront loose).waiting
    · rw [shown_of_waiting (hwaiting ▸ hwaits)] at hn
      obtain ⟨n', hn', rfl⟩ := Option.map_eq_some_iff.1 hn
      rw [shown_of_waiting hwaits, hkept id n' hn', Option.map_some]
    · rw [shown_of_not_waiting (hwaiting ▸ hwaits)] at hn
      rw [shown_of_not_waiting hwaits, hkept id n hn]
  refine ⟨s, hunder, rfl, hpool, howned, ?_, fun tree htree => ?_⟩
  · exact h.ascended.rises.fewer hfewer howned.orderly rfl rfl
  · obtain ⟨stack, aside, dropped, -, -, -, hrooted⟩ := howned.roots
    rw [List.filterMap_nil, List.append_nil, survivors, List.mem_filter] at htree
    refine (h.ascended.grown tree htree.1).fewer hfewer hrooted ?_
    exact (isSome_shown (s.inFront loose) tree).trans htree.2

/-! ## Tended runs -/

/-- A run whose caller puts no node in two places, with the trees made of which its log does not
tell any more and with all replies, the latest first. -/
inductive Tended (m : Machine) (start : Run) : List NodeId → Dialogue → Run → Prop
  | start : Tended m start [] [] start
  | asked {made : List NodeId} {log : Dialogue} {r s : Run} {turns : Nat} {request : Request}
      {answer : Except Error Reply} :
    Tended m start made log r → NoDuplicates log request → request ≠ .giveUpLog →
    Replied (perform m turns request r) answer s → Tended m start made ((request, answer) :: log) s
  | gaveUp {made : List NodeId} {log : Dialogue} {r s : Run} {turns : Nat}
      {answer : Except Error Reply} :
    Tended m start made log r → Replied (perform m turns .giveUpLog r) answer s →
    Tended m start (survivors made r s) ((.giveUpLog, answer) :: log) s
  | set {made : List NodeId} {log : Dialogue} {r s : Run} :
    Tended m start made log r → Sets r s → Tended m start made log s

lemma Tended.replied {x : Result Reply} (h : Tended m start made log r)
    (hperform : perform m turns request r = x) (hreplied : Replied x answer s)
    (hduplicates : NoDuplicates log request) (hgive : request ≠ .giveUpLog) :
    Tended m start made ((request, answer) :: log) s :=
  .asked h hduplicates hgive (hperform ▸ hreplied)

/-- The nodes are where they should be, and unless the run is over, its log tells how they came
there from a base that was in order. -/
structure HousedByLog (m : Machine) (made : List NodeId) (kept : List Item) (r : Run) : Prop where
  housed : Housed m made r
  descended : r.aborted = false →
    ∃ base, Owned [] base ∧ Ascended m made [] base ∧ Descended m base kept r

namespace HousedByLog

lemma of_descended (h : Descended m base kept r) (hbase : Owned [] base)
    (hascended : Ascended m made [] base) : HousedByLog m made kept r :=
  ⟨h.housed hbase hascended, fun _ => ⟨base, hbase, hascended, h⟩⟩

lemma initial (blockLength blockLimit : Nat) (target : Option Nat) :
    HousedByLog m [] [] (initial m (Pool.empty blockLength blockLimit) target) := by
  let r := Run.initial m (Pool.empty blockLength blockLimit) target
  have hvacant (id : NodeId) : (r.inFront []).shown id = none :=
    shown_eq_none_iff.2 (by simp [r, Run.initial, inFront, Pool.get?, Pool.empty])
  have hbase : Owned [] (r.bare []) := ⟨[], [], [], .nil _, .nil _, .nil, .empty hvacant⟩
  have hascended : Ascended m [] [] (r.bare []) :=
    ⟨⟨[], .nil _, .stay _⟩, fun tree htree => by cases htree⟩
  exact .of_descended
    ⟨[], [], Pool.sound_empty .., .base, .nil, (fun id hid => by cases hid), .of_treeless rfl⟩
    hbase hascended

lemma sets (h : HousedByLog m made kept r) (hsets : Sets r s) : HousedByLog m made kept s := by
  refine hsets.keeps (fun target stopping events h => ?_) h
  refine ⟨h.housed.unmoved ⟨rfl, rfl, rfl, rfl, rfl, rfl, rfl⟩, fun halive => ?_⟩
  obtain ⟨base, hbase, hascended, hdescended⟩ := h.descended halive
  exact ⟨base, hbase, hascended, hdescended.quiet rfl rfl (fun _ => rfl) rfl⟩

/-- A parse, or taking something back. -/
lemma guarded {op : Op Status} (h : HousedByLog m made (lent log) r)
    (hop : ∀ base, Owned [] base → Descended m base (lent log) r → Carries m base (lent log) op r)
    (hguarded : Guarded op r answer s) :
    HousedByLog m made (lent ((request, answer) :: log)) s := by
  cases hguarded with
  | refused _ => exact h
  | answered halive hrun =>
    obtain ⟨base, hbase, hascended, hdescended⟩ := h.descended halive
    have hs := (hop base hbase hdescended).ok _ _ hrun
    exact .of_descended (hs.quiet rfl rfl (fun _ => rfl) rfl) hbase hascended
  | halted halive hrun hlasts =>
    obtain ⟨base, hbase, hascended, hdescended⟩ := h.descended halive
    exact .of_descended (((hop base hbase hdescended).error _ _ hrun).2 hlasts) hbase hascended
  | ended halive hrun _ =>
    obtain ⟨base, hbase, hascended, hdescended⟩ := h.descended halive
    obtain ⟨⟨kept, t, ht, hunmoved⟩, -⟩ := (hop base hbase hdescended).error _ _ hrun
    refine ⟨?_, nofun⟩
    exact ((ht.housed hbase hascended).unmoved hunmoved).unmoved ⟨rfl, rfl, rfl, rfl, rfl, rfl, rfl⟩

lemma asked (h : HousedByLog m made (lent log) r) (hduplicates : NoDuplicates log request)
    (hgive : request ≠ .giveUpLog) (hreplied : Replied (perform m turns request r) answer s) :
    HousedByLog m made (lent ((request, answer) :: log)) s := by
  cases hguarded : request.isGuarded with
  | true =>
    rcases Request.guarded_of_replied hguarded hreplied with ⟨entry, -, hg⟩ | ⟨target, -, hg⟩
    · exact h.guarded (fun base hbase hd => hd.resume hbase turns entry) hg
    · exact h.guarded (fun base hbase hd => hd.goBack hbase target) hg
  | false =>
    have hc := contributes_of_replied hguarded hgive hreplied
    refine ⟨h.housed.contributes hduplicates hc, fun halive => ?_⟩
    rw [aborted_unguarded hguarded hreplied] at halive
    obtain ⟨base, hbase, hascended, hdescended⟩ := h.descended halive
    exact ⟨base, hbase, hascended, hdescended.contributes hbase hduplicates hc⟩

lemma gaveUp (h : HousedByLog m made (lent log) r)
    (hreplied : Replied (perform m turns .giveUpLog r) answer s) :
    HousedByLog m (survivors made r s) (lent ((.giveUpLog, answer) :: log)) s := by
  have hgives {loose : List NodeId} (hhouses : Houses m made loose r) :
      answer = .ok .accepted ∧ Relieved m made loose r s := by
    obtain ⟨t, hgive, hrelieved⟩ := hhouses.giveUpLog
    have hperform : perform m turns .giveUpLog r = .ok .accepted t := bind_ok hgive _
    rw [hperform] at hreplied
    cases hreplied
    exact ⟨rfl, hrelieved⟩
  constructor
  · obtain ⟨loose, hhouses⟩ := h.housed
    obtain ⟨-, hsame, hpool, howned, hascended⟩ := hgives hhouses
    have hlog : s.log = Journal.empty := by rw [hsame]
    exact ⟨loose, hpool, hlog ▸ howned, hlog ▸ hascended⟩
  · intro halive
    obtain ⟨base, hbase, hascended, loose, lane, hdescends⟩ := h.descended (by
      obtain ⟨loose, hhouses⟩ := h.housed
      obtain ⟨-, hsame, -⟩ := hgives hhouses
      rw [hsame] at halive
      exact halive)
    obtain ⟨rfl, hsame, hpool, howned, hleft⟩ := hgives
      ⟨hdescends.pool, hdescends.owned hbase, hdescends.lineage.ascended hbase hascended⟩
    have hlog : s.log = Journal.empty := by rw [hsame]
    have hahead : s.ahead (lent log) = r.ahead (lent log) := by
      rw [hsame]
      rfl
    refine ⟨s.bare loose, howned, hleft, loose, [], hpool, hlog ▸ .base, ?_, ?_, ?_⟩
    · exact hahead.symm ▸ hdescends.nodup
    · exact hahead.symm ▸ hdescends.loose
    · exact ⟨[], _, [], rfl, rfl, by simp [hlog, Journal.empty]⟩

end HousedByLog

theorem Tended.housedByLog {blockLength blockLimit : Nat} {target : Option Nat}
    (h : Tended m (initial m (Pool.empty blockLength blockLimit) target) made log r) :
    HousedByLog m made (lent log) r := by
  induction h with
  | start => exact .initial blockLength blockLimit target
  | asked _ hduplicates hgive hreplied ih => exact ih.asked hduplicates hgive hreplied
  | gaveUp _ hreplied ih => exact ih.gaveUp hreplied
  | set _ hsets ih => exact ih.sets hsets

end Run

end Rewind
