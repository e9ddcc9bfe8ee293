import Rewind.Proofs.Bytewise
import Rewind.Proofs.Forks
import Rewind.Proofs.Refinement

/-!
# Runs that keep to the gist

Whatever a run does in a turn, its plot does in one move, and the same is seen of both.  The one
exception is a unit that is set aside and that the plot does not have: then the run has one item
less, and the plot stays where it is.
-/

namespace Rewind.Run

open Attempt Op

variable {m : Machine} {reads : Alphabet} {ground : Ground} {γ : Gist} {left : List Fork}
  {r s : Run} {region : RegionId} {regions : List RegionId} {element : ElementId}
  {text : Bytes} {stream rest : Stream}

/-! ## Acquiring -/

/-- The regions of a run whose first finding is this one. -/
lemma Finds.split {outcome : Scanner.Outcome} (h : Finds m r region outcome)
    (hregions : m.grammar.regionsOf r.state = .ok regions) :
    ∃ before after, regions = before ++ region :: after ∧
      ∀ other ∈ before, Scanner.finds m.scanner other r.content = some .noToken := by
  obtain ⟨-, -, before, after, hregions', hbefore⟩ := h
  exact ⟨before, after, Except.ok.inj (hregions.symm.trans hregions'), hbefore⟩

lemma Alphabet.outcome_eq_noToken {b : UInt8} (h : reads.outcome region b = .noToken) :
    reads region b = none := by
  rw [Alphabet.outcome] at h
  split at h
  · cases h
  · assumption

lemma Alphabet.outcome_eq_token {b : UInt8} {length : Nat}
    (h : reads.outcome region b = .token element length) :
    reads region b = some element ∧ length = 1 := by
  rw [Alphabet.outcome] at h
  split at h
  · cases h
    exact ⟨‹_›, rfl⟩
  · cases h

/-- The state of a run is one of the tables. -/
lemma Rests.known (h : Rests m reads ground r γ left) : r.state < m.grammar.states := by
  rw [show r.state = γ.state from h.outlines.state]
  exact h.outlines.known.state

/-- While something is left of the input, the action at its end has not run. -/
lemma Rests.marked_eq (h : Rests m reads ground r γ left) (hne : r.content ≠ []) :
    marked r = r := by
  rw [marked, if_neg]
  exact fun hran => hne (h.outlines.exhausted hran)

section Acquire

variable (h : Rests m reads ground r γ left)
include h

lemma inUse_of_mem (hregions : m.grammar.regionsOf r.state = .ok regions)
    (hmem : region ∈ regions) : IsScanned m region :=
  ⟨r.state, h.known, regions, hregions, hmem⟩

/-- Something other than a byte is found in the first region. -/
lemma found_first {outcome : Scanner.Outcome}
    (hregions : m.grammar.regionsOf r.state = .ok regions) (hfinds : Finds m r region outcome)
    (hall : ∀ other, IsScanned m other → Scanner.finds m.scanner other r.content = some outcome) :
    ∃ others, regions = region :: others := by
  obtain ⟨before, after, rfl, hbefore⟩ := hfinds.split hregions
  cases before with
  | nil => exact ⟨after, rfl⟩
  | cons other before =>
    have hnone := hbefore other List.mem_cons_self
    rw [hall other (inUse_of_mem h hregions List.mem_cons_self)] at hnone
    exact absurd (Option.some.inj hnone) hfinds.1

variable (hm : Bytewise m reads)
include hm

/-- A token that is found is the first byte, in the first region that takes it for a token. -/
lemma found_token (hregions : m.grammar.regionsOf r.state = .ok regions)
    (hfinds : Finds m r region (.token element text.length))
    (hs : r.scanner.stream = some stream) (htakes : Takes stream rest text) :
    marked r = r ∧ ∃ b, text = [b] ∧ r.content = .byte b :: rest.content ∧
      regions ≠ [] ∧ regions.findSome? (reads · b) = some element := by
  obtain ⟨before, after, rfl, hbefore⟩ := hfinds.split hregions
  have hfound := hfinds.2.1
  have huse (other : RegionId) (hother : other ∈ before ++ region :: after) : IsScanned m other :=
    inUse_of_mem h hregions hother
  have hregion := huse region (List.mem_append_right _ List.mem_cons_self)
  have htaken : r.content = text.map .byte ++ rest.content :=
    (content_eq hs).1.trans htakes.content
  cases hcontent : r.content with
  | nil =>
    rw [hcontent, finds_nil hm hregion] at hfound
    cases hfound
  | cons item items =>
    cases item with
    | tree id ignore =>
      rw [hcontent, finds_tree hm hregion] at hfound
      cases hfound
    | byte b =>
      rw [hcontent, hm.finds region hregion] at hfound
      obtain ⟨helement, hlength⟩ := Alphabet.outcome_eq_token (Option.some.inj hfound)
      obtain ⟨b', rfl⟩ := List.length_eq_one_iff.1 hlength
      rw [hcontent] at htaken
      obtain ⟨hb, hitems⟩ := List.cons.inj htaken
      obtain rfl := Item.byte.inj hb
      refine ⟨h.marked_eq (hcontent ▸ List.cons_ne_nil _ _), b, rfl, congrArg (_ :: ·) hitems,
        by simp, ?_⟩
      have hnone : before.findSome? (reads · b) = none := by
        refine List.findSome?_eq_none_iff.2 fun other hother => ?_
        have hother' := hbefore other hother
        rw [hcontent, hm.finds other (huse other (List.mem_append_left _ hother))] at hother'
        exact Alphabet.outcome_eq_noToken (Option.some.inj hother')
      rw [List.findSome?_append, hnone, Option.none_or, List.findSome?_cons_of_isSome]
      · exact helement
      · rw [helement]
        rfl

/-- Nothing is found where there are no regions, or where none of them takes the first byte for a
token. -/
lemma found_nothing (hregions : m.grammar.regionsOf r.state = .ok regions)
    (hnone : ∀ region ∈ regions, Scanner.finds m.scanner region r.content = some .noToken) :
    γ.acquire m reads regions = none := by
  cases regions with
  | nil => rfl
  | cons region others =>
    have hregion := inUse_of_mem h hregions List.mem_cons_self
    have hfirst := hnone region List.mem_cons_self
    have hinput := h.outlines.input
    rw [show r.view.items = r.content from rfl] at hinput
    cases hcontent : r.content with
    | nil =>
      rw [hcontent, finds_nil hm hregion] at hfirst
      cases hfirst
    | cons item items =>
      cases item with
      | tree id ignore =>
        rw [hcontent, finds_tree hm hregion] at hfirst
        cases hfirst
      | byte b =>
        have hall : (region :: others).findSome? (reads · b) = none := by
          refine List.findSome?_eq_none_iff.2 fun other hother => ?_
          have hother' := hnone other hother
          rw [hcontent, hm.finds other (inUse_of_mem h hregions hother)] at hother'
          exact Alphabet.outcome_eq_noToken (Option.some.inj hother')
        rw [hcontent] at hinput
        generalize hγ : γ.input = input at hinput
        cases hinput with
        | byte b _ =>
          rw [Gist.acquire, hγ]
          simp only [hall, Option.map_none]
        | ignoredByte hignorable _ =>
          obtain ⟨element, helement, -⟩ :=
            hignorable r.state h.known _ hregions (List.cons_ne_nil _ _)
          rw [hall] at helement
          cases helement

end Acquire

/-! What becomes of a run when something is taken from its input. -/

/-- A single change was written down by a move. -/
lemma Moves.writes {strict : Prop} {Noted : List Record → View → Prop} {record : Record}
    (h : Moves m strict Noted r s) (hlog : s.log = r.log.append record) :
    Writes m strict record r s.view s := by
  have hpath := h.path
  rw [hlog] at hpath
  exact ⟨hpath.of_single, rfl, hlog, h.tidy, h.unread, h.aborted⟩

section Take

variable {scanner : Scanner} {id : NodeId} {forest : Forest} {input : List Morsel}
  (h : Rests m reads ground r γ left) (hqueue : r.queue = [])
  (hs : r.scanner.stream = some stream) (hs' : scanner.stream = some rest)
include h hqueue hs hs'

section Text

variable (htakes : Takes stream rest text)
  (hinput : Sifted m reads (elementAt r.view.nodes) rest.content input)
  (hran : r.endActionRan = false)
include htakes hinput hran

lemma rests_consumed
    (hnames : m.scanner.Names element ∧ text ≠ [] ∧ m.grammar.generates element = true)
    (point : Point) :
    Rests m reads ground { r with scanner, point, log := r.log.append (.consumed text r.position) }
      { γ with input } left :=
  h.write (writes_consumed h.tidy hs hs' htakes hqueue hnames point) rfl
    (h.outlines.read hinput (fun hran' => absurd (hran.symm.trans hran') Bool.false_ne_true) _)
    rfl rfl rfl rfl

lemma rests_setAside (hnames : m.scanner.Names element ∧ text ≠ [])
    (halloc : Pool.alloc r.forest (.token element text ⟨r.position, text.length⟩) =
      (.ok id, forest)) (events : List Event) :
    Rests m reads ground { r with
      scanner, events
      forest := forest.put id
        { Node.token element text ⟨r.position, text.length⟩ with next := r.aside }
      aside := some id
      log := r.log.append (.setAside id r.position) } { γ with input } left := by
  have hvacant : r.view.nodes id = none :=
    shown_eq_none_iff.2 (Pool.get?_of_alloc h.tidy.pool halloc).1
  refine h.write (writes_setAside h.tidy h.orderly hs hs' htakes hqueue hnames halloc events) rfl ?_
    rfl rfl rfl rfl
  exact ((h.outlines.read hinput (fun hran' => absurd (hran.symm.trans hran') Bool.false_ne_true)
    _).store hvacant _).aside _

end Text

lemma rests_scanned (htakes : Takes stream rest text) (hscans : Scans m r.content element text)
    (hinput : Sifted m reads (elementAt r.view.nodes) rest.content input)
    (hran : r.endActionRan = true → rest.content = [])
    (halloc : Pool.alloc r.forest (.token element text ⟨r.position, text.length⟩) =
      (.ok id, forest)) (events : List Event) :
    Rests m reads ground { r with
      scanner, forest, events
      queue := r.queue ++ [id]
      log := r.log.append (.scanned id r.position) } { γ with queue := [element], input } left := by
  have hvacant : r.view.nodes id = none :=
    shown_eq_none_iff.2 (Pool.get?_of_alloc h.tidy.pool halloc).1
  refine h.write (writes_scanned h.tidy h.orderly hs hs' htakes hqueue hscans halloc events) rfl ?_
    rfl rfl rfl rfl
  exact ((h.outlines.read hinput hran _).store hvacant _).queued (elementAt_update_self _ _ _)

variable {ignore : Bool} (hcontent : stream.content = .tree id ignore :: rest.content)
  (hposition : rest.position = stream.position) (hunread : rest.unread = stream.unread)
  (hinput : Sifted m reads (elementAt r.view.nodes) rest.content input)
include hcontent hposition hunread hinput

lemma rests_treeQueued (hignore : ignore = false)
    (hid : elementAt r.view.nodes id = some element) (events : List Event) :
    Rests m reads ground { r with
      scanner, events
      queue := r.queue ++ [id]
      log := r.log.append (.treeTaken id false) } { γ with queue := [element], input } left := by
  subst hignore
  have hmoves : Moves m False (fun _ _ => True) r _ :=
    moves_treeQueued h.tidy hs hs' hcontent hposition hunread hqueue events
  have hwrites : Writes m False (.treeTaken id false) r _ _ := hmoves.writes rfl
  refine h.write hwrites rfl (h.outlines.treeQueued ?_ hwrites.change hid) rfl rfl rfl rfl
  show Sifted m reads _ ({ r with scanner } : Run).content input
  rw [(content_eq (r := { r with scanner }) hs').1]
  exact hinput

lemma rests_treeSetAside {n : Node} (hignore : ignore = true)
    (hn : Pool.get? r.forest id = some n) (events : List Event) :
    Rests m reads ground { r with
      scanner, events
      forest := r.forest.put id { n with next := r.aside }
      aside := some id
      log := r.log.append (.treeTaken id true) } { γ with input } left := by
  subst hignore
  have hmoves : Moves m False (fun _ _ => True) r _ :=
    moves_treeSetAside h.tidy h.orderly hs hs' hcontent hposition hunread hqueue hn events
  have hwrites : Writes m False (.treeTaken id true) r _ _ := hmoves.writes rfl
  refine h.write hwrites rfl (h.outlines.treeSetAside ?_ h.orderly hwrites.change) rfl rfl rfl rfl
  show Sifted m reads _ ({ r with scanner } : Run).content input
  rw [(content_eq (r := { r with scanner }) hs').1]
  exact hinput

end Take

/-! What a run acquires, its plot does. -/

/-- The status that acquiring comes to, without nodes and places. -/
def Acquired.kind : Acquired → Option Status
  | .suspended status => some status.kind
  | _ => none

/-- What acquiring comes to in regions, for a run and for its gist. -/
inductive Obtains (m : Machine) (reads : Alphabet) (ground : Ground) (γ : Gist) (left : List Fork)
    (regions : List RegionId) (r : Run) : Acquired → Run → Prop
  /-- A unit was set aside that the gist does not have. -/
  | ignored {s : Run} : Rests m reads ground s γ left → s.content.length < r.content.length →
    Obtains m reads ground γ left regions r .skipped s
  | taken {found : Acquired} {s : Run} {g : Gist} : (∀ region, found ≠ .noToken region) →
    γ.acquire m reads regions = some (g, found.kind) → Rests m reads ground s g left →
    Obtains m reads ground γ left regions r found s
  | nothing : γ.acquire m reads regions = none →
    Obtains m reads ground γ left regions r (.noToken (regions.headD 0)) r

lemma seen_marked (r : Run) : seen (marked r) = seen r ∧ (marked r).retry = r.retry := by
  unfold marked
  split <;> exact ⟨rfl, rfl⟩

/-- Nothing is seen of acquiring. -/
lemma seen_acquires {found : Acquired} (h : Acquires m r found s) :
    seen s = seen r ∧ s.retry = r.retry := by
  cases h with
  | consumed _ _ _ _ _ => exact seen_marked r
  | skipped _ _ _ _ _ _ _ => exact seen_marked r
  | queued _ _ _ _ _ _ _ => exact seen_marked r
  | treeSkipped _ _ _ _ _ _ => exact seen_marked r
  | treeQueued _ _ _ _ _ _ => exact seen_marked r
  | preEof _ _ _ _ => exact ⟨rfl, rfl⟩
  | ended _ _ _ _ => exact ⟨rfl, rfl⟩
  | noToken _ _ => exact ⟨rfl, rfl⟩

lemma obtains_acquires {found : Acquired} (hm : Bytewise m reads)
    (h : Rests m reads ground r γ left) (hqueue : r.queue = [])
    (hregions : m.grammar.regionsOf r.state = .ok regions) (hacquires : Acquires m r found s) :
    Obtains m reads ground γ left regions r found s := by
  have hinput : Sifted m reads (elementAt r.view.nodes) r.content γ.input := h.outlines.input
  have hran (hne : r.content ≠ []) : r.endActionRan = false :=
    Bool.eq_false_iff.2 fun hran => hne (h.outlines.exhausted hran)
  have hend : r.endActionRan = γ.endActionRan := h.outlines.endActionRan
  generalize hunits : γ.input = units at hinput
  cases hacquires with
  | @consumed region element text stream rest hfinds hgenerates hnames hs htakes =>
    obtain ⟨hmarked, b, rfl, hcontent, hne, hfirst⟩ :=
      found_token h hm hregions hfinds hs htakes
    rw [hcontent] at hinput
    rw [hmarked]
    have hran := hran (hcontent ▸ List.cons_ne_nil _ _)
    cases hinput with
    | byte b hinput =>
      refine .taken nofun ?_ (rests_consumed h hqueue hs rfl htakes hinput hran
        ⟨hnames.1, hnames.2, hgenerates⟩ _)
      rw [Gist.acquire_byte hne hunits hfirst, if_pos hgenerates]
      rfl
    | ignoredByte hignorable hinput =>
      obtain ⟨element', helement', -, hgenerates'⟩ :=
        hignorable r.state h.known regions hregions hne
      obtain rfl := Option.some.inj (helement'.symm.trans hfirst)
      cases hgenerates.symm.trans hgenerates'
  | @skipped region element text stream rest id forest hfinds hgenerates hignores hnames hs htakes
      halloc =>
    obtain ⟨hmarked, b, rfl, hcontent, hne, hfirst⟩ :=
      found_token h hm hregions hfinds hs htakes
    rw [hcontent] at hinput
    rw [hmarked] at halloc ⊢
    have hran := hran (hcontent ▸ List.cons_ne_nil _ _)
    cases hinput with
    | byte b hinput =>
      refine .taken nofun ?_ (rests_setAside h hqueue hs rfl htakes hinput hran hnames halloc _)
      rw [Gist.acquire_byte hne hunits hfirst, hgenerates, hignores]
      rfl
    | ignoredByte hignorable hinput =>
      obtain rfl := hunits
      refine .ignored (rests_setAside h hqueue hs rfl htakes hinput hran hnames halloc _) ?_
      rw [hcontent]
      exact Nat.lt_succ_self _
  | @queued region element text stream rest id forest hfinds hgenerates hignores hnames hs htakes
      halloc =>
    obtain ⟨hmarked, b, rfl, hcontent, hne, hfirst⟩ :=
      found_token h hm hregions hfinds hs htakes
    rw [hcontent] at hinput
    rw [hmarked] at halloc ⊢
    have hran := hran (hcontent ▸ List.cons_ne_nil _ _)
    cases hinput with
    | byte b hinput =>
      refine .taken nofun ?_ (rests_scanned h hqueue hs rfl htakes (.inl hnames) hinput
        (fun hran' => absurd (hran.symm.trans hran') Bool.false_ne_true) halloc _)
      rw [Gist.acquire_byte hne hunits hfirst, hgenerates, hignores]
      rfl
    | ignoredByte hignorable hinput =>
      obtain ⟨element', helement', hignores', -⟩ :=
        hignorable r.state h.known regions hregions hne
      obtain rfl := Option.some.inj (helement'.symm.trans hfirst)
      cases hignores'.symm.trans hignores
  | @treeSkipped region id n stream rest hfinds hs hcontent hposition hunread hn =>
    have hitems : r.content = .tree id true :: rest.content := (content_eq hs).1.trans hcontent
    have hmarked := h.marked_eq (hitems ▸ List.cons_ne_nil _ _)
    rw [hitems] at hinput
    rw [hmarked] at hn ⊢
    cases hinput with
    | ignoredTree hinput =>
      obtain rfl := hunits
      refine .ignored (rests_treeSetAside h hqueue hs rfl hcontent hposition hunread hinput rfl hn
        _) ?_
      rw [hitems]
      exact Nat.lt_succ_self _
  | @treeQueued region id n stream rest hfinds hs hcontent hposition hunread hn =>
    have hitems : r.content = .tree id false :: rest.content := (content_eq hs).1.trans hcontent
    have hmarked := h.marked_eq (hitems ▸ List.cons_ne_nil _ _)
    rw [hitems] at hinput
    rw [hmarked] at hn ⊢
    cases hinput with
    | leaf helement hinput =>
      refine .taken nofun ?_ (rests_treeQueued h hqueue hs rfl hcontent hposition hunread hinput rfl
        helement _)
      obtain ⟨before, after, rfl, -⟩ := hfinds.split hregions
      exact Gist.acquire_leaf (by simp) hunits
  | @preEof region hfinds hcontent hacts hran =>
    obtain ⟨others, rfl⟩ := found_first h hregions hfinds fun other huse => by
      rw [hcontent]
      exact finds_nil hm huse
    rw [hcontent] at hinput
    cases hinput
    refine .taken nofun (g := { γ with endActionRan := true }) ?_ ?_
    · rw [Gist.acquire_nil hunits, if_pos ⟨hacts, hend ▸ hran⟩]
      rfl
    · exact h.write (writes_endActionMarked h.tidy true hran .preEof) rfl
        (h.outlines.marked hcontent) rfl rfl rfl rfl
  | @ended region id forest hfinds hcontent hdue halloc =>
    obtain ⟨others, rfl⟩ := found_first h hregions hfinds fun other huse => by
      rw [hcontent]
      exact finds_nil hm huse
    obtain ⟨stream, hs⟩ := h.tidy.stream
    have hnothing : stream.content = [] := (content_eq hs).1 ▸ hcontent
    rw [hcontent] at hinput
    have hrests := rests_scanned h hqueue hs hs (takes_nothing stream) (.inr ⟨rfl, rfl, hcontent⟩)
      (hnothing.symm ▸ hinput) (fun _ => hnothing) halloc
      (.token region m.grammar.eof [] :: r.events)
    cases hinput
    refine .taken nofun (g := { γ with queue := [m.grammar.eof] }) ?_ ?_
    · rw [Gist.acquire_nil hunits, if_neg (hend ▸ hdue)]
      rfl
    · rw [← hunits] at hrests
      exact hrests
  | @noToken regions' hregions' hnone =>
    obtain rfl := Except.ok.inj (hregions'.symm.trans hregions)
    exact .nothing (found_nothing h hm hregions hnone)

end Rewind.Run
