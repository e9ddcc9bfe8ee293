import Rewind.Proofs.Chunking
import Rewind.Proofs.Failures
import Rewind.Proofs.Outline

/-!
# Tokens of one byte

When a token is never longer than a byte, what a region finds in front of a text depends on the
first byte alone.  A region that accepts nothing before it has seen a byte finds a tree in front of
a tree, and the end of the input where nothing is left.  So it never fails, and which lookahead a
state acquires is told by its regions and the first unit of the input (`found_eq`).
-/

namespace Rewind.Run

open Attempt Op

/-- Tokens are scanned in the region in some state. -/
def IsScanned (m : Machine) (region : RegionId) : Prop :=
  ∃ state < m.grammar.states, ∃ regions, m.grammar.regionsOf state = .ok regions ∧ region ∈ regions

/-- What a region finds in front of a byte. -/
def Alphabet.outcome (reads : Alphabet) (region : RegionId) (b : UInt8) : Scanner.Outcome :=
  match reads region b with
  | some element => .token element 1
  | none => .noToken

/-- In every region, whether a token begins, and which, depends on one byte alone, and nothing is
accepted before a byte has been seen. -/
structure Bytewise (m : Machine) (reads : Alphabet) : Prop where
  finds : ∀ region, IsScanned m region → ∀ b items,
    Scanner.finds m.scanner region (.byte b :: items) = some (reads.outcome region b)
  departs : ∀ region start, IsScanned m region → m.scanner.entries[region]? = some start →
    ∀ stream, ∃ scan, Scanner.Scan.executeList m.scanner (entry m.scanner.onDeparture start) 0
      { stream, state := start } = .ok none scan

variable {m : Machine} {reads : Alphabet} {region : RegionId} {regions : List RegionId} {b : UInt8}
  {items : List Item} {outcome : Scanner.Outcome} {r s : Run} {x : Failure Error}

/-- A scan that ends at its first step. -/
lemma run_of_step {scan scan' : Scanner.Scan}
    (h : Scanner.Scan.step m.scanner scan = .ok (some outcome) scan') :
    Scanner.Scan.run m.scanner scan = .ok outcome scan' := by
  rw [Scanner.Scan.run.eq_def]
  split
  · rename_i hstep
    cases h.symm.trans hstep
  · rename_i hstep
    cases h.symm.trans hstep
    rfl
  · rename_i hstep
    cases h.symm.trans hstep

/-- What is found at a front that is not a byte, before any byte was seen. -/
lemma finds_of_front (h : Bytewise m reads) (hregion : IsScanned m region)
    (hmeet : ∀ scan : Scanner.Scan, scan.offset = 0 →
      Scanner.Scan.meet m.scanner items.head? scan = .ok (some outcome) scan) :
    Scanner.finds m.scanner region items = some outcome := by
  -- The region has an entry, since it finds something in front of a byte.
  obtain ⟨start, hstart⟩ : ∃ start, m.scanner.entries[region]? = some start := by
    have hfinds := h.finds region hregion 0 []
    rw [Scanner.finds] at hfinds
    split at hfinds
    · cases hfinds
    · exact ⟨_, ‹_›⟩
  obtain ⟨scan, hdeparts⟩ := h.departs region start hregion hstart { buffered := items }
  obtain ⟨hstream, hoffset, -, -⟩ := Scanner.Scan.executeList_frame hdeparts
  have hpeek : scan.stream.peek scan.offset = .ok items.head? scan.stream := by
    rw [hstream, hoffset, Stream.peek]
    cases items <;> rfl
  have hstep : Scanner.Scan.step m.scanner { stream := { buffered := items }, state := start } =
      .ok (some outcome) scan := by
    unfold Scanner.Scan.step Scanner.Scan.Stage.andThen
    rw [show ({ ({ stream := { buffered := items }, state := start } : Scanner.Scan) with
      candidate := none } : Scanner.Scan) = { stream := { buffered := items }, state := start } from
      rfl]
    simp only [hdeparts, Scanner.Scan.look, hpeek]
    exact hmeet scan hoffset
  rw [Scanner.finds]
  simp only [hstart, run_of_step hstep]

lemma finds_tree (h : Bytewise m reads) (hregion : IsScanned m region) (id : NodeId)
    (ignore : Bool) :
    Scanner.finds m.scanner region (.tree id ignore :: items) = some (.tree id ignore) :=
  finds_of_front h hregion fun _ hoffset => if_pos hoffset

lemma finds_nil (h : Bytewise m reads) (hregion : IsScanned m region) :
    Scanner.finds m.scanner region [] = some .eof :=
  finds_of_front h hregion fun _ hoffset => if_pos hoffset

/-- A region in use finds something in front of whatever there is. -/
lemma finds_isSome (h : Bytewise m reads) (hregion : IsScanned m region) (items : List Item) :
    ∃ outcome, Scanner.finds m.scanner region items = some outcome := by
  cases items with
  | nil => exact ⟨_, finds_nil h hregion⟩
  | cons item items =>
    cases item with
    | byte b => exact ⟨_, h.finds region hregion b items⟩
    | tree id ignore => exact ⟨_, finds_tree h hregion id ignore⟩

/-- Scanning a region in use never fails. -/
lemma scan_ne_error (h : Bytewise m reads) (hregion : IsScanned m region) (hr : Reads r) :
    scan m region r ≠ .error x s := by
  obtain ⟨stream, hs, hreliable⟩ := hr
  obtain ⟨outcome, hfinds⟩ := finds_isSome h hregion stream.content
  rw [Scanner.finds] at hfinds
  unfold scan onScanner Scanner.run
  cases hstart : m.scanner.entries[region]? with
  | none =>
    rw [hstart] at hfinds
    cases hfinds
  | some start =>
    simp only [hstart] at hfinds
    rw [hs]
    cases hhand : Scanner.Scan.run m.scanner
        { stream := { buffered := stream.content }, state := start } with
    | error e u =>
      rw [hhand] at hfinds
      cases hfinds
    | ok found u =>
      have htrue := Scanner.Scan.truthful_start m.scanner { buffered := stream.content } start
      have hextends := (Scanner.Scan.valid_of_run htrue hhand).1
      have hsupplies : stream.flat.Supplies u.stream := by
        refine ⟨?_, Nat.zero_le _, fun _ => rfl⟩
        rw [hextends.content]
        rfl
      have hflat := Scanner.Scan.run_supplied htrue hhand hsupplies
      have hforeseen := Scanner.Scan.run_flat (t := m.scanner)
        (s := { stream, state := start }) hreliable
      rw [show Scanner.Scan.run m.scanner (Scanner.Scan.flat { stream, state := start }) = _ from
        hflat] at hforeseen
      cases hrun : Scanner.Scan.run m.scanner { stream, state := start } with
      | ok outcome v =>
        simp only [hrun]
        rintro ⟨⟩
      | error e v =>
        rw [hrun] at hforeseen
        cases hforeseen

/-- Acquiring fails only where the tables know no regions, or the pool has no slot left. -/
lemma acquire_error (h : Bytewise m reads) (hstate : r.state < m.grammar.states)
    (htidy : Tidy False r) (ho : Orderly r.view) (hr : Reads r)
    (hacquire : acquire m r = .error x s) :
    (∃ f, m.grammar.regionsOf r.state = .error f ∧ x = .fault f ∧ s = r) ∨ Refusal x := by
  rw [acquire, get_bind] at hacquire
  obtain hlook | ⟨regions, t, hlook, hregion⟩ := bind_eq_error.1 hacquire
  · exact .inl (lookup_eq_error hlook)
  obtain ⟨hregions, rfl⟩ := lookup_eq_ok.1 hlook
  refine .inr ?_
  have hlive (id : NodeId) (ignore : Bool) (hfront : t.content.head? = some (.tree id ignore)) :
      (Pool.get? t.forest id).isSome := by
    obtain ⟨items, hitems⟩ := List.head?_eq_some_iff.1 hfront
    rw [← isSome_shown]
    refine ho.live id (List.mem_append_right _ ?_)
    rw [show t.view.items = _ from hitems]
    exact List.mem_cons_self
  rcases acquireIn_error (detached_reads.scan m) hr htidy.pool htidy.attached hlive hregion with
    hrefused | ⟨region, hmem, u, w, hu, hfails⟩
  · exact hrefused
  · exact absurd hfails (scan_ne_error h ⟨_, hstate, regions, hregions, hmem⟩ hu)

end Rewind.Run
