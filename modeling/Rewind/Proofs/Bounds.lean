import Rewind.Proofs.Ranges
import Rewind.Proofs.Scan
import Rewind.Scanner.Validation

/-!
# Scans within their tables

A scan that begins in a state that exists stays in such states, and never looks anything up beyond
one of its tables.  What is left to go wrong is not the fault of the tables' sizes: a token may be
asked to end at a mark that was not set, and the source of the stream may fail.
-/

namespace Rewind.Scanner

namespace Tables

variable {t : Tables} {state offset : Nat}

/-! ## What validation finds out -/

/-- The list at an offset can be looked up, and names actions only. -/
def ListFits (t : Tables) (offset : Nat) : Prop :=
  ∃ indices, t.listAt offset = .ok indices ∧ ∀ index ∈ indices, index < t.actions.size

/-- The keys of a state, and as many transitions as they and the one behind them need. -/
structure StateFits (t : Tables) (state : StateId) : Prop where
  keys : ∀ offset singles ranges : Nat, t.keyOffsets[state]? = some offset →
    t.singles[state]? = some singles → t.ranges[state]? = some ranges →
    offset + singles + ranges * 2 ≤ t.keys.size
  transitions : ∀ base singles ranges : Nat, t.transitions[state]? = some base →
    t.singles[state]? = some singles → t.ranges[state]? = some ranges →
    base + singles + ranges < t.targets.size

/-- A mark that an action names exists. -/
def ActionFits : Action → Prop
  | .mark slot => slot < markSlots
  | .acceptAtMark slot _ => slot < markSlots
  | .candidate _ => True
  | .accept _ => True

/-- No number in the tables leads beyond one of them. -/
structure Fits (t : Tables) : Prop where
  keyOffsets : t.states ≤ t.keyOffsets.size
  singles : t.states ≤ t.singles.size
  ranges : t.states ≤ t.ranges.size
  transitions : t.states ≤ t.transitions.size
  arrivals : t.states ≤ t.onArrival.size
  departures : t.states ≤ t.onDeparture.size
  ends : t.states ≤ t.onEnd.size
  passages : t.targets.size ≤ t.onTransition.size
  entry : ∀ (region : RegionId) (state : StateId), t.entries[region]? = some state →
    state < t.states
  state : ∀ state < t.states, t.StateFits state
  target : ∀ (transition : Nat) (target : StateId), t.targets[transition]? = some target →
    target < t.states
  onTransition : ∀ transition offset : Nat, t.onTransition[transition]? = some offset →
    t.ListFits offset
  onArrival : ∀ state offset : Nat, t.onArrival[state]? = some offset → t.ListFits offset
  onDeparture : ∀ state offset : Nat, t.onDeparture[state]? = some offset → t.ListFits offset
  onEnd : ∀ state offset : Nat, t.onEnd[state]? = some offset → t.ListFits offset
  action : ∀ (index : Nat) (action : Action), t.actions[index]? = some action → ActionFits action

lemma listFits_of_check {part : Part} {index : Nat}
    (h : t.checkList part index offset = .ok ()) : t.ListFits offset := by
  rw [checkList] at h
  by_cases hzero : offset = 0
  · subst hzero
    exact ⟨[], rfl, nofun⟩
  · rw [if_neg hzero] at h
    simp only [Except.bind_eq_ok] at h
    obtain ⟨⟨⟩, hoffset, ⟨⟩, hlength, hindices⟩ := h
    obtain ⟨length, hlist, hentry⟩ := exists_entry (Check.range_eq_ok.1 hoffset)
    have hget : t.lists.getD offset 0 = length := by
      simp [Array.getD_eq_getD_getElem?, hlist]
    rw [hget] at hlength hindices
    have hsize := Check.length_eq_ok.1 hlength
    have hlook : t.listAt offset =
        .ok (t.lists.extract (offset + 1) (offset + 1 + length)).toList := by
      rw [listAt, if_neg hzero, hentry]
      change (do return (← stretch t.lists (offset + 1) length).toList) = _
      rw [stretch, if_pos hsize]
      rfl
    refine ⟨_, hlook, fun action haction => ?_⟩
    obtain ⟨i, hi⟩ := List.getElem?_of_mem haction
    rw [Array.getElem?_toList, Array.getElem?_extract] at hi
    by_cases hlt : i < min (offset + 1 + length) t.lists.size - (offset + 1)
    · rw [if_pos hlt] at hi
      have hcheck := Check.range_eq_ok.1 (Check.below_eq_ok.1 hindices i (by omega))
      simpa [Array.getD_eq_getD_getElem?, hi] using hcheck
    · rw [if_neg hlt] at hi
      cases hi

lemma stateFits_of_check (h : t.checkState state = .ok ()) : t.StateFits state := by
  simp only [checkState, Except.bind_eq_ok] at h
  obtain ⟨⟨⟩, hkeys, htargets⟩ := h
  constructor
  · intro offset singles ranges hoffset hsingles hranges
    simpa [Array.getD_eq_getD_getElem?, hoffset, hsingles, hranges] using
      Check.length_eq_ok.1 hkeys
  · intro base singles ranges hbase hsingles hranges
    have htargets := Check.length_eq_ok.1 htargets
    simp only [Array.getD_eq_getD_getElem?, hbase, hsingles, hranges, Option.getD_some] at htargets
    exact htargets

lemma actionFits_of_check {index : Nat} {action : Action}
    (h : checkAction index action = .ok ()) : ActionFits action := by
  cases action with
  | candidate token => trivial
  | accept token => trivial
  | mark slot => exact Check.range_eq_ok.1 h
  | acceptAtMark slot token => exact Check.range_eq_ok.1 h

theorem fits_of_validate (h : t.validate = .ok ()) : t.Fits := by
  simp only [validate, Except.bind_eq_ok] at h
  obtain ⟨⟨⟩, hkeyOffsets, ⟨⟩, hsingles, ⟨⟩, hranges, ⟨⟩, htransitions, ⟨⟩, harrivals, ⟨⟩,
    hdepartures, ⟨⟩, hends, ⟨⟩, hpassages, ⟨⟩, -, ⟨⟩, -, ⟨⟩, -, ⟨⟩, hentries, ⟨⟩, hstates, ⟨⟩,
    htargets, ⟨⟩, hpassing, ⟨⟩, harriving, ⟨⟩, hdeparting, ⟨⟩, hending, hactions⟩ := h
  exact {
    keyOffsets := Check.length_eq_ok.1 hkeyOffsets
    singles := Check.length_eq_ok.1 hsingles
    ranges := Check.length_eq_ok.1 hranges
    transitions := Check.length_eq_ok.1 htransitions
    arrivals := Check.length_eq_ok.1 harrivals
    departures := Check.length_eq_ok.1 hdepartures
    ends := Check.length_eq_ok.1 hends
    passages := Check.length_eq_ok.1 hpassages
    entry := fun region state hentry =>
      Check.range_eq_ok.1 (Check.each_eq_ok.1 hentries region _ hentry)
    state := fun state hstate => stateFits_of_check (Check.below_eq_ok.1 hstates state hstate)
    target := fun transition target htarget =>
      Check.range_eq_ok.1 (Check.each_eq_ok.1 htargets transition _ htarget)
    onTransition := fun i _ hlist => listFits_of_check (Check.each_eq_ok.1 hpassing i _ hlist)
    onArrival := fun i _ hlist => listFits_of_check (Check.each_eq_ok.1 harriving i _ hlist)
    onDeparture := fun i _ hlist => listFits_of_check (Check.each_eq_ok.1 hdeparting i _ hlist)
    onEnd := fun i _ hlist => listFits_of_check (Check.each_eq_ok.1 hending i _ hlist)
    action := fun i _ haction => actionFits_of_check (Check.each_eq_ok.1 hactions i _ haction) }

/-! ## Transitions -/

lemma stretch_eq_ok {α : Type} {table : Array α} {start count : Nat}
    (h : start + count ≤ table.size) : ∃ part, stretch table start count = .ok part ∧
      part.size = count :=
  ⟨_, if_pos h, by simp; omega⟩

lemma lt_of_indexOf? {keys : Array UInt8} {key : UInt8} {i : Nat}
    (h : indexOf? keys key = some i) : i < keys.size := by
  unfold indexOf? at h
  dsimp only at h
  split at h
  · rename_i hget
    cases h
    exact (Array.getElem?_eq_some_iff.1 hget).1
  · cases h

lemma rangeOf_le (ends : Array UInt8) (ranges : Nat) (key : UInt8) :
    rangeOf ends ranges key ≤ ranges := by
  unfold rangeOf
  dsimp only
  split
  · rename_i h
    exact Nat.le_of_lt h.1
  · exact Nat.le_refl _

/-- A state that exists has a transition on every byte. -/
lemma Fits.transition (h : t.Fits) (hstate : state < t.states) (key : UInt8) :
    ∃ transition, t.transition state key = .ok transition ∧ transition < t.targets.size := by
  obtain ⟨offset, hoffset, hentryOffset⟩ := exists_entry (Nat.lt_of_lt_of_le hstate h.keyOffsets)
  obtain ⟨singles, hsingles, hentrySingles⟩ := exists_entry (Nat.lt_of_lt_of_le hstate h.singles)
  obtain ⟨ranges, hranges, hentryRanges⟩ := exists_entry (Nat.lt_of_lt_of_le hstate h.ranges)
  obtain ⟨base, hbase, hentryBase⟩ := exists_entry (Nat.lt_of_lt_of_le hstate h.transitions)
  obtain ⟨hkeys, htransitions⟩ := h.state state hstate
  have hkeys := hkeys offset singles ranges hoffset hsingles hranges
  have htransitions := htransitions base singles ranges hbase hsingles hranges
  obtain ⟨keys, hstretch, hsize⟩ :=
    @stretch_eq_ok _ t.keys offset singles (by omega)
  obtain ⟨ends, hends, -⟩ :=
    @stretch_eq_ok _ t.keys (offset + singles) (ranges * 2) (by omega)
  cases hindex : indexOf? keys key with
  | some i =>
    have hi := lt_of_indexOf? hindex
    refine ⟨base + i, ?_, by omega⟩
    rw [Tables.transition, hentryOffset, hentrySingles, hentryRanges, hentryBase]
    simp only [Except.ok_bind, hstretch, hindex]
    rfl
  | none =>
    have hrange := rangeOf_le ends ranges key
    refine ⟨base + singles + rangeOf ends ranges key, ?_, by omega⟩
    rw [Tables.transition, hentryOffset, hentrySingles, hentryRanges, hentryBase]
    simp only [Except.ok_bind, hstretch, hindex, hends]
    rfl

end Tables

namespace Scan

/-! ## Stages -/

/-- What can go wrong with a scan in tables that fit together. -/
inductive Excused : Failure Error → Prop
  | unsetMark (slot : Nat) : Excused (.error (.unsetMark slot))
  | unreadable (message : String) : Excused (.error (.unreadable message))

/-- The stage leaves the scan in a state that exists, and has an excuse if it fails. -/
def Contained (t : Tables) (stage : Stage) (s : Scan) : Prop :=
  (∀ r u, stage s = .ok r u → u.state < t.states) ∧
    ∀ x u, stage s = .error x u → Excused x ∧ u.state < t.states

namespace Contained

variable {t : Tables} {s : Scan}

lemma andThen {first second : Stage} (hfirst : Contained t first s)
    (hsecond : ∀ u, first s = .ok none u → u.state < t.states → Contained t second u) :
    Contained t (first.andThen second) s := by
  obtain ⟨hok, herror⟩ := hfirst
  unfold Contained Stage.andThen
  cases hrun : first s with
  | ok r u =>
    cases r with
    | none => exact hsecond u hrun (hok none u hrun)
    | some outcome =>
      refine ⟨fun r u h => ?_, nofun⟩
      cases h
      exact hok (some outcome) u hrun
  | error x u =>
    refine ⟨nofun, fun y v h => ?_⟩
    cases h
    exact herror x u hrun

lemma of_ok {stage : Stage} {r : Option Outcome} {u : Scan} (h : stage s = .ok r u)
    (hstate : u.state < t.states) : Contained t stage s := by
  unfold Contained
  rw [h]
  refine ⟨fun r v hv => ?_, nofun⟩
  cases hv
  exact hstate

lemma of_error {stage : Stage} {x : Failure Error} {u : Scan} (h : stage s = .error x u)
    (hexcused : Excused x) (hstate : u.state < t.states) : Contained t stage s := by
  unfold Contained
  rw [h]
  refine ⟨nofun, fun y v hv => ?_⟩
  cases hv
  exact ⟨hexcused, hstate⟩

lemma perform {ending : Nat} {action : Action} (haction : Tables.ActionFits action)
    (hstate : s.state < t.states) : Contained t (Scan.perform ending action) s := by
  cases action with
  | candidate token => exact of_ok rfl hstate
  | accept token => exact of_ok rfl hstate
  | mark slot =>
    have hslot : slot < markSlots := haction
    exact of_ok (dif_pos hslot) hstate
  | acceptAtMark slot token =>
    have hslot : slot < markSlots := haction
    cases hmark : s.marks[slot] with
    | some marked =>
      refine of_ok (r := some (.accept token marked)) (u := s) ?_ hstate
      simp [Scan.perform, hslot, hmark]
    | none =>
      refine of_error (u := s) ?_ (.unsetMark slot) hstate
      simp [Scan.perform, hslot, hmark]

/-- The actions of a list in the tables. -/
lemma execute (h : t.Fits) {ending : Nat} {indices : List Nat}
    (hindices : ∀ index ∈ indices, index < t.actions.size) (hstate : s.state < t.states) :
    Contained t (Scan.execute t ending indices) s := by
  induction indices generalizing s with
  | nil => exact of_ok rfl hstate
  | cons index rest ih =>
    obtain ⟨action, haction, hentry⟩ := exists_entry (hindices index List.mem_cons_self)
    have hrun : performAt t ending index s = Scan.perform ending action s := by
      rw [performAt, hentry]
    have hfirst : Contained t (performAt t ending index) s := by
      unfold Contained
      rw [hrun]
      exact perform (h.action index action haction) hstate
    exact andThen hfirst fun u _ hu =>
      ih (fun index hindex => hindices index (List.mem_cons_of_mem _ hindex)) hu

lemma executeList (h : t.Fits) {list : Except Fault Nat} {offset ending : Nat}
    (hlist : list = .ok offset) (hfits : t.ListFits offset) (hstate : s.state < t.states) :
    Contained t (Scan.executeList t list ending) s := by
  obtain ⟨indices, hindices, hall⟩ := hfits
  have hrun : Scan.executeList t list ending s = Scan.execute t ending indices s := by
    have hlook : list >>= t.listAt = .ok indices := by
      rw [hlist]
      exact hindices
    rw [Scan.executeList, hlook]
  unfold Contained
  rw [hrun]
  exact execute h hall hstate

lemma change {f : Scan → Scan} (hstate : (f s).state < t.states) :
    Contained t (Scan.change f) s :=
  of_ok rfl hstate

lemma remember (hstate : s.state < t.states) :
    Contained t (Scan.change (Scan.remember t)) s := by
  refine change ?_
  unfold Scan.remember
  split
  · split
    · exact hstate
    · exact hstate
  · exact hstate

lemma conclude (hstate : s.state < t.states) : Contained t Scan.conclude s := by
  cases hlongest : s.longest with
  | none =>
    refine of_ok (r := some .noToken) (u := s) ?_ hstate
    simp [Scan.conclude, hlongest]
  | some found =>
    refine of_ok (r := some (.accept found.1 found.2)) (u := s) ?_ hstate
    simp [Scan.conclude, hlongest]

lemma advance (h : t.Fits) (hstate : s.state < t.states) (key : UInt8) :
    Contained t (Scan.advance t key) s := by
  obtain ⟨transition, htransition, hlt⟩ := h.transition hstate key
  obtain ⟨target, htarget, hentryTarget⟩ := exists_entry hlt
  obtain ⟨passing, hpassing, hentryPassing⟩ := exists_entry (Nat.lt_of_lt_of_le hlt h.passages)
  have hexists : target < t.states := h.target transition target htarget
  obtain ⟨arriving, harriving, hentryArriving⟩ :=
    exists_entry (Nat.lt_of_lt_of_le hexists h.arrivals)
  have hrun : Scan.advance t key s =
      (Scan.executeList t (entry t.onTransition transition) (s.offset + 1)).andThen
        ((Scan.change fun s => { s with offset := s.offset + 1 }).andThen
          (if target = t.dead then Scan.conclude
          else
            (Scan.executeList t (entry t.onArrival target) (s.offset + 1)).andThen
              (Scan.change (Scan.remember t))))
        { s with state := target } := by
    rw [Scan.advance, htransition]
    dsimp only
    rw [hentryTarget]
  unfold Contained
  rw [hrun]
  refine andThen (executeList h hentryPassing (h.onTransition _ _ hpassing) hexists) fun u _ hu =>
    andThen (change hu) fun v _ hv => ?_
  by_cases hdead : target = t.dead
  · rw [if_pos hdead]
    exact conclude hv
  · rw [if_neg hdead]
    exact andThen (executeList h hentryArriving (h.onArrival _ _ harriving) hv) fun w _ hw =>
      remember hw

lemma finish (h : t.Fits) (hstate : s.state < t.states) : Contained t (Scan.finish t) s := by
  obtain ⟨ending, hending, hentry⟩ := exists_entry (Nat.lt_of_lt_of_le hstate h.ends)
  exact andThen (executeList h hentry (h.onEnd _ _ hending) hstate) fun u _ hu =>
    andThen (remember hu) fun v _ hv => conclude hv

lemma meet (h : t.Fits) (hstate : s.state < t.states) (item : Option Item) :
    Contained t (Scan.meet t item) s := by
  have hend {outcome : Outcome} : Contained t
      (fun s => if s.offset = 0 then .ok (some outcome) s else Scan.finish t s) s := by
    by_cases hfront : s.offset = 0
    · exact of_ok (if_pos hfront) hstate
    · unfold Contained
      simp only [if_neg hfront]
      exact finish h hstate
  rcases item with _ | (key | ⟨node, ignore⟩)
  · exact hend
  · exact advance h hstate key
  · exact hend

lemma look (h : t.Fits) (hstate : s.state < t.states) : Contained t (Scan.look t) s := by
  cases hpeek : s.stream.peek s.offset with
  | ok item stream =>
    have hrun : Scan.look t s = Scan.meet t item { s with stream } := by
      rw [Scan.look, hpeek]
    unfold Contained
    rw [hrun]
    exact meet (s := { s with stream }) h hstate item
  | error message stream =>
    have hrun : Scan.look t s = .error (.error (.unreadable message)) { s with stream } := by
      rw [Scan.look, hpeek]
    exact of_error hrun (.unreadable message) hstate

lemma step (h : t.Fits) (hstate : s.state < t.states) : Contained t (Scan.step t) s := by
  obtain ⟨leaving, hleaving, hentry⟩ := exists_entry (Nat.lt_of_lt_of_le hstate h.departures)
  exact andThen (executeList h hentry (h.onDeparture _ _ hleaving) hstate) fun u _ hu => look h hu

end Contained

/-- A scan that begins in a state that exists ends in one, and has an excuse if it fails. -/
lemma run_contained {t : Tables} (h : t.Fits) {s : Scan} (hstate : s.state < t.states) :
    (∀ outcome u, run t s = .ok outcome u → u.state < t.states) ∧
      ∀ x u, run t s = .error x u → Excused x ∧ u.state < t.states := by
  fun_induction run t s with
  | case1 s v hv ih => exact ih ((Contained.step h hstate).1 none v hv)
  | case2 s outcome v hv =>
    refine ⟨fun _ u hu => ?_, fun _ u hu => ?_⟩
    · cases hu
      exact (Contained.step h hstate).1 _ v hv
    · cases hu
  | case3 s e v hv =>
    refine ⟨fun _ u hu => ?_, fun _ u hu => ?_⟩
    · cases hu
    · cases hu
      exact (Contained.step h hstate).2 e v hv

end Scan

/-- A scanner with tables that fit together looks nothing up beyond them. -/
theorem run_excused {t : Tables} (h : t.Fits) {region : RegionId} {s u : Scanner}
    {x : Failure Error} (hrun : run t region s = .error x u) :
    x = .error (.badRegion region) ∨ x = .error .notAttached ∨ Scan.Excused x := by
  unfold run at hrun
  split at hrun
  · cases hrun
    exact .inl rfl
  · cases hrun
    exact .inr (.inl rfl)
  · rename_i state stream hentry _
    split at hrun
    · cases hrun
    · rename_i e scan hscan
      cases hrun
      exact .inr (.inr ((Scan.run_contained h (h.entry region state hentry)).2 _ scan hscan).1)

end Rewind.Scanner
