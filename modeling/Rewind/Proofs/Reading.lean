import Rewind.Proofs.Probes

/-!
# Scans that leave no trace

A scan takes nothing.  Whether it finds something or fails, the stream is still there, at the same
position and with the same content (`Stream.Continues`); only more of it may be at hand.  A token
found is no longer than the text at the front.

Nor does a scan remember anything of the ones before it.  What it finds, and the marks it sets, are
told by the tables, the region and the content of the stream.  Two things are not told by these.  A
source that fails is not part of the content, and a region that has no entry is refused before
anything of an earlier scan is forgotten.
-/

namespace Rewind

namespace Scanner

namespace Scan

variable {t : Tables} {s : Scan}

/-! ## A scan takes nothing -/

lemma left_blind {stage : Stage} (h : Blind stage) (s : Scan) :
    (left (stage s)).stream = s.stream := by
  cases hrun : stage s with
  | ok r u => exact (h.ok hrun).1
  | error x u => exact (h.error hrun).1

lemma look_continues (s : Scan) : s.stream.Continues (left (look t s)).stream := by
  unfold look
  rcases Stream.peek_cases s.offset s.stream with
    ⟨stream, hpeek, hcontinues⟩ | ⟨message, stream, hpeek, hcontinues, -⟩
  · simp only [hpeek, left_blind (Blind.meet _)]
    exact hcontinues
  · simp only [hpeek]
    exact hcontinues

lemma step_continues (s : Scan) : s.stream.Continues (left (step t s)).stream := by
  have hdeparts := left_blind (Blind.executeList (t := t) (entry t.onDeparture s.state) s.offset)
    { s with candidate := none }
  unfold step Stage.andThen
  generalize executeList t (entry t.onDeparture s.state) s.offset { s with candidate := none } = x
    at hdeparts ⊢
  obtain ⟨_ | outcome, u⟩ | ⟨e, u⟩ := x
  · have hlook := look_continues (t := t) u
    rwa [show u.stream = s.stream from hdeparts] at hlook
  · exact hdeparts ▸ .refl _
  · exact hdeparts ▸ .refl _

/-- A scan leaves the stream as it was, whether it finds something or fails. -/
lemma run_continues (s : Scan) : s.stream.Continues (left (run t s)).stream := by
  fun_induction run t s with
  | case1 s u hstep ih =>
    have hfirst := step_continues (t := t) s
    rw [hstep] at hfirst
    exact hfirst.trans ih
  | case2 s outcome u hstep =>
    have hfirst := step_continues (t := t) s
    rwa [hstep] at hfirst
  | case3 s e u hstep =>
    have hfirst := step_continues (t := t) s
    rwa [hstep] at hfirst

/-! ## Two streams of one content -/

/-- What scans in front of two streams come to: the source of one of them has failed, or they come
to the same. -/
inductive Agree {α : Type} (a b : Stream) :
    EStateM.Result (Failure Error) Scan α → EStateM.Result (Failure Error) Scan α → Prop
  | first {message : String} {u : Scan} {y : EStateM.Result (Failure Error) Scan α} :
    .failure message ∈ a.source → Agree a b (.error (.error (.unreadable message)) u) y
  | second {message : String} {u : Scan} {x : EStateM.Result (Failure Error) Scan α} :
    .failure message ∈ b.source → Agree a b x (.error (.error (.unreadable message)) u)
  | ok (r : α) {u v : Scan} : a.Continues u.stream → b.Continues v.stream →
    v = { u with stream := v.stream } → Agree a b (.ok r u) (.ok r v)
  | error (e : Failure Error) {u v : Scan} : v = { u with stream := v.stream } →
    Agree a b (.error e u) (.error e v)

namespace Agree

variable {a b : Stream} {α : Type}

/-- Scans of the streams that reading has left. -/
lemma earlier {a' b' : Stream} {x y : EStateM.Result (Failure Error) Scan α}
    (h : Agree a' b' x y) (ha : a.Continues a') (hb : b.Continues b') : Agree a b x y := by
  cases h with
  | first hmem => exact .first (ha.failures _ hmem)
  | second hmem => exact .second (hb.failures _ hmem)
  | ok r hu hv hsame => exact .ok r (ha.trans hu) (hb.trans hv) hsame
  | error e hsame => exact .error e hsame

lemma blind {stage : Stage} (h : Blind stage) (s : Scan) (b : Stream) :
    Agree s.stream b (stage s) (stage { s with stream := b }) := by
  rw [h s b]
  cases hrun : stage s with
  | ok r u => exact .ok r ((h.ok hrun).1 ▸ .refl _) (.refl _) rfl
  | error e u => exact .error e rfl

lemma andThen {first second : Stage} (hfirst : Agree a b (first s) (first { s with stream := b }))
    (hsecond : ∀ u c, first s = .ok none u → a.Continues u.stream → b.Continues c →
      Agree u.stream c (second u) (second { u with stream := c })) :
    Agree a b (first.andThen second s) (first.andThen second { s with stream := b }) := by
  unfold Scan.Stage.andThen
  generalize hx : first s = x at hfirst hsecond ⊢
  generalize first { s with stream := b } = y at hfirst ⊢
  cases hfirst with
  | first hmem => exact .first hmem
  | second hmem => exact .second hmem
  | error e hsame => exact .error e hsame
  | @ok r u v hu hv hsame =>
    cases r with
    | some outcome => exact .ok _ hu hv hsame
    | none =>
      dsimp only
      rw [hsame]
      exact (hsecond u v.stream rfl hu hv).earlier hu hv

lemma look (h : b.content = s.stream.content) :
    Agree s.stream b (Scan.look t s) (Scan.look t { s with stream := b }) := by
  rcases Stream.peek_cases s.offset s.stream with
    ⟨u, hu, hcontinues⟩ | ⟨message, u, hu, -, hmem⟩
  · rcases Stream.peek_cases s.offset b with ⟨v, hv, hcontinues'⟩ | ⟨message, v, hv, -, hmem⟩
    · have hmeet := blind (Blind.meet (t := t) s.stream.content[s.offset]?)
        { s with stream := u } v
      have hleft :
          Scan.look t s = Scan.meet t s.stream.content[s.offset]? { s with stream := u } := by
        rw [Scan.look, hu]
      have hright : Scan.look t { s with stream := b } =
          Scan.meet t s.stream.content[s.offset]? { s with stream := v } := by
        rw [Scan.look, hv, h]
      rw [hleft, hright]
      exact hmeet.earlier hcontinues hcontinues'
    · have hright : Scan.look t { s with stream := b } =
          .error (.error (.unreadable message)) { s with stream := v } := by
        rw [Scan.look, hv]
      rw [hright]
      exact .second hmem
  · have hleft : Scan.look t s = .error (.error (.unreadable message)) { s with stream := u } := by
      rw [Scan.look, hu]
    rw [hleft]
    exact .first hmem

lemma step (h : b.content = s.stream.content) :
    Agree s.stream b (Scan.step t s) (Scan.step t { s with stream := b }) := by
  have hdeparts := blind (Blind.executeList (t := t) (entry t.onDeparture s.state) s.offset)
    { s with candidate := none } b
  exact andThen (s := { s with candidate := none }) hdeparts fun u c _ hu hc =>
    look (hc.content.trans (h.trans hu.content.symm))

lemma run (h : b.content = s.stream.content) :
    Agree s.stream b (Scan.run t s) (Scan.run t { s with stream := b }) := by
  have hfirst := step (t := t) h
  fun_induction Scan.run t s generalizing b with
  | case1 s u hstep ih =>
    rw [hstep] at hfirst
    rw [Scan.run.eq_def t { s with stream := b }]
    generalize Scan.step t { s with stream := b } = y at hfirst ⊢
    cases hfirst with
    | second hmem => exact .second hmem
    | @ok _ _ v hu hv hsame =>
      have hcontent := hv.content.trans (h.trans hu.content.symm)
      dsimp only
      rw [hsame]
      exact (ih hcontent (step hcontent)).earlier hu hv
  | case2 s outcome u hstep =>
    rw [hstep] at hfirst
    rw [Scan.run.eq_def t { s with stream := b }]
    generalize Scan.step t { s with stream := b } = y at hfirst ⊢
    cases hfirst with
    | second hmem => exact .second hmem
    | ok _ hu hv hsame => exact .ok outcome hu hv hsame
  | case3 s e u hstep =>
    rw [hstep] at hfirst
    rw [Scan.run.eq_def t { s with stream := b }]
    generalize Scan.step t { s with stream := b } = y at hfirst ⊢
    cases hfirst with
    | first hmem => exact .first hmem
    | second hmem => exact .second hmem
    | error _ hsame => exact .error e hsame

end Agree

end Scan

/-! ## Scanners with different histories -/

/-- What a result answers. -/
def told {σ α : Type} : EStateM.Result (Failure Error) σ α → Except (Failure Error) α
  | .ok a _ => .ok a
  | .error e _ => .error e

/-- Nobody can tell from the results which scanner was used. -/
structure Alike (x y : EStateM.Result (Failure Error) Scanner Outcome) : Prop where
  told : told x = told y
  marks : (left x).marks = (left y).marks
  tokenLength : (left x).tokenLength = (left y).tokenLength

/-- The source of the stream has failed. -/
def Failed (stream : Stream) (x : EStateM.Result (Failure Error) Scanner Outcome) : Prop :=
  ∃ message u, x = .error (.error (.unreadable message)) u ∧ .failure message ∈ stream.source

variable {t : Tables} {region : RegionId} {s v : Scanner} {stream other : Stream} {state : StateId}

lemma run_badRegion (hentry : t.entries[region]? = none) :
    run t region s = .error (.error (.badRegion region)) s := by
  unfold run
  rw [hentry]

/-- A scanner with a stream, in a region with an entry, begins a scan of its own. -/
lemma run_eq_scan (hentry : t.entries[region]? = some state) (hs : s.stream = some stream) :
    run t region s = match Scan.run t { stream, state } with
      | .ok outcome scan => .ok outcome (note outcome (s.leave region scan))
      | .error e scan => .error e (s.leave region scan) := by
  rewrite [run, hentry, hs]
  rfl

lemma stream_note (outcome : Outcome) (s : Scanner) : (note outcome s).stream = s.stream := by
  unfold note
  split <;> rfl

lemma marks_note (outcome : Outcome) (s : Scanner) : (note outcome s).marks = s.marks := by
  unfold note
  split <;> rfl

/-- The length that is noted is told by the outcome, whatever was noted before. -/
lemma tokenLength_note (outcome : Outcome) (s : Scanner) (region : RegionId) (scan : Scan) :
    (note outcome (s.leave region scan)).tokenLength = (outcome.match?.map Prod.snd).getD 0 := by
  unfold note
  cases outcome.match? <;> rfl

/-- The stream of a scanner is still there after a scan, as it was. -/
lemma run_keeps_stream (hs : s.stream = some stream) :
    ∃ rest, (left (run t region s)).stream = some rest ∧ stream.Continues rest := by
  cases hentry : t.entries[region]? with
  | none =>
    rw [run_badRegion hentry]
    exact ⟨stream, hs, .refl _⟩
  | some state =>
    have hcontinues := Scan.run_continues (t := t) { stream, state }
    rw [run_eq_scan hentry hs]
    cases hscan : Scan.run t { stream, state } with
    | ok outcome scan =>
      rw [hscan] at hcontinues
      exact ⟨scan.stream, stream_note _ _, hcontinues⟩
    | error e scan =>
      rw [hscan] at hcontinues
      exact ⟨scan.stream, rfl, hcontinues⟩

/-- A token found can be taken as a whole. -/
lemma run_token {token : ElementId} {length : Nat} {u : Scanner} (hs : s.stream = some stream)
    (hrun : run t region s = .ok (.token token length) u) :
    0 < length ∧ length ≤ Stream.leading stream.content ∧ ∃ rest, u.stream = some rest ∧
      (rest.extract length).1.map .byte = stream.content.take length ∧
      (rest.extract length).1.length = length := by
  obtain ⟨stream', rest, hs', hrest, hextends, -, hpos, hle⟩ := valid_of_run hrun
  obtain rfl : stream = stream' := Option.some.inj (hs.symm.trans hs')
  rcases htaken : rest.extract length with ⟨text, behind⟩
  obtain ⟨htext, -, -, hlength⟩ := Stream.content_extract htaken
  have hwhole : text.length = length := hlength.trans (Nat.min_eq_left hle)
  refine ⟨hpos, ?_, rest, hrest, ?_, by rw [htaken, hwhole]⟩
  · rw [← hextends.content]
    exact Nat.le_trans hle (Stream.leading_buffered_le rest)
  · rw [htaken, ← hextends.content, htext, List.take_left' (by simpa using hwhole)]

/-- Scanners in front of one content find the same, unless the source of one of them fails. -/
lemma run_alike (hentry : t.entries[region]? = some state) (hs : s.stream = some stream)
    (hv : v.stream = some other) (hcontent : other.content = stream.content) :
    Failed stream (run t region s) ∨ Failed other (run t region v) ∨
      Alike (run t region s) (run t region v) := by
  have hagree := Scan.Agree.run (t := t) (s := { stream, state }) hcontent
  rw [run_eq_scan hentry hs, run_eq_scan hentry hv]
  dsimp only at hagree
  generalize Scan.run t { stream, state } = x at hagree ⊢
  generalize Scan.run t { stream := other, state } = y at hagree ⊢
  cases hagree with
  | first hmem => exact .inl ⟨_, _, rfl, hmem⟩
  | second hmem => exact .inr (.inl ⟨_, _, rfl, hmem⟩)
  | ok outcome _ _ hsame =>
    refine .inr (.inr ⟨rfl, ?_, ?_⟩)
    · simp only [left, marks_note]
      exact (congrArg Scan.marks hsame).symm
    · simp only [left, tokenLength_note]
  | error e hsame => exact .inr (.inr ⟨rfl, (congrArg Scan.marks hsame).symm, rfl⟩)

/-- Scanners in front of the very same stream find the same, and fail alike. -/
lemma run_alike_of_same (hentry : t.entries[region]? = some state) (hs : s.stream = some stream)
    (hv : v.stream = some stream) : Alike (run t region s) (run t region v) := by
  rw [run_eq_scan hentry hs, run_eq_scan hentry hv]
  cases Scan.run t { stream, state } with
  | ok outcome scan =>
    refine ⟨rfl, ?_, ?_⟩
    · simp only [left, marks_note, leave]
    · simp only [left, tokenLength_note]
  | error e scan => exact ⟨rfl, rfl, rfl⟩

/-- A scan with valid tables never meets a fault, leaves the stream as it was, and finds a token
only where it can be taken as a whole.  A region without an entry is refused, and nothing is changed
then. In a region with one, nothing of the scans before makes a difference: scanners in front of the
same stream find the same, set the same marks and fail alike, and so do scanners in front of one
content as long as neither source fails. -/
theorem run_traceless (hvalid : t.validate = .ok ()) (hs : s.stream = some stream) :
    (∀ f u, run t region s ≠ .error (.fault f) u) ∧
    (∃ rest, (left (run t region s)).stream = some rest ∧ rest.content = stream.content ∧
      rest.position = stream.position) ∧
    (∀ token length u, run t region s = .ok (.token token length) u →
      1 ≤ length ∧ length ≤ Stream.leading stream.content ∧ ∃ rest, u.stream = some rest ∧
        (rest.extract length).1.map .byte = stream.content.take length ∧
        (rest.extract length).1.length = length) ∧
    (t.entries[region]? = none → run t region s = .error (.error (.badRegion region)) s) ∧
    ∀ state, t.entries[region]? = some state → ∀ v : Scanner,
      (v.stream = some stream → Alike (run t region s) (run t region v)) ∧
      ∀ other, v.stream = some other → other.content = stream.content →
        Failed stream (run t region s) ∨ Failed other (run t region v) ∨
          Alike (run t region s) (run t region v) := by
  refine ⟨fun f u hrun => ?_, ?_, fun token length u hrun => run_token hs hrun, run_badRegion,
    fun state hentry v => ⟨run_alike_of_same hentry hs, fun other => run_alike hentry hs⟩⟩
  · rcases run_excused (Tables.fits_of_validate hvalid) hrun with hbad | hnone | hexcused
    · cases hbad
    · cases hnone
    · cases hexcused
  · obtain ⟨rest, hrest, hcontinues⟩ := @run_keeps_stream t region s stream hs
    exact ⟨rest, hrest, hcontinues.content, hcontinues.position⟩

/-- The scanner for trailing digits finds one letter of two, whatever it has noted before. -/
theorem run_traceless_trailing :
    (∃ u rest, run trailingScanner 0 { stream := some (Stream.ofBytes [97, 97, 48]) } =
      .ok (.token 7 1) u ∧ u.stream = some rest ∧ (rest.extract 1).1.length = 1) ∧
    Alike (run trailingScanner 0 { stream := some (Stream.ofBytes [97, 97, 48]) })
      (run trailingScanner 0 {
        stream := some (Stream.ofBytes [97, 97, 48])
        marks := Vector.replicate markSlots (some 3)
        tokenLength := 5
        matched := some 2 }) := by
  have hfinds : told (run trailingScanner 0 { stream := some (Stream.ofBytes [97, 97, 48]) }) =
      .ok (.token 7 1) := by decide +kernel
  obtain ⟨-, -, htoken, -, halike⟩ := @run_traceless trailingScanner 0
    { stream := some (Stream.ofBytes [97, 97, 48]) } _ (by decide +kernel) rfl
  refine ⟨?_, (halike 1 rfl _).1 rfl⟩
  cases hrun : run trailingScanner 0 { stream := some (Stream.ofBytes [97, 97, 48]) } with
  | ok outcome u =>
    rw [hrun] at hfinds
    obtain rfl : outcome = .token 7 1 := Except.ok.inj hfinds
    obtain ⟨-, -, rest, hrest, -, hlength⟩ := htoken 7 1 u hrun
    exact ⟨u, rest, rfl, hrest, hlength⟩
  | error e u =>
    rw [hrun] at hfinds
    cases hfinds

/-- A region without an entry is refused before the length of the last token is forgotten, and a
source that fails makes a difference that its content does not tell. -/
theorem run_remembers : trailingScanner.validate = .ok () ∧
    (let fresh : Scanner := { stream := some (Stream.ofBytes [97, 97, 48]) }
    let later := left (run trailingScanner 0 fresh)
    later.stream = fresh.stream ∧
      told (run trailingScanner 1 later) = told (run trailingScanner 1 fresh) ∧
      (left (run trailingScanner 1 fresh)).tokenLength = 0 ∧
      (left (run trailingScanner 1 later)).tokenLength = 1) ∧
    (let failing := Stream.ofSource [.failure "lost", .data [97, 97, 48]]
    let whole := Stream.ofBytes [97, 97, 48]
    failing.content = whole.content ∧
      told (run trailingScanner 0 { stream := some failing }) =
        .error (.error (.unreadable "lost")) ∧
      told (run trailingScanner 0 { stream := some whole }) = .ok (.token 7 1)) := by
  decide +kernel

end Scanner

end Rewind
