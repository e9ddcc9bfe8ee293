import Rewind.Proofs.Stream
import Rewind.Scanner

/-!
# What a scan finds

A scan has seen every byte it counts: the longest token, the marks and the place where the scan is
lie within the text that is at hand.  A token found is therefore one that can be taken, and it is
named by the tables.  `Truthful` is the invariant of a scan on its way, and `Outcome.Valid` what it
comes to.

A scan looks at a stream through `peek` only.  What it finds depends on what the stream holds and
not on how much of that is at hand, so there is one answer for each content (`finds`).
-/

namespace Rewind.Scanner

open Rewind.Stream (leading)

/-- The token of an action. -/
def Action.token? : Action → Option ElementId
  | .candidate token => some token
  | .accept token => some token
  | .mark _ => none
  | .acceptAtMark _ token => some token

/-- The tables have an action for the token. -/
def Tables.Names (t : Tables) (token : ElementId) : Prop :=
  ∃ action ∈ t.actions.toList, action.token? = some token

/-- What was found is at the front of the stream. -/
def Outcome.Valid (t : Tables) (s : Stream) : Outcome → Prop
  | .token name length => t.Names name ∧ 0 < length ∧ length ≤ leading s.buffered
  | .tree id ignore => s.buffered.head? = some (.tree id ignore)
  | .eof => s.content = []
  | .noToken => True

lemma Outcome.valid_accept {t : Tables} {s : Stream} {token : ElementId} {length : Nat}
    (htoken : t.Names token) (hlength : length ≤ leading s.buffered) :
    (Outcome.accept token length).Valid t s := by
  unfold Outcome.accept
  split
  · simp [Outcome.Valid]
  · exact ⟨htoken, by omega, hlength⟩

namespace Scan

/-- All that a scan has noted lies within the text at hand, and its tokens are named. -/
structure Truthful (t : Tables) (s : Scan) : Prop where
  offset : s.offset ≤ leading s.stream.buffered
  marks : ∀ slot (h : slot < markSlots) (n : Nat), s.marks[slot] = some n →
    n ≤ leading s.stream.buffered
  candidate : ∀ token, s.candidate = some token → t.Names token
  longest : ∀ token n, s.longest = some (token, n) →
    t.Names token ∧ n ≤ leading s.stream.buffered

lemma truthful_start (t : Tables) (stream : Stream) (state : StateId) :
    Truthful t { stream, state } where
  offset := Nat.zero_le _
  marks := by
    intro slot h n hn
    simp [Marks.unset] at hn
  candidate := by simp
  longest := by simp

/-- A stage keeps the notes of a scan truthful, and what it ends the scan with is valid. -/
def Keeps (t : Tables) (stage : Stage) (s : Scan) : Prop :=
  ∀ ⦃r : Option Outcome⦄ ⦃u : Scan⦄, stage s = .ok r u →
    s.stream.Extends u.stream ∧ Truthful t u ∧ ∀ outcome ∈ r, outcome.Valid t u.stream

namespace Keeps

variable {t : Tables} {s : Scan}

lemma andThen {first second : Stage} (hfirst : Keeps t first s)
    (hsecond : ∀ u, first s = .ok none u → Truthful t u → Keeps t second u) :
    Keeps t (first.andThen second) s := by
  intro r u h
  unfold Stage.andThen at h
  split at h
  · rename_i v hv
    obtain ⟨hextends, htrue, -⟩ := hfirst hv
    obtain ⟨hextends', htrue', hvalid⟩ := hsecond v hv htrue h
    exact ⟨hextends.trans hextends', htrue', hvalid⟩
  · rename_i outcome v hv
    cases h
    exact hfirst hv
  · cases h

lemma change {f : Scan → Scan} (hstream : (f s).stream = s.stream) (htrue : Truthful t (f s)) :
    Keeps t (Scan.change f) s := by
  intro r u h
  cases h
  exact ⟨by rw [hstream]; exact .refl _, htrue, by simp⟩

lemma perform {ending : Nat} {action : Action} (hs : Truthful t s)
    (haction : action ∈ t.actions.toList) (hending : ending ≤ leading s.stream.buffered) :
    Keeps t (Scan.perform ending action) s := by
  intro r u h
  have hnamed : ∀ token, action.token? = some token → t.Names token :=
    fun token htoken => ⟨action, haction, htoken⟩
  unfold Scan.perform at h
  split at h
  · rename_i token
    cases h
    refine ⟨.refl _, { hs with candidate := ?_ }, by simp⟩
    rintro token' ⟨⟩
    exact hnamed token rfl
  · rename_i token
    cases h
    refine ⟨.refl _, hs, ?_⟩
    rintro outcome ⟨⟩
    exact Outcome.valid_accept (hnamed token rfl) hending
  · rename_i slot
    split at h
    · rename_i hslot
      cases h
      refine ⟨.refl _, { hs with marks := ?_ }, by simp⟩
      intro slot' hslot' n hn
      by_cases hsame : slot = slot'
      · subst hsame
        obtain rfl : s.offset = n := by simpa using hn
        exact hs.offset
      · exact hs.marks slot' hslot' n (by simpa [Vector.getElem_set, hsame] using hn)
    · cases h
  · rename_i slot token
    split at h
    · rename_i hslot
      split at h
      · rename_i marked hmarked
        cases h
        refine ⟨.refl _, hs, ?_⟩
        rintro outcome ⟨⟩
        exact Outcome.valid_accept (hnamed token rfl) (hs.marks slot hslot marked hmarked)
      · cases h
    · cases h

lemma execute {ending : Nat} {indices : List Nat} (hs : Truthful t s)
    (hending : ending ≤ leading s.stream.buffered) : Keeps t (Scan.execute t ending indices) s := by
  induction indices generalizing s with
  | nil =>
    intro r u h
    cases h
    exact ⟨.refl _, hs, by simp⟩
  | cons index rest ih =>
    have hfirst : Keeps t (performAt t ending index) s := by
      intro r u h
      unfold performAt at h
      split at h
      · rename_i action haction
        have hmem := Array.mem_of_getElem? (entry_eq_ok_iff.1 haction)
        exact perform hs (by simpa using hmem) hending h
      · cases h
    refine hfirst.andThen fun u hu htrue => ih htrue ?_
    rwa [(performAt_frame hu).1]

lemma executeList {list : Except Fault Nat} {ending : Nat} (hs : Truthful t s)
    (hending : ending ≤ leading s.stream.buffered) :
    Keeps t (Scan.executeList t list ending) s := by
  intro r u h
  unfold Scan.executeList at h
  split at h
  · exact execute hs hending h
  · cases h

lemma conclude (hs : Truthful t s) : Keeps t Scan.conclude s := by
  intro r u h
  unfold Scan.conclude at h
  split at h
  · rename_i token length hlongest
    cases h
    refine ⟨.refl _, hs, ?_⟩
    rintro outcome ⟨⟩
    obtain ⟨hnamed, hlength⟩ := hs.longest token length hlongest
    exact Outcome.valid_accept hnamed hlength
  · cases h
    refine ⟨.refl _, hs, ?_⟩
    rintro outcome ⟨⟩
    simp [Outcome.Valid]

lemma remember (hs : Truthful t s) : Keeps t (Scan.change (Scan.remember t)) s := by
  refine change (stream_remember t s) ?_
  unfold Scan.remember
  split
  · rename_i token hcandidate
    split
    · refine { hs with longest := ?_ }
      rintro token' n ⟨⟩
      exact ⟨hs.candidate token hcandidate, hs.offset⟩
    · exact hs
  · exact hs

lemma finish (hs : Truthful t s) : Keeps t (Scan.finish t) s := by
  have hstage : Keeps t ((Scan.executeList t (entry t.onEnd s.state) s.offset).andThen
      ((Scan.change (Scan.remember t)).andThen Scan.conclude)) s := by
    refine (executeList hs hs.offset).andThen fun u _ hu => ?_
    exact (remember hu).andThen fun v _ hv => conclude hv
  exact hstage

/-- A byte is passed that the scan has just seen. -/
lemma advance {key : UInt8} (hs : Truthful t s)
    (hkey : s.offset + 1 ≤ leading s.stream.buffered) : Keeps t (Scan.advance t key) s := by
  intro r u h
  unfold Scan.advance at h
  split at h
  · cases h
  split at h
  · cases h
  rename_i transition _ _ target _
  have hentered : Truthful t { s with state := target } := { hs with }
  refine Keeps.andThen (executeList hentered hkey) (fun v hv htrue => ?_) h
  have hframe := executeList_frame hv
  have hpassed : Truthful t { v with offset := v.offset + 1 } := by
    refine { htrue with offset := ?_ }
    simpa [hframe.1, hframe.2.1] using hkey
  refine (change rfl hpassed).andThen fun w hw hw' => ?_
  split
  · exact conclude hw'
  · have hoffset : s.offset + 1 ≤ leading w.stream.buffered := by
      cases hw
      simpa [hframe.1] using hkey
    exact (executeList hw' hoffset).andThen fun x _ hx => remember hx

lemma look (hs : Truthful t s) : Keeps t (Scan.look t) s := by
  intro r u h
  unfold Scan.look at h
  split at h
  · rename_i item stream hpeek
    obtain ⟨hextends, hitem, hcontent, -⟩ := Stream.extends_of_peek hpeek
    obtain ⟨more, hmore⟩ := hextends.buffered
    have hmono : leading s.stream.buffered ≤ leading stream.buffered := by
      rw [hmore]
      exact Stream.leading_append _ _
    have htrue : Truthful t { s with stream } :=
      { offset := Nat.le_trans hs.offset hmono
        marks := fun slot hslot n hn => Nat.le_trans (hs.marks slot hslot n hn) hmono
        candidate := hs.candidate
        longest := fun token n hn =>
          ⟨(hs.longest token n hn).1, Nat.le_trans (hs.longest token n hn).2 hmono⟩ }
    have hmeet : Keeps t (meet t item) { s with stream } := by
      intro r u h
      unfold meet at h
      split at h
      · exact advance htrue (Stream.succ_le_leading htrue.offset hitem) h
      · rename_i node ignore
        split at h
        · rename_i hoffset
          cases h
          refine ⟨.refl _, htrue, ?_⟩
          rintro outcome ⟨⟩
          simpa [Outcome.Valid, List.head?_eq_getElem?, ← hoffset] using hitem
        · exact finish htrue h
      · split at h
        · rename_i hoffset
          cases h
          refine ⟨.refl _, htrue, ?_⟩
          rintro outcome ⟨⟩
          have hempty : s.stream.content = [] := by
            rw [← List.head?_eq_none_iff, List.head?_eq_getElem?, ← hoffset]
            exact hcontent
          simpa [Outcome.Valid, hextends.content] using hempty
        · exact finish htrue h
    obtain ⟨hextends', htrue', hvalid⟩ := hmeet h
    exact ⟨hextends.trans hextends', htrue', hvalid⟩
  · cases h

lemma step (hs : Truthful t s) : Keeps t (Scan.step t) s := by
  have hforgotten : Truthful t { s with candidate := none } :=
    { hs with candidate := by simp }
  intro r u h
  unfold Scan.step at h
  exact Keeps.andThen (executeList hforgotten hs.offset) (fun v _ hv => look hv) h

end Keeps

/-- A whole scan ends with something that is at the front of the stream. -/
lemma valid_of_run {t : Tables} {s u : Scan} {outcome : Outcome} (hs : Truthful t s)
    (h : run t s = .ok outcome u) :
    s.stream.Extends u.stream ∧ outcome.Valid t u.stream := by
  fun_induction run t s with
  | case1 s v hstep ih =>
    obtain ⟨hextends, htrue, -⟩ := Keeps.step hs hstep
    obtain ⟨hextends', hvalid⟩ := ih htrue h
    exact ⟨hextends.trans hextends', hvalid⟩
  | case2 s outcome' v hstep =>
    cases h
    obtain ⟨hextends, -, hvalid⟩ := Keeps.step hs hstep
    exact ⟨hextends, hvalid outcome rfl⟩
  | case3 s e v hstep => cases h

/-! ## A scan is about the content -/

/-- What a stage comes to, in front of another stream. -/
def inFront (stream : Stream) : EStateM.Result (Failure Error) Scan (Option Outcome) →
    EStateM.Result (Failure Error) Scan (Option Outcome)
  | .ok r u => .ok r { u with stream }
  | .error e u => .error e { u with stream }

/-- A stage that does not look at the stream. -/
def Blind (stage : Stage) : Prop :=
  ∀ (s : Scan) (stream : Stream), stage { s with stream } = inFront stream (stage s)

namespace Blind

variable {t : Tables}

lemma ok {stage : Stage} (h : Blind stage) {r : Option Outcome} {s u : Scan}
    (hrun : stage s = .ok r u) :
    u.stream = s.stream ∧ ∀ stream, stage { s with stream } = .ok r { u with stream } := by
  have hother (stream : Stream) : stage { s with stream } = .ok r { u with stream } := by
    rw [h, hrun, inFront]
  have hself := (hother s.stream).symm.trans hrun
  obtain ⟨-, hu⟩ := EStateM.Result.ok.inj hself
  exact ⟨(congrArg Scan.stream hu).symm, hother⟩

/-- A stage that fails leaves the stream as it was, too. -/
lemma error {stage : Stage} (h : Blind stage) {e : Failure Error} {s u : Scan}
    (hrun : stage s = .error e u) :
    u.stream = s.stream ∧ ∀ stream, stage { s with stream } = .error e { u with stream } := by
  have hother (stream : Stream) : stage { s with stream } = .error e { u with stream } := by
    rw [h, hrun, inFront]
  have hself := (hother s.stream).symm.trans hrun
  obtain ⟨-, hu⟩ := EStateM.Result.error.inj hself
  exact ⟨(congrArg Scan.stream hu).symm, hother⟩

lemma andThen {first second : Stage} (hfirst : Blind first) (hsecond : Blind second) :
    Blind (first.andThen second) := by
  intro s stream
  unfold Stage.andThen
  rw [hfirst s stream]
  rcases first s with ⟨_ | outcome, u⟩ | ⟨e, u⟩
  · exact hsecond u stream
  · rfl
  · rfl

lemma change {f : Scan → Scan} (hf : ∀ s stream, f { s with stream } = { f s with stream }) :
    Blind (Scan.change f) := by
  intro s stream
  rw [Scan.change, Scan.change, hf, inFront]

lemma perform (ending : Nat) (action : Action) : Blind (Scan.perform ending action) := by
  intro s stream
  cases action with
  | candidate token => rfl
  | accept token => rfl
  | mark slot =>
    simp only [Scan.perform]
    split <;> rfl
  | acceptAtMark slot token =>
    simp only [Scan.perform]
    split
    · cases s.marks[slot] <;> rfl
    · rfl

lemma performAt (ending index : Nat) : Blind (Scan.performAt t ending index) := by
  intro s stream
  unfold Scan.performAt
  cases entry t.actions index with
  | ok action => exact perform ending action s stream
  | error f => rfl

lemma executeList (list : Except Fault Nat) (ending : Nat) :
    Blind (Scan.executeList t list ending) := by
  have hexecute : ∀ indices, Blind (Scan.execute t ending indices) := by
    intro indices
    induction indices with
    | nil => exact fun _ _ => rfl
    | cons index rest ih => exact (performAt ending index).andThen ih
  intro s stream
  unfold Scan.executeList
  cases list >>= t.listAt with
  | ok indices => exact hexecute indices s stream
  | error f => rfl

lemma remember : Blind (Scan.change (Scan.remember t)) := by
  refine change fun s stream => ?_
  obtain ⟨_, state, offset, candidate, marks, longest⟩ := s
  cases candidate with
  | none => rfl
  | some token =>
    by_cases hfinal : t.isFinal state = true
    · simp [Scan.remember, hfinal]
    · simp [Scan.remember, hfinal]

lemma conclude : Blind Scan.conclude := by
  intro s stream
  obtain ⟨_, state, offset, candidate, marks, longest⟩ := s
  cases longest <;> rfl

lemma finish : Blind (Scan.finish t) := by
  intro s stream
  exact ((executeList _ _).andThen (remember.andThen conclude)) s stream

lemma advance (key : UInt8) : Blind (Scan.advance t key) := by
  intro s stream
  have hpass : Blind (Scan.change fun s => { s with offset := s.offset + 1 }) :=
    change fun _ _ => rfl
  unfold Scan.advance
  dsimp only
  cases t.transition s.state key with
  | error f => rfl
  | ok transition =>
    dsimp only
    cases entry t.targets transition with
    | error f => rfl
    | ok target =>
      have hend : Blind (if target = t.dead then Scan.conclude else
          (Scan.executeList t (entry t.onArrival target) (s.offset + 1)).andThen
            (Scan.change (Scan.remember t))) := by
        split
        · exact conclude
        · exact (executeList _ _).andThen remember
      exact ((executeList _ _).andThen (hpass.andThen hend)) { s with state := target } stream

lemma meet (item : Option Item) : Blind (Scan.meet t item) := by
  intro s stream
  unfold Scan.meet
  cases item with
  | none =>
    dsimp only
    split
    · rfl
    · exact finish s stream
  | some item =>
    cases item with
    | byte key => exact advance key s stream
    | tree node ignore =>
      dsimp only
      split
      · rfl
      · exact finish s stream

end Blind

/-- A step sees the same in a stream that supplies the one it leaves. -/
lemma step_supplied {t : Tables} {s u : Scan} {r : Option Outcome} {b : Stream}
    (h : step t s = .ok r u) (hb : b.Supplies u.stream) :
    step t { s with stream := b } = .ok r { u with stream := b } := by
  have hlook : ∀ {r s u}, look t s = .ok r u → b.Supplies u.stream →
      look t { s with stream := b } = .ok r { u with stream := b } := by
    intro r s u h hb
    unfold look at h
    split at h
    · rename_i item stream hpeek
      obtain ⟨hsame, hother⟩ := (Blind.meet item).ok h
      rw [hsame] at hb
      rw [look, Stream.peek_supplied hpeek hb]
      exact hother b
    · cases h
  unfold step Stage.andThen at h ⊢
  split at h
  · rename_i v hv
    obtain ⟨-, hother⟩ := (Blind.executeList _ _).ok hv
    have hfirst := hother b
    dsimp only at hfirst ⊢
    rw [hfirst]
    exact hlook h hb
  · rename_i outcome v hv
    cases h
    obtain ⟨-, hother⟩ := (Blind.executeList _ _).ok hv
    have hfirst := hother b
    dsimp only at hfirst ⊢
    rw [hfirst]
  · cases h

/-- A scan finds the same in a stream that supplies the one it leaves, and reads nothing of it. -/
lemma run_supplied {t : Tables} {s u : Scan} {outcome : Outcome} {b : Stream}
    (hs : Truthful t s) (h : run t s = .ok outcome u) (hb : b.Supplies u.stream) :
    run t { s with stream := b } = .ok outcome { u with stream := b } := by
  fun_induction run t s with
  | case1 s v hstep ih =>
    obtain ⟨-, htrue, -⟩ := Keeps.step hs hstep
    have hfirst := step_supplied hstep (hb.of_extends (valid_of_run htrue h).1)
    rw [run, hfirst]
    exact ih htrue h
  | case2 s outcome' v hstep =>
    cases h
    rw [run, step_supplied hstep hb]
  | case3 s e v hstep => cases h

end Scan

/-- What a scanner finds is at the front of its stream, which is as it was. -/
lemma valid_of_run {t : Tables} {region : RegionId} {s u : Scanner} {outcome : Outcome}
    (h : run t region s = .ok outcome u) :
    ∃ stream stream', s.stream = some stream ∧ u.stream = some stream' ∧
      stream.Extends stream' ∧ outcome.Valid t stream' := by
  unfold run at h
  split at h
  · cases h
  · cases h
  · rename_i state stream _ hstream
    split at h
    · rename_i scan hscan
      cases h
      obtain ⟨hextends, hvalid⟩ := Scan.valid_of_run (Scan.truthful_start t stream state) hscan
      refine ⟨stream, scan.stream, hstream, ?_, hextends, hvalid⟩
      unfold note
      split <;> rfl
    · cases h

/-- A scanner whose stream supplies the one that another leaves finds the same, whatever it knows of
scans before. -/
lemma run_supplied {t : Tables} {region : RegionId} {s u v : Scanner} {outcome : Outcome}
    {stream b : Stream} (h : run t region s = .ok outcome u) (hu : u.stream = some stream)
    (hb : b.Supplies stream) (hv : v.stream = some b) :
    ∃ w, run t region v = .ok outcome w ∧ w.stream = some b := by
  have hnote : ∀ (outcome : Outcome) (s : Scanner), (note outcome s).stream = s.stream := by
    intro outcome s
    unfold note
    split <;> rfl
  unfold run at h ⊢
  split at h
  · cases h
  · cases h
  · rename_i state stream' hentry hstream
    split at h
    · rename_i scan hscan
      cases h
      obtain rfl : scan.stream = stream := Option.some.inj ((hnote _ _).symm.trans hu)
      have hsame := Scan.run_supplied (Scan.truthful_start t stream' state) hscan hb
      dsimp only at hsame
      simp only [hentry, hv, hsame]
      exact ⟨_, rfl, hnote _ _⟩
    · cases h

/-- What a scan of a region finds in front of items, if it finds an answer. -/
def finds (t : Tables) (region : RegionId) (items : List Item) : Option Outcome :=
  match t.entries[region]? with
  | none => none
  | some state =>
    match Scan.run t { stream := { buffered := items }, state } with
    | .ok outcome _ => some outcome
    | .error _ _ => none

lemma finds_of_run {t : Tables} {region : RegionId} {s u : Scanner} {outcome : Outcome}
    {stream : Stream} (hs : s.stream = some stream) (h : run t region s = .ok outcome u) :
    finds t region stream.content = some outcome := by
  unfold run at h
  split at h
  · cases h
  · cases h
  · rename_i state stream' hentry hstream
    obtain rfl : stream' = stream := by simpa [hstream] using hs
    split at h
    · rename_i scan hscan
      cases h
      have htrue := Scan.truthful_start t stream' state
      have hcontent := (Scan.valid_of_run htrue hscan).1.content.symm
      have hhand : Scan.run t { stream := { buffered := stream'.content }, state } = _ :=
        Scan.run_supplied htrue hscan (Stream.supplies_atHand hcontent)
      simp only [finds, hentry, hhand]
    · cases h

end Rewind.Scanner
