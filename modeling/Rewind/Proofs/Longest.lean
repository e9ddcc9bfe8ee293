import Rewind.Proofs.Reading

/-!
# The longest token

As long as no action accepts a token outright, a scan finds the longest prefix of the text that may
be a token.  Which prefixes may be one is told without a scan, by following the states that the text
leads through (`candidate?`): the actions on the way to a final state suggest a token, and the last
suggestion counts.  Where the text ends, what its end suggests comes first.

The text is followed no further than to the dead state.  The byte that leads there suggests nothing,
not even if the dead state is final.
-/

namespace Rewind.Scanner

/-- The token that an action suggests. -/
def Action.candidate? : Action → Option ElementId
  | .candidate token => some token
  | _ => none

/-- An action that never ends a scan. -/
def Action.Proceeds : Action → Prop
  | .candidate _ | .mark _ => True
  | .accept _ | .acceptAtMark _ _ => False

instance : DecidablePred Action.Proceeds
  | .candidate _ | .mark _ => .isTrue trivial
  | .accept _ | .acceptAtMark _ _ => .isFalse id

/-- The last token that some actions suggest. -/
def suggested (actions : List Action) : Option ElementId :=
  (actions.filterMap Action.candidate?).getLast?

lemma suggested_append (actions more : List Action) :
    suggested (actions ++ more) = (suggested more).or (suggested actions) := by
  rw [suggested, List.filterMap_append, List.getLast?_append]
  rfl

lemma suggested_cons (action : Action) (actions : List Action) :
    suggested (action :: actions) = (suggested actions).or action.candidate? := by
  rw [← List.singleton_append, suggested_append]
  cases action <;> rfl

namespace Tables

/-! ## The way of a text -/

/-- The state that a byte leads to. -/
def target (t : Tables) (state : StateId) (key : UInt8) : Except Fault StateId := do
  entry t.targets (← t.transition state key)

/-- The state that a text leads to. -/
def reached (t : Tables) (start : StateId) (text : Bytes) : Except Fault StateId :=
  text.foldlM t.target start

/-- The text leads into the dead state, or through it. -/
def MeetsDead (t : Tables) (start : StateId) (text : Bytes) : Prop :=
  ∃ n < text.length, t.reached start (text.take (n + 1)) = .ok t.dead

instance (t : Tables) (start : StateId) (text : Bytes) : Decidable (t.MeetsDead start text) :=
  inferInstanceAs (Decidable (∃ n < text.length, _))

/-- What is done on the way over a byte: on leaving the state, on the transition, and on arriving.
-/
def onWay (t : Tables) (state : StateId) (key : UInt8) : Except Fault (List Action) := do
  let transition ← t.transition state key
  let departing ← t.actionsOf t.onDeparture state
  let passing ← t.actionsOf t.onTransition transition
  let arriving ← t.actionsOf t.onArrival (← entry t.targets transition)
  return departing ++ passing ++ arriving

/-- The token that the way over a byte suggests, if it leads to a final state. -/
def passing? (t : Tables) (state : StateId) (key : UInt8) : Option ElementId :=
  match t.target state key, t.onWay state key with
  | .ok target, .ok actions => if t.isFinal target then suggested actions else none
  | _, _ => none

/-- The token that the end of the text suggests in a final state. -/
def ending? (t : Tables) (state : StateId) : Option ElementId :=
  match t.actionsOf t.onDeparture state, t.actionsOf t.onEnd state with
  | .ok departing, .ok ending => if t.isFinal state then suggested (departing ++ ending) else none
  | _, _ => none

/-- The token that the last byte of a prefix suggests. -/
def midway? (t : Tables) (start : StateId) (text : Bytes) : Nat → Option ElementId
  | 0 => none
  | n + 1 =>
    match text[n]?, t.reached start (text.take n) with
    | some key, .ok state =>
      if t.MeetsDead start (text.take (n + 1)) then none else t.passing? state key
    | _, _ => none

/-- The token that a prefix of the text may be.  For the whole text, the end comes first. -/
def candidate? (t : Tables) (start : StateId) (text : Bytes) (length : Nat) : Option ElementId :=
  match t.reached start text with
  | .ok state =>
    if length = text.length ∧ ¬t.MeetsDead start text then
      (t.ending? state).or (t.midway? start text length)
    else t.midway? start text length
  | .error _ => t.midway? start text length

/-- What was found is the longest prefix that may be a token. -/
def IsLongest (t : Tables) (start : StateId) (text : Bytes) : Outcome → Prop
  | .token token length => t.candidate? start text length = some token ∧
    ∀ longer > length, t.candidate? start text longer = none
  | .noToken => ∀ length, t.candidate? start text length = none
  | _ => False

variable {t : Tables} {start state : StateId} {text : Bytes} {key : UInt8}

/-- There is one answer. -/
lemma IsLongest.unique {outcome other : Outcome} (h : t.IsLongest start text outcome)
    (h' : t.IsLongest start text other) : other = outcome := by
  cases outcome with
  | tree | eof => exact h.elim
  | noToken =>
    cases other with
    | tree | eof => exact h'.elim
    | noToken => rfl
    | token token' length' => cases (h length').symm.trans h'.1
  | token token length =>
    cases other with
    | tree | eof => exact h'.elim
    | noToken => cases (h' length).symm.trans h.1
    | token token' length' =>
      rcases Nat.lt_trichotomy length length' with hlt | rfl | hgt
      · cases (h.2 length' hlt).symm.trans h'.1
      · cases h.1.symm.trans h'.1
        rfl
      · cases (h'.2 length hgt).symm.trans h.1

theorem reached_concat (t : Tables) (start : StateId) (text : Bytes) (key : UInt8) :
    t.reached start (text ++ [key]) = t.reached start text >>= fun state => t.target state key := by
  rw [reached, List.foldlM_append]
  simp only [List.foldlM_cons, List.foldlM_nil, bind_pure]
  rfl

theorem reached_take_succ {n : Nat} (hkey : text[n]? = some key)
    (hstate : t.reached start (text.take n) = .ok state) :
    t.reached start (text.take (n + 1)) = t.target state key := by
  rw [List.take_add_one, hkey, Option.toList_some, reached_concat, hstate]
  rfl

/-- A text meets the dead state where a part of it did, or with its last byte. -/
lemma meetsDead_take_succ {n : Nat} (h : n < text.length) :
    t.MeetsDead start (text.take (n + 1)) ↔
      t.MeetsDead start (text.take n) ∨ t.reached start (text.take (n + 1)) = .ok t.dead := by
  have htake {k : Nat} (hk : k ≤ n) : (text.take (n + 1)).take (k + 1) = text.take (k + 1) := by
    rw [List.take_take, Nat.min_eq_left (by omega)]
  have htake' {k : Nat} (hk : k < n) : (text.take n).take (k + 1) = text.take (k + 1) := by
    rw [List.take_take, Nat.min_eq_left (by omega)]
  constructor
  · rintro ⟨k, hk, hdead⟩
    have hle : k ≤ n := by
      rw [List.length_take] at hk
      omega
    rw [htake hle] at hdead
    rcases Nat.lt_or_eq_of_le hle with hlt | rfl
    · exact .inl ⟨k, by rw [List.length_take]; omega, by rwa [htake' hlt]⟩
    · exact .inr hdead
  · rintro (⟨k, hk, hdead⟩ | hdead)
    · have hlt : k < n := by
        rw [List.length_take] at hk
        omega
      rw [htake' hlt] at hdead
      exact ⟨k, by rw [List.length_take]; omega, by rwa [htake (Nat.le_of_lt hlt)]⟩
    · exact ⟨n, by rw [List.length_take]; omega, by rwa [htake (Nat.le_refl n)]⟩

lemma MeetsDead.of_take {n : Nat} (h : t.MeetsDead start (text.take n)) :
    t.MeetsDead start text := by
  obtain ⟨k, hk, hdead⟩ := h
  rw [List.length_take] at hk
  rw [List.take_take, Nat.min_eq_left (by omega)] at hdead
  exact ⟨k, by omega, hdead⟩

lemma midway?_of_lt {length : Nat} (h : text.length < length) :
    t.midway? start text length = none := by
  cases length with
  | zero => rfl
  | succ n =>
    have hnone : text[n]? = none := List.getElem?_eq_none_iff.2 (by omega)
    simp only [midway?, hnone]

/-- There is no token beyond the text. -/
lemma candidate?_of_lt {length : Nat} (h : text.length < length) :
    t.candidate? start text length = none := by
  unfold candidate?
  split
  · rw [if_neg fun hend => Nat.ne_of_gt h hend.1, midway?_of_lt h]
  · exact midway?_of_lt h

lemma midway?_of_meetsDead {n : Nat} (h : t.MeetsDead start (text.take (n + 1))) :
    t.midway? start text (n + 1) = none := by
  simp only [midway?, if_pos h]
  split <;> rfl

lemma midway?_succ {n : Nat} (hkey : text[n]? = some key)
    (hstate : t.reached start (text.take n) = .ok state)
    (halive : ¬t.MeetsDead start (text.take (n + 1))) :
    t.midway? start text (n + 1) = t.passing? state key := by
  simp only [midway?, hkey, hstate, if_neg halive]

/-- A text that has met the dead state suggests nothing any more. -/
lemma MeetsDead.midway? {n length : Nat} (h : t.MeetsDead start (text.take n))
    (hle : n ≤ length) : t.midway? start text length = none := by
  cases length with
  | zero => rfl
  | succ k =>
    refine midway?_of_meetsDead (.of_take (n := n) ?_)
    rwa [List.take_take, Nat.min_eq_left hle]

/-- What was noted is the longest of the prefixes up to a length that may be a token, as long as the
text does not end. -/
def Noted (t : Tables) (start : StateId) (text : Bytes) (length : Nat) :
    Option (ElementId × Nat) → Prop
  | none => ∀ shorter ≤ length, t.midway? start text shorter = none
  | some (token, found) => found ≤ length ∧ t.midway? start text found = some token ∧
    ∀ longer > found, longer ≤ length → t.midway? start text longer = none

/-- One more byte adds what it suggests. -/
lemma Noted.succ {n : Nat} {found : Option (ElementId × Nat)} (h : t.Noted start text n found) :
    t.Noted start text (n + 1) (((t.midway? start text (n + 1)).map (·, n + 1)).or found) := by
  cases hnext : t.midway? start text (n + 1) with
  | some token => exact ⟨Nat.le_refl _, hnext, fun longer hgt hle => absurd hle (by omega)⟩
  | none =>
    have hlast {length : Nat} (hle : length ≤ n + 1) (hgt : n < length) :
        t.midway? start text length = none := by
      obtain rfl : length = n + 1 := by omega
      exact hnext
    cases found with
    | none =>
      intro shorter hle
      by_cases hn : shorter ≤ n
      · exact h shorter hn
      · exact hlast hle (by omega)
    | some found =>
      obtain ⟨hle, htoken, hlonger⟩ := h
      refine ⟨Nat.le_succ_of_le hle, htoken, fun longer hgt hle' => ?_⟩
      by_cases hn : longer ≤ n
      · exact hlonger longer hgt hn
      · exact hlast hle' (by omega)

end Tables

namespace Scan

open Tables

variable {t : Tables} {s : Scan} {ending : Nat} {actions : List Action}

/-! ## Stages that go on -/

/-- The action goes on, and the mark that it names exists. -/
def Benign (action : Action) : Prop :=
  action.Proceeds ∧ ActionFits action

lemma andThen_of_none {first second : Stage} {u : Scan} (h : first s = .ok none u) :
    first.andThen second s = second u := by
  rw [Stage.andThen, h]

lemma change_andThen (f : Scan → Scan) (second : Stage) (s : Scan) :
    (change f).andThen second s = second (f s) := rfl

/-- An action that goes on leaves nothing but its suggestion and its mark. -/
lemma perform_benign {action : Action} (h : Benign action) :
    ∃ marks, perform ending action s =
      .ok none { s with candidate := action.candidate?.or s.candidate, marks } := by
  obtain ⟨hproceeds, hfits⟩ := h
  cases action with
  | candidate token => exact ⟨s.marks, rfl⟩
  | mark slot => exact ⟨_, dif_pos hfits⟩
  | accept token => exact hproceeds.elim
  | acceptAtMark slot token => exact hproceeds.elim

lemma execute_benign {indices : List Nat} (h : indices.mapM (entry t.actions) = .ok actions)
    (hbenign : ∀ action ∈ actions, Benign action) :
    ∃ marks, execute t ending indices s =
      .ok none { s with candidate := (suggested actions).or s.candidate, marks } := by
  induction indices generalizing s actions with
  | nil =>
    cases h
    exact ⟨s.marks, rfl⟩
  | cons index rest ih =>
    rw [List.mapM_cons] at h
    obtain ⟨action, hentry, h⟩ := Except.bind_eq_ok.1 h
    obtain ⟨others, hrest, h⟩ := Except.bind_eq_ok.1 h
    cases h
    obtain ⟨marks, hfirst⟩ :=
      @perform_benign s ending action (hbenign action List.mem_cons_self)
    obtain ⟨marks', hothers⟩ :=
      @ih { s with candidate := action.candidate?.or s.candidate, marks } others hrest
        fun other hother => hbenign other (List.mem_cons_of_mem _ hother)
    refine ⟨marks', ?_⟩
    have hat : performAt t ending index s = perform ending action s := by
      rw [performAt, hentry]
    rw [execute, andThen_of_none (hat.trans hfirst), hothers, suggested_cons, Option.or_assoc]

/-- The actions of a list suggest a token, and set marks. -/
lemma executeList_benign (s : Scan) (ending : Nat) {offsets : Array Nat} {index : Nat}
    (h : t.actionsOf offsets index = .ok actions)
    (hbenign : ∀ action ∈ actions, Benign action) :
    ∃ marks, executeList t (entry offsets index) ending s =
      .ok none { s with candidate := (suggested actions).or s.candidate, marks } := by
  obtain ⟨offset, hentry, h⟩ := Except.bind_eq_ok.1 h
  obtain ⟨indices, hindices, h⟩ := Except.bind_eq_ok.1 h
  rw [executeList, hentry, Except.ok_bind, hindices]
  exact execute_benign h hbenign

lemma remember_eq (t : Tables) (s : Scan) : remember t s = { s with
    longest := ((if t.isFinal s.state then s.candidate else none).map (·, s.offset)).or
      s.longest } := by
  obtain ⟨stream, state, offset, candidate, marks, longest⟩ := s
  cases candidate with
  | none => simp [remember]
  | some token => by_cases hfinal : t.isFinal state = true <;> simp [remember, hfinal]

/-- The outcome of a scan that has noted what it found. -/
def outcomeOf : Option (ElementId × Nat) → Outcome
  | some (token, length) => .accept token length
  | none => .noToken

lemma conclude_eq (s : Scan) : conclude s = .ok (some (outcomeOf s.longest)) s := by
  unfold conclude outcomeOf
  cases s.longest <;> rfl

/-! ## A step -/

lemma mem_of_mapM {indices : List Nat} (h : indices.mapM (entry t.actions) = .ok actions) :
    ∀ action ∈ actions, action ∈ t.actions := by
  induction indices generalizing actions with
  | nil =>
    cases h
    exact nofun
  | cons index rest ih =>
    rw [List.mapM_cons] at h
    obtain ⟨first, hentry, h⟩ := Except.bind_eq_ok.1 h
    obtain ⟨others, hrest, h⟩ := Except.bind_eq_ok.1 h
    cases h
    rintro action (_ | ⟨_, hmem⟩)
    · exact Array.mem_of_getElem? (entry_eq_ok_iff.1 hentry)
    · exact ih hrest action hmem

/-- The actions of all lists go on, in tables where no action accepts. -/
lemma lists_benign {offsets : Array Nat} {index : Nat} (h : t.Lists offsets index)
    (hproceeds : ∀ action ∈ t.actions, action.Proceeds) :
    ∃ actions, t.actionsOf offsets index = .ok actions ∧ ∀ action ∈ actions, Benign action := by
  obtain ⟨actions, hactions, hfit⟩ := h
  obtain ⟨offset, -, hat⟩ := Except.bind_eq_ok.1 hactions
  obtain ⟨indices, -, hmap⟩ := Except.bind_eq_ok.1 hat
  exact ⟨actions, hactions, fun action hmem =>
    ⟨hproceeds action (mem_of_mapM hmap action hmem), hfit action hmem⟩⟩

section Step

variable {key : UInt8} {stream : Stream} (hserves : t.Serves s.state)
  (hproceeds : ∀ action ∈ t.actions, action.Proceeds)

include hserves hproceeds

/-- A step begins with what is done on leaving the state. -/
lemma step_departs : ∃ departing marks, t.actionsOf t.onDeparture s.state = .ok departing ∧
    step t s = look t { s with candidate := suggested departing, marks } := by
  obtain ⟨departing, hdeparting, hbenign⟩ := lists_benign hserves.departure hproceeds
  obtain ⟨marks, hrun⟩ :=
    executeList_benign { s with candidate := none } s.offset hdeparting hbenign
  refine ⟨departing, marks, hdeparting, ?_⟩
  rw [Option.or_none] at hrun
  exact andThen_of_none hrun

/-- Where the source fails, so does the step. -/
lemma step_fails {message : String} (hpeek : s.stream.peek s.offset = .error message stream) :
    ∃ u, step t s = .error (.error (.unreadable message)) u := by
  obtain ⟨departing, marks, -, hstep⟩ := step_departs hserves hproceeds
  rw [hstep, look]
  simp only [hpeek]
  exact ⟨_, rfl⟩

/-- Where the text ends, what its end suggests comes first. -/
lemma step_ends {item : Option Item} (hpeek : s.stream.peek s.offset = .ok item stream)
    (hitem : ∀ key, item ≠ some (.byte key)) (hoffset : s.offset ≠ 0) :
    ∃ u, step t s =
      .ok (some (outcomeOf (((t.ending? s.state).map (·, s.offset)).or s.longest))) u := by
  obtain ⟨departing, marks, hdeparting, hstep⟩ := step_departs hserves hproceeds
  obtain ⟨actions, hending, hbenign⟩ := lists_benign hserves.ending hproceeds
  obtain ⟨marks', hrun⟩ :=
    executeList_benign { s with candidate := suggested departing, marks, stream } s.offset hending
      hbenign
  have hsuggests : t.ending? s.state =
      if t.isFinal s.state then (suggested actions).or (suggested departing) else none := by
    simp only [ending?, hdeparting, hending, suggested_append]
  have hfinish : ∃ u, finish t { s with candidate := suggested departing, marks, stream } =
      .ok (some (outcomeOf (((t.ending? s.state).map (·, s.offset)).or s.longest))) u := by
    rw [finish, andThen_of_none hrun, change_andThen, conclude_eq, remember_eq, hsuggests]
    exact ⟨_, rfl⟩
  rw [hstep, look]
  simp only [hpeek]
  cases item with
  | none => simpa only [meet, if_neg hoffset] using hfinish
  | some item =>
    cases item with
    | byte key => exact absurd rfl (hitem key)
    | tree node ignore => simpa only [meet, if_neg hoffset] using hfinish

/-- A byte leads to its target.  The scan is over if that is the dead state; else it goes on from
there, and has noted what the way suggests. -/
lemma step_byte (hpeek : s.stream.peek s.offset = .ok (some (.byte key)) stream) :
    ∃ target, t.target s.state key = .ok target ∧ target < t.states ∧
      (target = t.dead → ∃ u, step t s = .ok (some (outcomeOf s.longest)) u) ∧
      (target ≠ t.dead → ∃ u, step t s = .ok none u ∧ u.stream = stream ∧
        u.offset = s.offset + 1 ∧ u.state = target ∧
        u.longest = ((t.passing? s.state key).map (·, s.offset + 1)).or s.longest) := by
  obtain ⟨departing, marks, hdeparting, hstep⟩ := step_departs hserves hproceeds
  obtain ⟨transition, target, -, htransition, htarget, hexists, hlists, hlists'⟩ :=
    hserves.transition key
  obtain ⟨passing, hpassing, hbenign⟩ := lists_benign hlists hproceeds
  obtain ⟨arriving, harriving, hbenign'⟩ := lists_benign hlists' hproceeds
  have hgoes : t.target s.state key = .ok target := by
    rw [Tables.target, htransition]
    exact htarget
  have hway : t.onWay s.state key = .ok (departing ++ passing ++ arriving) := by
    rw [onWay, htransition, Except.ok_bind, hdeparting, Except.ok_bind, hpassing, Except.ok_bind,
      htarget, Except.ok_bind, harriving]
    rfl
  obtain ⟨marks', hrun⟩ := executeList_benign
    { s with candidate := suggested departing, marks, stream, state := target } (s.offset + 1)
    hpassing hbenign
  have hlook : step t s =
      ((change fun s => { s with offset := s.offset + 1 }).andThen
        (if target = t.dead then conclude
        else (executeList t (entry t.onArrival target) (s.offset + 1)).andThen
          (change (remember t))))
        { s with
          candidate := (suggested passing).or (suggested departing)
          marks := marks', stream, state := target } := by
    rw [hstep, look]
    simp only [hpeek, meet, advance, htransition, htarget]
    exact andThen_of_none hrun
  rw [change_andThen] at hlook
  refine ⟨target, hgoes, hexists, fun hdead => ?_, fun halive => ?_⟩
  · rw [hlook, if_pos hdead, conclude_eq]
    exact ⟨_, rfl⟩
  · obtain ⟨marks'', hrun'⟩ := executeList_benign
      { s with
        candidate := (suggested passing).or (suggested departing)
        marks := marks', stream, state := target, offset := s.offset + 1 }
      (s.offset + 1) harriving hbenign'
    have hsuggests : t.passing? s.state key = if t.isFinal target then
        (suggested arriving).or ((suggested passing).or (suggested departing)) else none := by
      simp only [passing?, hgoes, hway, suggested_append]
    rw [if_neg halive, andThen_of_none hrun'] at hlook
    refine ⟨_, hlook, ?_⟩
    rw [remember_eq, hsuggests]
    exact ⟨rfl, rfl, rfl, rfl⟩

end Step

/-! ## A scan -/

/-- A scan on its way through a text. -/
structure Follows (t : Tables) (start : StateId) (text : Bytes) (rest : List Item)
    (s : Scan) : Prop where
  content : s.stream.content = text.map .byte ++ rest
  offset : s.offset ≤ text.length
  state : t.reached start (text.take s.offset) = .ok s.state
  alive : ¬t.MeetsDead start (text.take s.offset)
  longest : t.Noted start text s.offset s.longest

lemma follows_start {start : StateId} {text : Bytes} {rest : List Item} {stream : Stream}
    (hcontent : stream.content = text.map .byte ++ rest) :
    Follows t start text rest { stream, state := start } where
  content := hcontent
  offset := Nat.zero_le _
  state := rfl
  alive := by
    rintro ⟨n, hn, -⟩
    exact absurd hn (Nat.not_lt_zero n)
  longest := by
    intro shorter hle
    obtain rfl : shorter = 0 := Nat.le_zero.1 hle
    rfl

section Whole

variable {start : StateId} {text : Bytes} {rest : List Item}

/-- What was noted of a text that is not followed any further is the longest token. -/
lemma isLongest_outcomeOf {length : Nat} {found : Option (ElementId × Nat)}
    (hnoted : t.Noted start text length found)
    (hsame : ∀ shorter ≤ length, t.candidate? start text shorter = t.midway? start text shorter)
    (hlonger : ∀ longer > length, t.candidate? start text longer = none) :
    t.IsLongest start text (outcomeOf found) := by
  cases found with
  | none =>
    intro any
    by_cases hle : any ≤ length
    · rw [hsame any hle, hnoted any hle]
    · exact hlonger any (Nat.lt_of_not_le hle)
  | some found =>
    obtain ⟨token, found⟩ := found
    obtain ⟨hle, htoken, hrest⟩ := hnoted
    have hpos : found ≠ 0 := by
      rintro rfl
      cases htoken
    rw [outcomeOf, Outcome.accept, if_neg hpos]
    refine ⟨by rw [hsame found hle, htoken], fun longer hgt => ?_⟩
    by_cases hle' : longer ≤ length
    · rw [hsame longer hle', hrest longer hgt hle']
    · exact hlonger longer (Nat.lt_of_not_le hle')

/-- In front of a byte that leads to the dead state, what was noted is the longest token. -/
lemma Follows.dies {s : Scan} (h : Follows t start text rest s)
    (hdead : t.MeetsDead start (text.take (s.offset + 1))) :
    t.IsLongest start text (outcomeOf s.longest) := by
  have hsame (length : Nat) : t.candidate? start text length = t.midway? start text length := by
    have hmeets := hdead.of_take
    unfold candidate?
    split
    · exact if_neg fun hend => hend.2 hmeets
    · rfl
  refine isLongest_outcomeOf h.longest (fun shorter _ => hsame shorter) fun longer hgt => ?_
  rw [hsame]
  exact hdead.midway? hgt

/-- Where the text ends, so is what its end suggests, or else what was noted. -/
lemma Follows.ends {s : Scan} (h : Follows t start text rest s) (hend : s.offset = text.length)
    (hpos : s.offset ≠ 0) : t.IsLongest start text
      (outcomeOf (((t.ending? s.state).map (·, s.offset)).or s.longest)) := by
  have hreached : t.reached start text = .ok s.state := by
    have hstate := h.state
    rwa [hend, List.take_length] at hstate
  have halive : ¬t.MeetsDead start text := by
    have halive := h.alive
    rwa [hend, List.take_length] at halive
  have hwhole : t.candidate? start text text.length =
      (t.ending? s.state).or (t.midway? start text text.length) := by
    rw [candidate?, hreached]
    exact if_pos ⟨rfl, halive⟩
  have hpart {length : Nat} (hne : length ≠ text.length) :
      t.candidate? start text length = t.midway? start text length := by
    simp only [candidate?, hreached]
    exact if_neg fun hend => hne hend.1
  have hnoted := h.longest
  rw [hend] at hpos hnoted ⊢
  cases hsuggests : t.ending? s.state with
  | some token =>
    rw [Option.map_some, Option.some_or, outcomeOf, Outcome.accept, if_neg hpos]
    exact ⟨by rw [hwhole, hsuggests, Option.some_or], fun longer => candidate?_of_lt⟩
  | none =>
    refine isLongest_outcomeOf hnoted (fun shorter _ => ?_) fun longer => candidate?_of_lt
    by_cases hshorter : shorter = text.length
    · rw [hshorter, hwhole, hsuggests, Option.none_or]
    · exact hpart hshorter

/-- A byte of the text is followed. -/
lemma Follows.succ {s u : Scan} {key : UInt8} {target : StateId} (h : Follows t start text rest s)
    (hkey : text[s.offset]? = some key) (hgoes : t.target s.state key = .ok target)
    (halive : target ≠ t.dead) (hcontent : u.stream.content = s.stream.content)
    (hoffset : u.offset = s.offset + 1) (hstate : u.state = target)
    (hlongest : u.longest = ((t.passing? s.state key).map (·, s.offset + 1)).or s.longest) :
    Follows t start text rest u := by
  have hlt : s.offset < text.length := (List.getElem?_eq_some_iff.1 hkey).1
  have hreached : t.reached start (text.take (s.offset + 1)) = .ok target :=
    (reached_take_succ hkey h.state).trans hgoes
  have hlives : ¬t.MeetsDead start (text.take (s.offset + 1)) := by
    rw [meetsDead_take_succ hlt, hreached]
    rintro (hbefore | hnow)
    · exact h.alive hbefore
    · exact halive (Except.ok.inj hnow)
  exact {
    content := hcontent.trans h.content
    offset := by
      rw [hoffset]
      exact hlt
    state := by rw [hoffset, hstate, hreached]
    alive := by rwa [hoffset]
    longest := by
      rw [hoffset, hlongest, ← midway?_succ hkey h.state hlives]
      exact h.longest.succ }

variable (hfits : t.Fits) (hproceeds : ∀ action ∈ t.actions, action.Proceeds)
  (hstart : start < t.states) (hpos : text ≠ []) (hrest : ∀ key, rest.head? ≠ some (.byte key))

include hfits hproceeds hpos hrest

/-- What a step on the way through the text comes to. -/
lemma Follows.step {s : Scan} (h : Follows t start text rest s) (hstate : s.state < t.states) :
    (∃ u, Scan.step t s = .ok none u ∧ Follows t start text rest u ∧ u.state < t.states) ∨
      (∃ outcome u, Scan.step t s = .ok (some outcome) u ∧ t.IsLongest start text outcome) ∨
      ∃ message u, Scan.step t s = .error (.error (.unreadable message)) u ∧
        .failure message ∈ s.stream.source := by
  have hserves := hfits.serves hstate
  rcases Stream.peek_cases s.offset s.stream with
    ⟨stream, hpeek, hcontinues⟩ | ⟨message, stream, hpeek, -, hmem⟩
  · rw [h.content] at hpeek
    rcases Nat.lt_or_eq_of_le h.offset with hlt | hend
    · have hkey : text[s.offset]? = some text[s.offset] := List.getElem?_eq_getElem hlt
      rw [List.getElem?_append_left (by simpa using hlt), List.getElem?_map, hkey,
        Option.map_some] at hpeek
      obtain ⟨target, hgoes, hexists, hdies, hgoesOn⟩ := step_byte hserves hproceeds hpeek
      by_cases hdead : target = t.dead
      · obtain ⟨u, hstep⟩ := hdies hdead
        have hreached := reached_take_succ hkey h.state
        refine .inr (.inl ⟨_, u, hstep, h.dies ?_⟩)
        rw [meetsDead_take_succ hlt, hreached, hgoes, hdead]
        exact .inr rfl
      · obtain ⟨u, hstep, hstream, hoffset, hu, hlongest⟩ := hgoesOn hdead
        refine .inl ⟨u, hstep, h.succ hkey hgoes hdead ?_ hoffset hu hlongest, hu ▸ hexists⟩
        rw [hstream, hcontinues.content]
    · have hoffset : s.offset ≠ 0 := by
        rw [hend]
        exact mt List.length_eq_zero_iff.1 hpos
      have hitem : (text.map Item.byte ++ rest)[s.offset]? = rest.head? := by
        rw [hend, List.getElem?_append_right (by simp), List.head?_eq_getElem?]
        simp
      rw [hitem] at hpeek
      obtain ⟨u, hstep⟩ := step_ends hserves hproceeds hpeek hrest hoffset
      exact .inr (.inl ⟨_, u, hstep, h.ends hend hoffset⟩)
  · obtain ⟨u, hstep⟩ := step_fails hserves hproceeds hpeek
    exact .inr (.inr ⟨message, u, hstep, hmem⟩)

/-- A scan finds the longest token of the text, unless the source fails. -/
lemma Follows.run {s : Scan} (h : Follows t start text rest s) (hstate : s.state < t.states) :
    (∃ outcome u, Scan.run t s = .ok outcome u ∧ t.IsLongest start text outcome) ∨
      ∃ message u, Scan.run t s = .error (.error (.unreadable message)) u ∧
        .failure message ∈ s.stream.source := by
  have hstep := h.step hfits hproceeds hpos hrest hstate
  fun_induction Scan.run t s with
  | case1 s u hu ih =>
    rw [hu] at hstep
    rcases hstep with ⟨_, ⟨⟩, hfollows, hexists⟩ | ⟨_, _, ⟨⟩, -⟩ | ⟨_, _, ⟨⟩, -⟩
    rcases ih hfollows hexists (hfollows.step hfits hproceeds hpos hrest hexists) with
      hfound | ⟨message, v, hfails, hmem⟩
    · exact .inl hfound
    · have hcontinues := step_continues (t := t) s
      rw [hu] at hcontinues
      exact .inr ⟨message, v, hfails, hcontinues.failures message hmem⟩
  | case2 s outcome u hu =>
    rw [hu] at hstep
    rcases hstep with ⟨_, ⟨⟩, -⟩ | ⟨_, _, ⟨⟩, hlongest⟩ | ⟨_, _, ⟨⟩, -⟩
    exact .inl ⟨outcome, u, rfl, hlongest⟩
  | case3 s e u hu =>
    rw [hu] at hstep
    rcases hstep with ⟨_, ⟨⟩, -⟩ | ⟨_, _, ⟨⟩, -⟩ | ⟨message, _, ⟨⟩, hmem⟩
    exact .inr ⟨message, u, rfl, hmem⟩

end Whole

end Scan

variable {t : Tables} {region : RegionId} {s : Scanner} {stream : Stream} {start : StateId}
  {text : Bytes} {rest : List Item}

/-- In front of a text that a tree or the end of the stream ends, a scan with valid tables in which
no action accepts finds the longest prefix that may be a token, or that there is none, unless the
source of the stream fails. -/
theorem run_longest (hvalid : t.validate = .ok ())
    (hproceeds : ∀ action ∈ t.actions, action.Proceeds) (hentry : t.entries[region]? = some start)
    (hs : s.stream = some stream) (hcontent : stream.content = text.map .byte ++ rest)
    (hpos : text ≠ []) (hrest : ∀ key, rest.head? ≠ some (.byte key)) :
    (∃ outcome u, run t region s = .ok outcome u ∧
      ∀ other, t.IsLongest start text other ↔ other = outcome) ∨
        Failed stream (run t region s) := by
  have hfits := Tables.fits_of_validate hvalid
  rw [run_eq_scan hentry hs]
  rcases (Scan.follows_start hcontent).run hfits hproceeds hpos hrest
    (hfits.entry region start hentry) with ⟨outcome, u, hrun, hlongest⟩ | ⟨message, u, hrun, hmem⟩
  · rw [hrun]
    exact .inl ⟨outcome, _, rfl, fun other => ⟨hlongest.unique, fun hsame => hsame ▸ hlongest⟩⟩
  · rw [hrun]
    exact .inr ⟨message, _, rfl, hmem⟩

/-- A scanner for the words `a` and `abc`. -/
def wordScanner : Tables where
  lists := #[0, 1, 0, 1, 1]
  keyOffsets := #[0, 0, 2, 1, 0]
  keys := #[97, 98, 99]
  singles := #[0, 1, 1, 1, 0]
  ranges := #[0, 0, 0, 0, 0]
  transitions := #[0, 1, 3, 5, 7]
  targets := #[0, 3, 0, 4, 0, 2, 0, 0]
  onTransition := #[0, 0, 0, 0, 0, 0, 0, 0]
  onArrival := #[0, 0, 0, 1, 3]
  onDeparture := #[0, 0, 0, 0, 0]
  onEnd := #[0, 0, 0, 0, 0]
  entries := #[1]
  actions := #[.candidate 1, .candidate 2]
  states := 5
  start := 1
  firstFinal := 3
  dead := 0

/-- In front of `abd`, the scanner falls back to the word `a`. -/
theorem run_longest_word :
    ∃ u, run wordScanner 0 { stream := some (Stream.ofSource [.data [97, 98], .data [100]]) } =
      .ok (.token 1 1) u := by
  rcases @run_longest wordScanner 0
    { stream := some (Stream.ofSource [.data [97, 98], .data [100]]) } _ 1 [97, 98, 100] []
    (by decide +kernel) (by decide) rfl rfl rfl (by decide) nofun with
    ⟨outcome, u, hrun, hlongest⟩ | ⟨message, u, -, hmem⟩
  · refine ⟨u, hrun.trans ?_⟩
    have hword : wordScanner.IsLongest 1 [97, 98, 100] (.token 1 1) := by
      have hbelow : ∀ longer < 4, 1 < longer →
          wordScanner.candidate? 1 [97, 98, 100] longer = none := by decide +kernel
      refine ⟨by decide +kernel, fun longer hgt => ?_⟩
      by_cases hle : longer < 4
      · exact hbelow longer hle hgt
      · exact Tables.candidate?_of_lt (Nat.le_of_not_lt hle)
    rw [(hlongest _).1 hword]
  · simp [Stream.ofSource] at hmem

/-- A scanner whose only byte leads into the dead state, which is final. -/
def mortalScanner : Tables where
  lists := #[0, 1, 0]
  keyOffsets := #[0, 0]
  keys := #[97]
  singles := #[0, 1]
  ranges := #[0, 0]
  transitions := #[0, 1]
  targets := #[0, 0, 0]
  onTransition := #[0, 1, 0]
  onArrival := #[0, 0]
  onDeparture := #[0, 0]
  onEnd := #[0, 0]
  entries := #[1]
  actions := #[.candidate 1]
  states := 2
  start := 1
  firstFinal := 0
  dead := 0

/-- The way into the dead state may suggest a token, and the dead state may be final: no token is
found.  Nor is one found in a text whose source fails. -/
theorem run_stops_short : mortalScanner.validate = .ok () ∧
    (∀ action ∈ mortalScanner.actions, action.Proceeds) ∧
    mortalScanner.isFinal mortalScanner.dead ∧
    mortalScanner.reached 1 [97] = .ok mortalScanner.dead ∧
    mortalScanner.passing? 1 97 = some 1 ∧
    told (run mortalScanner 0 { stream := some (Stream.ofBytes [97]) }) = .ok .noToken ∧
    (Stream.ofSource [.failure "lost", .data [97]]).content = (Stream.ofBytes [97]).content ∧
    told (run mortalScanner 0 {
      stream := some (Stream.ofSource [.failure "lost", .data [97]]) }) =
        .error (.error (.unreadable "lost")) := by
  decide +kernel

end Rewind.Scanner
