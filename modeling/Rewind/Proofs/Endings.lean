import Mathlib.Data.List.Chain
import Rewind.Proofs.Arming
import Rewind.Proofs.Contributions
import Rewind.Proofs.Debts
import Rewind.Proofs.Garbage
import Rewind.Scanner.Validation

/-!
# Ends of the input

Where its input has ended, a run lets its caller act, once, before it makes a token of the end.  A
caller who only looks on keeps a `Past`: of the times when it was told that the input had ended, and
of the times when something was taken from the stream.  What is taken back is no longer past, and a
log that is given up leaves the past as it is for good.

The run knows no more of this past than a single bit, whatever the region in which the end was met:
whether it was told that the input had ended, and nothing was taken since.
-/

namespace Rewind.Run

open Attempt Op

/-! ## The past of an input -/

/-- Something that happened to the input. -/
inductive Deed where
  /-- Its end was met in a region, and the caller was told. -/
  | met (region : RegionId)
  /-- A token or a tree was taken from it. -/
  | took
  deriving DecidableEq, Repr

/-- What happened to the input and was not taken back, the latest first.  With each deed goes the
length that the log must have for it to stand: one that is shorter does not tell of it any more. -/
abbrev Past := List (Deed × Nat)

/-- The end of the input was met, and nothing was taken since. -/
def Unspent (deeds : List Deed) : Prop :=
  ∃ newer region older, deeds = newer ++ .met region :: older ∧ .took ∉ newer

namespace Past

/-- What happened. -/
def deeds (past : Past) : List Deed :=
  past.map Prod.fst

/-- What still stands when the log is as long as told. -/
def upTo (past : Past) (length : Nat) : Past :=
  past.dropWhile fun deed => length < deed.2

/-- The past behind a move.  A log that is shorter leaves less of the past; if it is not, then what
the stream holds less was taken from it. -/
def note (past : Past) (before after : Run) : Past :=
  if after.log.length < before.log.length then past.upTo after.log.length
  else if after.content.length < before.content.length then
    (.took, before.log.length + 1) :: past
  else past

/-- The past behind moves of a parse that passes through runs. -/
def notes : Past → Run → List Run → Past
  | past, _, [] => past
  | past, before, after :: later => notes (past.note before after) after later

/-- The past behind a status, at which the log is as long as told. -/
def hear (past : Past) (length : Nat) : Option Status → Past
  | some (.preEof region) => (.met region, length) :: past
  | _ => past

/-- The past behind a request and its reply.  A run that is over is not parsed any further. -/
def after (past : Past) (m : Machine) (turns : Nat) (r s : Run) :
    Request → Except Error Reply → Past
  | .parse entry, .ok (.status status) =>
    (past.notes r (passed m turns entry r)).hear s.log.length (some status)
  | .parse entry, _ => if r.aborted then past else past.notes r (passed m turns entry r ++ [s])
  | .undoTo _, _ => past.note r s
  | .giveUpLog, _ => past.map fun deed => (deed.1, 0)
  | _, _ => past

/-- The end of the input is the latest that happened. -/
def isOpen : Past → Bool
  | (.met _, _) :: _ => true
  | _ => false

/-- The mark agrees with the past, and so it will wherever the log is taken back to. -/
def Foretells (past : Past) (ran : Bool) : List Record → Prop
  | [] => ran = past.isOpen
  | record :: older => ran = past.isOpen ∧
    (past.upTo older.length).Foretells (record.ranBefore ran) older

variable {past : Past} {ran : Bool} {newer older records : List Record} {length : Nat}

lemma isOpen_iff : past.isOpen = true ↔ Unspent past.deeds := by
  constructor
  · intro hopen
    rcases past with _ | ⟨⟨region | _, mark⟩, rest⟩
    · cases hopen
    · exact ⟨[], region, deeds rest, rfl, by simp⟩
    · cases hopen
  · rintro ⟨newer, region, older, hdeeds, hnone⟩
    rcases past with _ | ⟨⟨_ | _, mark⟩, rest⟩
    · simp [deeds] at hdeeds
    · rfl
    · cases newer with
      | nil => simp [deeds] at hdeeds
      | cons deed newer =>
        obtain ⟨rfl, -⟩ := List.cons.inj hdeeds
        exact absurd List.mem_cons_self hnone

/-! ### Taking back -/

lemma upTo_of_bounded (h : ∀ deed ∈ past, deed.2 ≤ length) : past.upTo length = past := by
  cases past with
  | nil => rfl
  | cons deed rest =>
    have hle := h deed List.mem_cons_self
    exact List.dropWhile_cons_of_neg (by simpa using hle)

lemma upTo_cons_of_lt {deed : Deed × Nat} (h : length < deed.2) :
    upTo (deed :: past) length = past.upTo length :=
  List.dropWhile_cons_of_pos (by simpa using h)

lemma upTo_upTo {shorter : Nat} (h : shorter ≤ length) :
    (past.upTo length).upTo shorter = past.upTo shorter := by
  induction past with
  | nil => rfl
  | cons deed rest ih =>
    by_cases hlt : length < deed.2
    · rw [upTo_cons_of_lt hlt, upTo_cons_of_lt (Nat.lt_of_le_of_lt h hlt), ih]
    · rw [show upTo (deed :: rest) length = deed :: rest from
        List.dropWhile_cons_of_neg (by simpa using hlt)]

lemma upTo_append {newer older : Past} (hnewer : ∀ deed ∈ newer, length < deed.2)
    (holder : ∀ deed ∈ older, deed.2 ≤ length) : upTo (newer ++ older) length = older := by
  induction newer with
  | nil => exact upTo_of_bounded holder
  | cons deed newer ih =>
    rw [List.cons_append, upTo_cons_of_lt (hnewer deed List.mem_cons_self)]
    exact ih fun x hx => hnewer x (List.mem_cons_of_mem _ hx)

lemma bounded_upTo (hsorted : past.Pairwise fun later earlier => earlier.2 ≤ later.2) :
    ∀ deed ∈ past.upTo length, deed.2 ≤ length := by
  induction hsorted with
  | nil => exact nofun
  | @cons deed rest hle _ ih =>
    by_cases hlt : length < deed.2
    · rw [upTo_cons_of_lt hlt]
      exact ih
    · rw [show upTo (deed :: rest) length = deed :: rest from
        List.dropWhile_cons_of_neg (by simpa using hlt)]
      intro x hx
      rcases List.mem_cons.1 hx with rfl | hx
      · exact Nat.le_of_not_lt hlt
      · exact Nat.le_trans (hle x hx) (Nat.le_of_not_lt hlt)

lemma suffix_upTo (past : Past) (length : Nat) : past.upTo length <:+ past :=
  List.dropWhile_suffix _

/-! ### What is foretold -/

lemma foretells_cons {record : Record} :
    past.Foretells ran (record :: older) ↔
      ran = past.isOpen ∧ (past.upTo older.length).Foretells (record.ranBefore ran) older :=
  Iff.rfl

lemma Foretells.isOpen (h : past.Foretells ran records) : ran = past.isOpen := by
  cases records with
  | nil => exact h
  | cons record older => exact h.1

/-- Records that do not tell of the mark make no difference. -/
lemma Foretells.append (h : past.Foretells ran older)
    (hbounded : ∀ deed ∈ past, deed.2 ≤ older.length)
    (hnewer : ∀ record ∈ newer, record.isUnmarked = true) :
    past.Foretells ran (newer ++ older) := by
  induction newer with
  | nil => exact h
  | cons record newer ih =>
    have hrest := ih fun x hx => hnewer x (List.mem_cons_of_mem _ hx)
    rw [List.cons_append, foretells_cons,
      Record.ranBefore_unmarked (hnewer record List.mem_cons_self), upTo_of_bounded]
    · exact ⟨h.isOpen, hrest⟩
    · intro deed hdeed
      have hle := hbounded deed hdeed
      rw [List.length_append]
      omega

/-- A deed that no log so short tells of makes no difference. -/
lemma Foretells.took {mark : Nat} (h : past.Foretells false records)
    (hmark : records.length < mark) : Foretells ((.took, mark) :: past) false records := by
  cases records with
  | nil => rfl
  | cons record older =>
    rw [List.length_cons] at hmark
    refine ⟨rfl, ?_⟩
    rw [upTo_cons_of_lt (Nat.lt_of_succ_lt hmark)]
    exact h.2

/-- What is written down where something is taken. -/
def noted (ran : Bool) : List Record :=
  if ran then [.endActionMarked true] else []

/-- What was taken clears the mark, and is taken back before the mark is set again. -/
lemma Foretells.consumed (h : past.Foretells ran older)
    (hbounded : ∀ deed ∈ past, deed.2 ≤ older.length)
    (hnewer : ∀ record ∈ newer, record.isUnmarked = true) :
    Foretells ((.took, older.length + 1) :: past) false (newer ++ (noted ran ++ older)) := by
  induction newer with
  | nil =>
    cases ran with
    | true =>
      rw [noted, if_pos rfl, List.nil_append, List.singleton_append, foretells_cons,
        upTo_cons_of_lt (Nat.lt_succ_self _), upTo_of_bounded hbounded]
      exact ⟨rfl, h⟩
    | false => exact h.took (Nat.lt_succ_self _)
  | cons record newer ih =>
    have hrest := ih fun x hx => hnewer x (List.mem_cons_of_mem _ hx)
    rw [List.cons_append, foretells_cons,
      Record.ranBefore_unmarked (hnewer record List.mem_cons_self)]
    refine ⟨rfl, ?_⟩
    -- Only if nothing was written before does the log not tell of what was taken.
    by_cases hgrown : older.length < (newer ++ (noted ran ++ older)).length
    · rw [upTo_of_bounded]
      · exact hrest
      · intro deed hdeed
        rcases List.mem_cons.1 hdeed with rfl | hdeed
        · exact hgrown
        · exact Nat.le_trans (hbounded deed hdeed) (Nat.le_of_lt hgrown)
    · simp only [List.length_append] at hgrown
      obtain rfl : newer = [] := List.eq_nil_of_length_eq_zero (by omega)
      cases ran with
      | true => simp [noted] at hgrown
      | false =>
        have hsame : [] ++ (noted false ++ older) = older := rfl
        rw [hsame, upTo_cons_of_lt (Nat.lt_succ_self _), upTo_of_bounded hbounded]
        exact h

/-- Going back leaves what was foretold. -/
lemma Foretells.back (h : past.Foretells ran (newer ++ older))
    (hsorted : past.Pairwise fun later earlier => earlier.2 ≤ later.2)
    (hbounded : ∀ deed ∈ past, deed.2 ≤ (newer ++ older).length) :
    (past.upTo older.length).Foretells (newer.foldl Record.ranBefore ran) older := by
  induction newer generalizing past ran with
  | nil =>
    rw [List.nil_append] at h hbounded
    rw [upTo_of_bounded hbounded]
    exact h
  | cons record newer ih =>
    have hrest := ih h.2 (hsorted.sublist (suffix_upTo past _).sublist) (bounded_upTo hsorted)
    rw [List.foldl_cons]
    rwa [upTo_upTo (by simp)] at hrest

end Past

/-! ## What moves make of the past -/

/-- The mark agrees with the past, and no two ends were met with nothing taken between them. -/
structure Attests (past : Past) (r : Run) : Prop where
  ran : r.endActionRan = past.isOpen
  apart : past.deeds.IsChain fun later earlier => later = .took ∨ earlier = .took

/-- The mark will agree with the past wherever the log is taken back to, too. -/
structure Chronicles (past : Past) (r : Run) : Prop extends Attests past r where
  foretells : past.Foretells r.endActionRan r.log.records
  bounded : ∀ deed ∈ past, deed.2 ≤ r.log.length
  sorted : past.Pairwise fun later earlier => earlier.2 ≤ later.2

variable {m : Machine} {start r s : Run} {past : Past} {turns : Nat} {request : Request}
  {answer : Except Error Reply} {a : Option Status}

lemma Attests.took (h : Attests past r) (mark : Nat) (hran : s.endActionRan = false) :
    Attests ((.took, mark) :: past) s := by
  refine ⟨hran, ?_⟩
  have hapart := h.apart
  cases past with
  | nil => exact .singleton _
  | cons deed rest => exact .cons_cons (.inl rfl) hapart

lemma Attests.of_same (h : Attests past r) (hran : s.endActionRan = r.endActionRan) :
    Attests past s :=
  ⟨hran.trans h.ran, h.apart⟩

namespace Chronicles

lemma of_same (h : Chronicles past r) (hran : s.endActionRan = r.endActionRan)
    (hwritten : Written Record.isUnmarked r.log.records s) : Chronicles past s := by
  obtain ⟨newer, hlog, hnewer⟩ := hwritten
  refine ⟨h.toAttests.of_same hran, ?_, fun deed hdeed => ?_, h.sorted⟩
  · rw [hran, hlog]
    exact h.foretells.append h.bounded hnewer
  · have hle : deed.2 ≤ r.log.records.length := h.bounded deed hdeed
    change deed.2 ≤ s.log.records.length
    rw [hlog, List.length_append]
    omega

lemma consumes (h : Chronicles past r) (hs : Consumes r s) (hgrows : r.log.length < s.log.length) :
    Chronicles ((.took, r.log.length + 1) :: past) s := by
  obtain ⟨newer, hlog, hnewer⟩ := hs.written
  have hmarked : (marked r).log.records = Past.noted r.endActionRan ++ r.log.records := by
    unfold marked Past.noted
    split <;> rfl
  refine ⟨h.toAttests.took _ hs.ran, ?_, fun deed hdeed => ?_,
    .cons (fun deed hdeed => ?_) h.sorted⟩
  · rw [hs.ran, hlog, hmarked]
    exact h.foretells.consumed h.bounded hnewer
  · rcases List.mem_cons.1 hdeed with rfl | hdeed
    · exact hgrows
    · exact Nat.le_trans (h.bounded deed hdeed) (Nat.le_of_lt hgrows)
  · exact Nat.le_succ_of_le (h.bounded deed hdeed)

lemma meets {region : RegionId} (h : Chronicles past r) (hs : MeetsEnd m region r s) :
    Chronicles ((.met region, s.log.length) :: past) s := by
  have hlength : s.log.length = r.log.length + 1 := by rw [hs.log]; rfl
  have hopen : past.isOpen = false := h.ran.symm.trans hs.due
  have hchain : Past.deeds ((.met region, s.log.length) :: past) |>.IsChain
      fun later earlier => later = .took ∨ earlier = .took := by
    have hapart := h.apart
    rcases past with _ | ⟨⟨_ | _, mark⟩, rest⟩
    · exact .singleton _
    · cases hopen
    · exact .cons_cons (.inr rfl) hapart
  refine ⟨⟨hs.ran, hchain⟩, ?_, fun deed hdeed => ?_, .cons (fun deed hdeed => ?_) h.sorted⟩
  · rw [hs.ran, hs.log]
    refine ⟨rfl, ?_⟩
    have hforetold := h.foretells
    rw [hs.due] at hforetold
    rw [Past.upTo_cons_of_lt (Nat.lt_succ_self _), Past.upTo_of_bounded (by exact h.bounded)]
    exact hforetold
  · rcases List.mem_cons.1 hdeed with rfl | hdeed
    · exact Nat.le_refl _
    · exact hlength ▸ Nat.le_succ_of_le (h.bounded deed hdeed)
  · exact hlength ▸ Nat.le_succ_of_le (h.bounded deed hdeed)

lemma rolls (h : Chronicles past r) (hs : Rolls r s) : Chronicles (past.note r s) s := by
  obtain ⟨newer, hlog, hran, hcontent⟩ := hs
  have hlength : r.log.length = newer.length + s.log.length := by
    change r.log.records.length = _
    rw [hlog, List.length_append]
    rfl
  have hbounded := h.bounded
  have hforetold := h.foretells
  have hnote : past.note r s = past.upTo s.log.length := by
    unfold Past.note
    cases newer with
    | nil =>
      have hsame : r.log.length = s.log.length := by simpa using hlength
      rw [hcontent rfl, if_neg (Nat.not_lt.2 (Nat.le_of_eq hsame)), if_neg (Nat.lt_irrefl _),
        Past.upTo_of_bounded (hsame ▸ hbounded)]
    | cons record newer =>
      rw [if_pos]
      rw [hlength, List.length_cons]
      omega
  have hsuffix := Past.suffix_upTo past s.log.length
  rw [hlog] at hforetold
  have hback := hforetold.back h.sorted (by
    rw [← hlog]
    exact hbounded)
  rw [hnote]
  refine ⟨⟨?_, ?_⟩, ?_, Past.bounded_upTo h.sorted, h.sorted.sublist hsuffix.sublist⟩
  · exact hran.trans hback.isOpen
  · obtain ⟨newest, hpast⟩ := hsuffix
    have hapart := h.apart
    rw [← hpast, Past.deeds, List.map_append] at hapart
    exact hapart.right_of_append
  · rw [hran]
    exact hback

end Chronicles

lemma Past.note_spares (h : Spares r s) : past.note r s = past := by
  rw [Past.note, if_neg (Nat.not_lt.2 h.length_le), h.content, if_neg (Nat.lt_irrefl _)]

lemma Past.note_consumes (h : Consumes r s) :
    past.note r s = (.took, r.log.length + 1) :: past := by
  rw [Past.note, if_neg (Nat.not_lt.2 h.length_le), if_pos h.shorter]

lemma Past.hear_unended {length : Nat} (h : Unended a) : past.hear length a = past := by
  unfold Past.hear
  split
  · exact absurd rfl (h _)
  · rfl

/-- What a move makes of the past, and what is left where it fails. -/
structure Continues (past : Past) (r : Run) (x : Result (Option Status)) : Prop where
  answered : ∀ a s, x = .ok a s → Chronicles ((past.note r s).hear s.log.length a) s
  failed : ∀ e s, x = .error (.error e) s →
    Attests (past.note r s) s ∧ (e.isFatal = false → Chronicles (past.note r s) s)

lemma Chronicles.touches {x : Result (Option Status)} (h : Chronicles past r)
    (hx : Touches m r x) : Continues past r x := by
  constructor
  · rintro a s rfl
    cases hx with
    | spared hs ha =>
      rw [Past.note_spares hs, Past.hear_unended ha]
      exact h.of_same hs.ran hs.written
    | consumed hs hgrows ha =>
      rw [Past.note_consumes hs, Past.hear_unended ha]
      exact h.consumes hs hgrows
    | met hs =>
      have hnote : past.note r s = past := by
        have hlength : s.log.length = r.log.length + 1 := by rw [hs.log]; rfl
        rw [Past.note, hs.content, if_neg (by omega), if_neg (Nat.lt_irrefl _)]
      rw [hnote]
      exact h.meets hs
  · rintro e s rfl
    cases hx with
    | failed hs =>
      rcases hs with hs | ⟨hs, hfatal⟩
      · rw [Past.note_spares hs]
        have hsame := h.of_same hs.ran hs.written
        exact ⟨hsame.toAttests, fun _ => hsame⟩
      · rw [Past.note_consumes hs]
        refine ⟨h.toAttests.took _ hs.ran, fun hmild => ?_⟩
        rw [hfatal e rfl] at hmild
        cases hmild

lemma Chronicles.unwinds (h : Chronicles past r) (goal : Goal) :
    Continues past r (unwind m goal r.log.records r) := by
  have hrolls := rolls_unwind (m := m) goal (rfl : r.log.records = r.log.records)
  constructor
  · intro a s hrun
    rw [hrun] at hrolls
    rw [Past.hear_unended (unended_unwind _ _ hrun)]
    exact h.rolls hrolls
  · intro e s hrun
    rw [hrun] at hrolls
    exact ⟨(h.rolls hrolls).toAttests, fun _ => h.rolls hrolls⟩

/-- A turn goes forward or back, or leaves everything as it is. -/
lemma Chronicles.turn (h : Chronicles past r) : Continues past r (turn m r) := by
  have hstays {x : Result (Option Status)} (hx : x = .ok (some .done) r ∨
      ∃ e, x = .error (.error e) r) : Continues past r x := by
    refine h.touches (m := m) ?_
    rcases hx with rfl | ⟨e, rfl⟩
    · exact .spared (.refl r) fun _ h => by cases h
    · exact .failed (.inl (.refl r))
  rw [Run.turn, get_bind]
  cases r.point with
  | start => exact h.touches (touches_goForward m r)
  | reverse goal => exact h.unwinds goal
  | done => exact hstays (.inl rfl)
  | _ => exact hstays (.inr ⟨_, rfl⟩)

/-! ## Parses -/

/-- What an operation that passes through runs makes of the past, and what is left where it fails.
-/
structure Narrates (past : Past) (runs : List Run) (op : Op Status) (r : Run) : Prop where
  answered : ∀ status s, op r = .ok status s →
    Chronicles ((past.notes r runs).hear s.log.length (some status)) s
  failed : ∀ e s, op r = .error (.error e) s → Attests (past.notes r (runs ++ [s])) s ∧
    (e.isFatal = false → Chronicles (past.notes r (runs ++ [s])) s)

/-- Takes turns behind a first move, unless that gives control back. -/
def goOn (m : Machine) (turns : Nat) (first : Op (Option Status)) : Op Status := do
  match ← first with
  | some status => return status
  | none => takeTurns m turns

/-- The runs that are passed through by a first move and the turns behind it. -/
def passedBy (m : Machine) (turns : Nat) : Result (Option Status) → List Run
  | .ok none s => s :: turnsTaken m turns s
  | .ok (some _) s => [s]
  | .error _ _ => []

/-- Turns go on with the past that the first move left. -/
lemma Continues.goOn {first : Op (Option Status)} (h : Continues past r (first r))
    (hturns : ∀ past t, Chronicles past t →
      Narrates past (turnsTaken m turns t) (takeTurns m turns) t) :
    Narrates past (passedBy m turns (first r)) (goOn m turns first) r := by
  obtain ⟨hanswered, hfailed⟩ := h
  cases hfirst : first r with
  | error x t =>
    refine ⟨fun status s hrun => ?_, fun e s hrun => ?_⟩ <;>
      rw [Run.goOn, bind_error hfirst] at hrun <;> cases hrun
    exact hfailed _ _ hfirst
  | ok a t =>
    have ht := hanswered a t hfirst
    cases a with
    | some status =>
      refine ⟨fun status' s hrun => ?_, fun e s hrun => ?_⟩ <;>
        rw [Run.goOn, bind_ok hfirst] at hrun <;> cases hrun
      exact ht
    | none =>
      obtain ⟨hanswered', hfailed'⟩ := hturns _ t ht
      refine ⟨fun status s hrun => ?_, fun e s hrun => ?_⟩ <;>
        rw [Run.goOn, bind_ok hfirst] at hrun
      · exact hanswered' status s hrun
      · exact hfailed' e s hrun

lemma Chronicles.takeTurns (h : Chronicles past r) :
    Narrates past (turnsTaken m turns r) (takeTurns m turns) r := by
  induction turns generalizing past r with
  | zero => refine ⟨fun status s hrun => ?_, fun e s hrun => ?_⟩ <;> cases hrun
  | succ turns ih => exact h.turn.goOn fun _ _ ht => ih ht

lemma Chronicles.resume {entry : Entry} (h : Chronicles past r) :
    Narrates past (passed m turns entry r) (resume m turns entry) r :=
  (h.touches (touches_enter m entry r)).goOn fun _ _ ht => ht.takeTurns

/-- The past is right wherever a parse passes through, while there are turns yet to come. -/
lemma Continues.passedBy {x : Result (Option Status)} {next : Run} {earlier later : List Run}
    (h : Continues past r x) (hsplit : passedBy m turns x = earlier ++ s :: next :: later) :
    Chronicles (past.notes r (earlier ++ [s])) s := by
  induction turns generalizing past r x earlier with
  | zero =>
    rcases x with ⟨_ | status, t⟩ | ⟨x, t⟩ <;> cases earlier <;>
      simp [Run.passedBy, turnsTaken] at hsplit
  | succ turns ih =>
    rcases x with ⟨_ | status, t⟩ | ⟨x, t⟩
    · have ht := h.answered none t rfl
      cases earlier with
      | nil =>
        obtain ⟨rfl, -⟩ := List.cons.inj hsplit
        exact ht
      | cons first earlier =>
        obtain ⟨rfl, hrest⟩ := List.cons.inj hsplit
        have hlater := ih ht.turn hrest
        exact hlater
    · cases earlier <;> simp [Run.passedBy] at hsplit
    · simp [Run.passedBy] at hsplit

/-- Going back rolls the log back, or does nothing. -/
lemma rolls_goBack (m : Machine) (target : Nat) (r : Run) :
    Rolls r (Result.left (goBack m target r)) := by
  by_cases hsteps : r.steps < target
  · rw [goBack, get_bind, if_pos hsteps]
    exact .of_same rfl rfl rfl
  by_cases hpoint : ∃ goal, r.point = .reverse goal
  · obtain ⟨goal, hgoal⟩ := hpoint
    rw [goBack, get_bind, if_neg hsteps]
    simp only [hgoal]
    exact .of_same rfl rfl rfl
  · rw [goBack_apply (Nat.le_of_not_lt hsteps) fun goal hgoal => hpoint ⟨goal, hgoal⟩]
    have hunwind := rolls_unwind (m := m) (.step target)
      (rfl : { r with point := .reverse (.step target) }.log.records = r.log.records)
    have hturn : turn m { r with point := .reverse (.step target) } =
        unwind m (.step target) r.log.records { r with point := .reverse (.step target) } := rfl
    rw [takeTurns]
    cases hrun :
      unwind m (.step target) r.log.records { r with point := .reverse (.step target) } with
    | error x t =>
      rw [hrun] at hunwind
      rw [bind_error (hturn.trans hrun)]
      exact hunwind
    | ok a t =>
      rw [hrun] at hunwind
      rw [bind_ok (hturn.trans hrun)]
      cases a <;> exact hunwind

/-! ## Requests -/

/-- A run after all that its caller asked for and set since the start, and the past of its input.  A
run that a parse passes through, with turns behind it that are yet to come, is such a run too. -/
inductive Recounted (m : Machine) (start : Run) : Past → Run → Prop
  | start : Recounted m start [] start
  | asked {past : Past} {r s : Run} {turns : Nat} {request : Request}
      {answer : Except Error Reply} :
    Recounted m start past r → Replied (perform m turns request r) answer s →
    Recounted m start (past.after m turns r s request answer) s
  | set {past : Past} {r s : Run} : Recounted m start past r → Sets r s → Recounted m start past s
  | passing {past : Past} {r s next : Run} {turns : Nat} {entry : Entry}
      {earlier later : List Run} :
    Recounted m start past r → r.aborted = false →
    passed m turns entry r = earlier ++ s :: next :: later →
    Recounted m start (past.notes r (earlier ++ [s])) s

lemma Recounted.answered {reply : Reply} (h : Recounted m start past r)
    (hperform : perform m turns request r = .ok reply s) :
    Recounted m start (past.after m turns r s request (.ok reply)) s :=
  .asked h (hperform ▸ .ok _ _)

/-- The mark of a run agrees with its past, and as long as the run is not over, it will agree with
it wherever the run is taken back to. -/
structure Attested (past : Past) (r : Run) : Prop where
  attests : Attests past r
  chronicles : r.aborted = false → Chronicles past r

lemma Chronicles.attested (h : Chronicles past r) : Attested past r :=
  ⟨h.toAttests, fun _ => h⟩

/-- What a caller contributes spares the mark. -/
lemma Contributes.marks (h : Contributes r request answer s) :
    s.endActionRan = r.endActionRan ∧ Written Record.isUnmarked r.log.records s ∧
      s.aborted = r.aborted := by
  cases h with
  | named _ =>
    refine ⟨rfl, ?_, rfl⟩
    exact ⟨[.bound _ _, .sent _], rfl, by simp [Record.isUnmarked]⟩
  | text _ _ => exact ⟨rfl, .of_append rfl rfl, rfl⟩
  | tree _ _ => exact ⟨rfl, .of_append rfl rfl, rfl⟩
  | token _ => exact ⟨rfl, .of_append rfl rfl, rfl⟩
  | bound => exact ⟨rfl, .of_append rfl rfl, rfl⟩
  | data => exact ⟨rfl, .of_append rfl rfl, rfl⟩
  | dropped => exact ⟨rfl, .of_append rfl rfl, rfl⟩
  | _ => exact ⟨rfl, .refl r, rfl⟩

lemma Attested.of_same (h : Attested past r) (hran : s.endActionRan = r.endActionRan)
    (hwritten : Written Record.isUnmarked r.log.records s)
    (haborted : s.aborted = false → r.aborted = false) : Attested past s :=
  ⟨h.attests.of_same hran, fun hs => (h.chronicles (haborted hs)).of_same hran hwritten⟩

/-- Whether a run is over makes no difference to where it was left. -/
lemma Past.notes_over (runs : List Run) (aborted : Bool) (events : List Event) :
    past.notes r (runs ++ [{ s with aborted, events }]) = past.notes r (runs ++ [s]) := by
  induction runs generalizing past r with
  | nil => rfl
  | cons first runs ih => exact ih

lemma Attested.parse {entry : Entry} (h : Attested past r)
    (hg : Guarded (Run.resume m turns entry) r answer s) :
    Attested (past.after m turns r s (.parse entry) answer) s := by
  cases hg with
  | refused haborted =>
    have hafter : past.after m turns r r (.parse entry) (.error .aborted) = past := if_pos haborted
    rw [hafter]
    exact h
  | answered halive hrun =>
    have hlater := (h.chronicles halive).resume.answered _ _ hrun
    exact hlater.attested.of_same rfl (.refl _) id
  | @halted e s halive hrun he =>
    have hafter : past.after m turns r s (.parse entry) (.error e) =
      past.notes r (Run.passed m turns entry r ++ [s]) := if_neg (by simp [halive])
    rw [hafter]
    exact (((h.chronicles halive).resume.failed _ _ hrun).2 he).attested
  | @ended e s halive hrun he =>
    have hafter (t : Run) : past.after m turns r t (.parse entry) (.error e) =
      past.notes r (Run.passed m turns entry r ++ [t]) := if_neg (by simp [halive])
    obtain ⟨hattests, -⟩ := (h.chronicles halive).resume.failed _ _ hrun
    rw [hafter, Past.notes_over]
    exact ⟨hattests.of_same rfl, nofun⟩

lemma Attested.undoTo {target : Nat} (h : Attested past r)
    (hg : Guarded (goBack m target) r answer s) : Attested (past.note r s) s := by
  have hrolls := rolls_goBack m target r
  cases hg with
  | refused haborted =>
    rw [Past.note_spares (.refl r)]
    exact h
  | answered halive hrun =>
    rw [hrun] at hrolls
    exact ((h.chronicles halive).rolls hrolls).attested.of_same rfl (.refl _) id
  | halted halive hrun he =>
    rw [hrun] at hrolls
    exact ((h.chronicles halive).rolls hrolls).attested
  | ended halive hrun he =>
    rw [hrun] at hrolls
    exact ⟨((h.chronicles halive).rolls hrolls).toAttests.of_same rfl, nofun⟩

/-- A log that is given up leaves the past as it is for good. -/
lemma Attested.giveUpLog (h : Attested past r)
    (hreplied : Replied (perform m turns .giveUpLog r) answer s) :
    Attested (past.map fun deed => (deed.1, 0)) s := by
  have hs : s.endActionRan = r.endActionRan ∧ s.log.records = [] := by
    rcases hreplied.cases_of with ⟨u, hrun, -⟩ | ⟨e, hrun, -⟩
    · rw [Run.giveUpLog, get_bind] at hrun
      obtain ⟨forest, t, hlook, hrest⟩ := bind_eq_ok.1 hrun
      obtain ⟨-, rfl⟩ := lookup_eq_ok.1 hlook
      cases hrest
      exact ⟨rfl, rfl⟩
    · rw [Run.giveUpLog, get_bind] at hrun
      rcases bind_eq_error.1 hrun with hlook | ⟨forest, t, -, hrest⟩
      · exact absurd hlook lift_ne_error
      · cases hrest
  have hdeeds : Past.deeds (past.map fun deed => (deed.1, 0)) = past.deeds := by
    rw [Past.deeds, List.map_map]
    rfl
  have hattests : Attests (past.map fun deed => (deed.1, 0)) s := by
    refine ⟨(hs.1.trans h.attests.ran).trans ?_, hdeeds ▸ h.attests.apart⟩
    rcases past with _ | ⟨⟨_ | _, mark⟩, rest⟩ <;> rfl
  refine ⟨hattests, fun _ => ⟨hattests, ?_, fun deed hdeed => ?_, ?_⟩⟩
  · rw [hs.2]
    exact hattests.ran
  · obtain ⟨earlier, -, rfl⟩ := List.mem_map.1 hdeed
    exact Nat.zero_le _
  · exact List.pairwise_map.2 (List.pairwise_of_forall fun _ _ => Nat.le_refl 0)

/-- Whatever a caller asks for, the mark of a run agrees with its past. -/
lemma Attested.replied (h : Attested past r)
    (hreplied : Replied (perform m turns request r) answer s) :
    Attested (past.after m turns r s request answer) s := by
  cases hguarded : request.isGuarded with
  | true =>
    rcases request.guarded_of_replied hguarded hreplied with ⟨entry, rfl, hg⟩ | ⟨target, rfl, hg⟩
    · exact h.parse hg
    · exact h.undoTo hg
  | false =>
    by_cases hgive : request = .giveUpLog
    · subst hgive
      exact h.giveUpLog hreplied
    · obtain ⟨hran, hwritten, haborted⟩ := (contributes_of_replied hguarded hgive hreplied).marks
      have hafter : past.after m turns r s request answer = past := by
        cases request with
        | parse entry => cases hguarded
        | undoTo target => cases hguarded
        | giveUpLog => exact absurd rfl hgive
        | _ => rfl
      rw [hafter]
      exact h.of_same hran hwritten fun hs => haborted ▸ hs

lemma Recounted.attested {forest : Forest} {target : Option Nat}
    (h : Recounted m (initial m forest target) past r) : Attested past r := by
  induction h with
  | start => exact ⟨⟨rfl, .nil⟩, fun _ => ⟨⟨rfl, .nil⟩, rfl, nofun, .nil⟩⟩
  | asked _ hreplied ih => exact ih.replied hreplied
  | set _ hset ih =>
    exact hset.keeps (fun _ _ _ hr => hr.of_same rfl (.refl _) id) ih
  | passing _ halive hsplit ih =>
    exact (((ih.chronicles halive).touches (touches_enter m _ _)).passedBy hsplit).attested

/-! ## Where ends were met -/

/-- The move queued the end of the input as a token, having met it in a region. -/
structure EndQueued (m : Machine) (region : RegionId) (r s : Run) : Prop where
  waited : r.queue = []
  untouched : s.content = r.content
  told : s.events.head? = some (.token region m.grammar.eof [])

/-- An end that is queued was not due to be acted upon any more. -/
lemma EndQueued.undue {region : RegionId} (h : EndQueued m region r s)
    (hpoint : r.point = .start) (hturn : turn m r = .ok none s)
    (hacts : m.grammar.actsAtEnd region = true) : r.endActionRan = true := by
  have hforward : goForward m r = .ok none s := by
    rw [Run.turn, get_bind, hpoint] at hturn
    exact hturn
  rw [goForward, get_bind, h.waited] at hforward
  dsimp only at hforward
  have harms := arms_acquire m r
  obtain ⟨found, t, hacquire, hrest⟩ := bind_eq_ok.1 hforward
  rw [hacquire] at harms
  cases harms with
  | met hs => cases hrest
  | @ended other _ hs =>
    cases hrest
    obtain rfl : other = region := by simpa using hs.told.symm.trans h.told
    by_contra hran
    exact hs.undue ⟨hacts, by simpa using hran⟩
  | noToken hs =>
    -- Turning back tells of an error last.
    simp only [get_bind] at hrest
    obtain ⟨u, t', hback, hrest'⟩ := bind_eq_ok.1 hrest
    cases hrest'
    obtain ⟨-, rfl⟩ := turnBack_ok hback
    cases h.told
  | consumed hs _ htaken =>
    have hsame : s = t := by
      cases found with
      | queued => cases hrest; rfl
      | skipped => cases hrest; rfl
      | suspended status => cases hrest
      | noToken other => exact absurd rfl (htaken other).2
    subst hsame
    have hshorter := hs.shorter
    rw [h.untouched] at hshorter
    exact absurd hshorter (Nat.lt_irrefl _)

/-- The run goes back from here to there, in a turn or because its caller asks for it. -/
def GoesBack (m : Machine) (r s : Run) : Prop :=
  (∃ goal a, r.point = .reverse goal ∧ turn m r = .ok a s) ∨
    ∃ turns target reply, perform m turns (.undoTo target) r = .ok reply s

/-- Where a run goes back to, the mark agrees with what is left of the past. -/
lemma Attested.goesBack (h : Attested past r) (halive : r.aborted = false)
    (hback : GoesBack m r s) : s.endActionRan = (past.upTo s.log.length).isOpen := by
  have hchronicles := h.chronicles halive
  have hrolls {s : Run} (hs : Rolls r s) : s.endActionRan = (past.upTo s.log.length).isOpen := by
    obtain ⟨newer, hlog, hran, -⟩ := hs
    have hforetold := hchronicles.foretells
    have hbounded : ∀ deed ∈ past, deed.2 ≤ r.log.records.length := hchronicles.bounded
    rw [hlog] at hforetold hbounded
    exact hran.trans (hforetold.back hchronicles.sorted hbounded).isOpen
  rcases hback with ⟨goal, a, hpoint, hturn⟩ | ⟨turns, target, reply, hundo⟩
  · have hunwind := rolls_unwind (m := m) goal (rfl : r.log.records = r.log.records)
    have hrun : unwind m goal r.log.records r = .ok a s := by
      rw [Run.turn, get_bind, hpoint] at hturn
      exact hturn
    rw [hrun] at hunwind
    exact hrolls hunwind
  · have hreplied : Replied (perform m turns (.undoTo target) r) (.ok reply) s :=
      hundo ▸ .ok reply s
    have hgoBack := rolls_goBack m target r
    rcases Request.guarded_of_replied rfl hreplied with ⟨entry, hentry, -⟩ | ⟨other, hother, hg⟩
    · cases hentry
    · cases hother
      cases hg with
      | answered _ hrun =>
        rw [hrun] at hgoBack
        exact hrolls hgoBack

/-- Between two ends of the input that were met, something was taken. -/
lemma took_between {deeds newer between older : List Deed} {a b : RegionId}
    (h : deeds.IsChain fun later earlier => later = .took ∨ earlier = .took)
    (hdeeds : deeds = newer ++ .met a :: (between ++ .met b :: older)) : .took ∈ between := by
  rw [hdeeds] at h
  have hbehind := h.right_of_append
  cases between with
  | nil => rcases (List.isChain_cons_cons.1 hbehind).1 with hmet | hmet <;> cases hmet
  | cons deed between =>
    rcases (List.isChain_cons_cons.1 hbehind).1 with hmet | rfl
    · cases hmet
    · exact List.mem_cons_self

/-- The action at the end of the input runs once for each time that the input ends, whatever the
caller asks for and sets.  The mark that it has run is set exactly if the caller was told of an end
and nothing was taken since; between two ends that it was told of, something was taken; and no end
is queued in a region that asks for an action unless the caller was told of an end, and nothing was
taken since.  A run that goes back behind an end, and behind nothing earlier, has the action due
again; one that goes back behind what was taken has it due if it was due then. -/
theorem end_acted_once {forest : Forest} {target : Option Nat}
    (h : Recounted m (initial m forest target) past r) :
    (r.endActionRan = true ↔ Unspent past.deeds) ∧
    (∀ newer a between b older,
      past.deeds = newer ++ .met a :: (between ++ .met b :: older) → .took ∈ between) ∧
    (∀ region s, r.point = .start → turn m r = .ok none s → EndQueued m region r s →
      m.grammar.actsAtEnd region = true → Unspent past.deeds) ∧
    ∀ s, r.aborted = false → GoesBack m r s → ∀ (newer older : Past) deed mark,
      past = newer ++ (deed, mark) :: older → s.log.length < mark →
      (∀ earlier ∈ older, earlier.2 ≤ s.log.length) →
      (∀ region, deed = .met region → s.endActionRan = false) ∧
      (deed = .took → (s.endActionRan = true ↔ Unspent (Past.deeds older))) := by
  have hattested := h.attested
  have hran : r.endActionRan = true ↔ Unspent past.deeds := by
    rw [hattested.attests.ran, Past.isOpen_iff]
  refine ⟨hran, fun newer a between b older hdeeds => took_between hattested.attests.apart hdeeds,
    fun region s hpoint hturn hqueued hacts => hran.1 (hqueued.undue hpoint hturn hacts), ?_⟩
  intro s halive hback newer older deed mark hpast hshort holder
  have hmark := hattested.goesBack halive hback
  have hsorted := (hattested.chronicles halive).sorted
  have hapart := hattested.attests.apart
  have hnewer : ∀ later ∈ newer ++ [(deed, mark)], s.log.length < later.2 := by
    intro later hlater
    rcases List.mem_append.1 hlater with hlater | hlater
    · rw [hpast] at hsorted
      exact Nat.lt_of_lt_of_le hshort
        ((List.pairwise_append.1 hsorted).2.2 later hlater _ List.mem_cons_self)
    · rwa [List.mem_singleton.1 hlater]
  rw [hpast, List.append_cons, Past.upTo_append hnewer holder] at hmark
  rw [hmark]
  refine ⟨?_, fun _ => Past.isOpen_iff⟩
  -- Nothing was taken between what is left and the end behind which the run goes back.
  rintro region rfl
  rw [hpast, Past.deeds, List.map_append] at hapart
  have hbehind := hapart.right_of_append
  rcases older with _ | ⟨⟨other | _, mark'⟩, rest⟩
  · rfl
  · rcases (List.isChain_cons_cons.1 hbehind).1 with hmet | hmet <;> cases hmet
  · rfl

/-- The caller is told that the letter has ended, and the action is due again behind the letter. -/
theorem end_acted_once_letter : ∃ past r s,
    Recounted pausingMachine (initial pausingMachine (Pool.empty 8 8) none) past r ∧
    past.deeds = [.met 1, .took] ∧ r.endActionRan = true ∧
    perform pausingMachine 0 (.undoTo 1) r = .ok (.status (.reverted 1)) s ∧
    s.endActionRan = false := by
  let start := initial pausingMachine (Pool.empty 8 8) none
  have hattach : perform pausingMachine 0 (.attach (Stream.ofBytes [97])) start =
      .ok .accepted letterStart := rfl
  have hparse :=
    Result.eq_ok_left (show Result.answer? (parse pausingMachine 20 .start letterStart) =
    some (.preEof 1) by decide +kernel)
  generalize hr : Result.left (parse pausingMachine 20 .start letterStart) = r at hparse
  have hundo := Result.eq_ok_left (show Result.answer? (undoTo pausingMachine 1 r) =
    some (.reverted 1) by
      subst hr
      decide +kernel)
  generalize hs : Result.left (undoTo pausingMachine 1 r) = s at hundo
  have htold :
      perform pausingMachine 20 (.parse .start) letterStart = .ok (.status (.preEof 1)) r :=
    bind_ok hparse _
  have hback : perform pausingMachine 0 (.undoTo 1) r = .ok (.status (.reverted 1)) s :=
    bind_ok hundo _
  have hrecounted : Recounted pausingMachine start
      (Past.after [] pausingMachine 20 letterStart r (.parse .start) (.ok (.status (.preEof 1))))
        r :=
    (Recounted.start.answered hattach).answered htold
  have hpast : Past.after [] pausingMachine 20 letterStart r (.parse .start)
      (.ok (.status (.preEof 1))) = [(.met 1, 4), (.took, 1)] ∧ r.aborted = false ∧
      s.log.length = 3 := by
    subst hs hr
    decide +kernel
  obtain ⟨hpast, halive, hlength⟩ := hpast
  rw [hpast] at hrecounted
  obtain ⟨hmark, -, -, htaken⟩ := end_acted_once hrecounted
  have hdue := (htaken s halive (.inr ⟨_, _, _, hback⟩) [] [(.took, 1)] (.met 1) 4 rfl (by omega)
    (by simp [hlength])).1 1 rfl
  exact ⟨_, r, s, hrecounted, rfl, hmark.2 ⟨[], 1, [.took], rfl, List.not_mem_nil⟩, hback, hdue⟩

/-- The machine for a letter, with a region of its own for the state behind the letter, and a caller
who acts at the end of the input in either region. -/
def crossingMachine : Machine where
  grammar := { letterMachine.grammar with
    regionStarts := #[0, 0, 2, 0]
    regions := #[1, 0, 2, 0]
    endActions := #[true, true, true] }
  scanner := { letterMachine.scanner with entries := #[1, 1, 1] }

/-- The mark is one for all regions: an end is queued in a region that asks for an action, though
the caller was never told of an end in that region. -/
theorem end_acted_elsewhere : crossingMachine.grammar.validate = .ok () ∧
    crossingMachine.scanner.validate = .ok () ∧
    ∃ past r s,
      Recounted crossingMachine (initial crossingMachine (Pool.empty 8 8) (some 2)) past r ∧
      r.aborted = false ∧ r.point = .start ∧ turn crossingMachine r = .ok none s ∧
      EndQueued crossingMachine 2 r s ∧ crossingMachine.grammar.actsAtEnd 2 = true ∧
      Deed.met 2 ∉ past.deeds := by
  refine ⟨by decide +kernel, by decide +kernel, ?_⟩
  let start := initial crossingMachine (Pool.empty 8 8) (some 2)
  have hattach : perform crossingMachine 0 (.attach (Stream.ofBytes [])) start =
      .ok .accepted { start with
        scanner := { start.scanner with stream := some (Stream.ofBytes []) } } := rfl
  generalize ho : ({ start with
    scanner := { start.scanner with stream := some (Stream.ofBytes []) } } : Run) = o at hattach
  have hparse := Result.eq_ok_left (show Result.answer? (parse crossingMachine 20 .start o) =
    some (.preEof 1) by
      subst ho
      decide +kernel)
  generalize hp : Result.left (parse crossingMachine 20 .start o) = p at hparse
  have hqueue := Result.eq_ok_left (show Result.answer? (queueToken 1 [97] none p) = some 0 by
      subst hp ho
      decide +kernel)
  generalize hq : Result.left (queueToken 1 [97] none p) = q at hqueue
  have hpause := Result.eq_ok_left (show Result.answer? (parse crossingMachine 20 .preEof q) =
    some .paused by
      subst hq hp ho
      decide +kernel)
  generalize hr : Result.left (parse crossingMachine 20 .preEof q) = r at hpause
  have hturn := Result.eq_ok_left (show Result.answer? (turn crossingMachine r) = some none by
      subst hr hq hp ho
      decide +kernel)
  generalize hs : Result.left (turn crossingMachine r) = s at hturn
  have htold : perform crossingMachine 20 (.parse .start) o = .ok (.status (.preEof 1)) p :=
    bind_ok hparse _
  have hsent : perform crossingMachine 0 (.queueToken 1 [97] none) p = .ok (.node 0) q :=
    bind_ok hqueue _
  have hpaused : perform crossingMachine 20 (.parse .preEof) q = .ok (.status .paused) r :=
    bind_ok hpause _
  have hrecounted : Recounted crossingMachine start _ r :=
    (((Recounted.start.answered hattach).answered htold).answered hsent).answered hpaused
  have hfacts : r.aborted = false ∧ r.point = .start ∧ r.queue = [] ∧ s.content = r.content ∧
      s.events.head? = some (.token 2 0 []) := by
    subst hs hr hq hp ho
    decide +kernel
  obtain ⟨halive, hpoint, hwaited, huntouched, htold'⟩ := hfacts
  refine ⟨_, r, s, hrecounted, halive, hpoint, hturn, ⟨hwaited, huntouched, htold'⟩, by decide, ?_⟩
  subst hr hq hp ho
  decide +kernel

end Rewind.Run
