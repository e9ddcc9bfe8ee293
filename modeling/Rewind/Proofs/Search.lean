import Rewind.Proofs.Operations
import Rewind.Proofs.Scene

/-!
# The search behind a parse

A parse looks for a way to the end of its input.  Where the tables leave a choice it tries the
alternatives in their order, and takes the next one when an alternative fails.  A step that commits
rules this out for everything before it: what fails behind it fails for good.

`search` tells this by recursion on scenes, with neither log nor counters.  It is told how deep it
may go, since nothing bounds that, and an answer it has given does not change when it may go deeper.
-/

namespace Rewind.Run

/-! ## Taking from the input -/

/-- What the first region finds that finds anything.  There is no answer if a scan has none. -/
def firstFound (t : Scanner.Tables) (items : List Item) :
    List RegionId → Option (Option (RegionId × Scanner.Outcome))
  | [] => some none
  | region :: regions =>
    match Scanner.finds t region items with
    | none => none
    | some .noToken => firstFound t items regions
    | some outcome => some (some (region, outcome))

namespace Scene

/-- What was found is taken from the input. -/
def receive (m : Machine) (region : RegionId) (σ : Scene) : Scanner.Outcome → Option Scene
  | .token element length =>
    let text := bytes (σ.items.take length)
    let rest := σ.items.drop length
    let τ := { σ with endActionRan := false }
    some <|
      if m.grammar.generates element then τ.read text rest
      else if m.grammar.ignores element then τ.skipped element text rest
      else τ.queued element text rest
  | .eof =>
    some <|
      if m.grammar.actsAtEnd region ∧ σ.endActionRan = false then { σ with endActionRan := true }
      else σ.queued m.grammar.eof [] []
  | .tree _ _ => none
  | .noToken => none

/-- A scene without a lookahead takes something from its input, or finds nothing to take. -/
def acquired (m : Machine) (σ : Scene) : Option (Except Error Scene) :=
  match m.grammar.regionsOf σ.state with
  | .error _ => none
  | .ok regions =>
    match firstFound m.scanner σ.items regions with
    | none => none
    | some none => some (.error (.lexical (regions.headD 0) σ.position))
    | some (some (region, outcome)) => (σ.receive m region outcome).map .ok

/-! ## Trying an alternative -/

/-- A reduction, if the stack is deep enough for it. -/
def reduce? (m : Machine) (production : ProductionId) (σ : Scene) : Option Scene :=
  match m.grammar.productions[production]? with
  | none => none
  | some info =>
    if info.length ≤ σ.stack.length then some (σ.reduced m production info) else none

/-- What an action makes of a scene. -/
def acted (m : Machine) (target : StateId) (σ : Scene) : Grammar.Action → Option Scene
  | .shift => some (σ.shifted m target)
  | .reduce production => σ.reduce? m production
  | .shiftReduce production => (σ.shifted m target).reduce? m production

end Scene

/-- The production that an action reduces by. -/
def production? : Grammar.Action → Option ProductionId
  | .shift => none
  | .reduce production => some production
  | .shiftReduce production => some production

/-- An alternative that was tried. -/
structure Tried where
  decision : Grammar.Decision
  /-- Whether the step commits. -/
  commits : Bool
  /-- What the action made. -/
  scene : Scene

/-- An alternative is tried for a lookahead, if there is one. -/
def Scene.tried (m : Machine) (s : Shape) (alternative : Nat) (σ : Scene) :
    Option (Except Error Tried) :=
  match m.grammar.decide σ.state s.element alternative with
  | .error _ => none
  | .ok none => some (.error (.unexpected s.element σ.state s.span))
  | .ok (some decision) =>
    match m.grammar.targets[decision.transition]?, m.grammar.commits[decision.transition]? with
    | some target, some commits =>
      (σ.acted m target decision.action).map fun τ => .ok ⟨decision, commits ≠ 0, τ⟩
    | _, _ => none

/-- The error of a tree that the caller acts on, and rejects. -/
def Tried.rejection (m : Machine) (rejects : Shape → Bool) (t : Tried) : Option Error := do
  let production ← production? t.decision.action
  let info ← m.grammar.productions[production]?
  let tree ← t.scene.queue.head?
  if info.hasAction && rejects tree then some (.rejected production tree.span) else none

/-! ## Searching -/

/-- What a search comes to. -/
inductive Fate where
  /-- The end was reached by these alternatives, one for each step. -/
  | done (alternatives : List Nat) (σ : Scene)
  /-- All alternatives failed, the last of them with this error. -/
  | failed (e : Error)
  /-- All alternatives failed behind a commit. -/
  | barred (e : Error)

/-- The fate of an alternative, by what comes of the scene behind it. -/
def Fate.behind (alternative : Nat) (commits : Bool) : Fate → Fate
  | done alternatives σ => done (alternative :: alternatives) σ
  | failed e => if commits then barred e else failed e
  | barred e => barred e

/-- The fate of an alternative that was tried. -/
def Tried.fate (m : Machine) (rejects : Shape → Bool) (search : Scene → Nat → Option Fate)
    (t : Tried) : Option Fate :=
  match t.rejection m rejects with
  | some e => some (.failed e)
  | none =>
    if t.scene.ended m then some (.done [t.decision.alternative] t.scene)
    else (search t.scene 0).map (.behind t.decision.alternative t.commits)

/-- Searches for the end of a parse from a scene.  Alternatives before the one given are not tried
for the first lookahead. -/
def search (m : Machine) (rejects : Shape → Bool) : (depth : Nat) → Scene → Nat → Option Fate
  | 0, _, _ => none
  | depth + 1, σ, alternative =>
    match σ.queue with
    | [] =>
      match σ.acquired m with
      | none => none
      | some (.error e) => some (.failed e)
      | some (.ok τ) => search m rejects depth τ alternative
    | s :: _ =>
      match σ.tried m s alternative with
      | none => none
      | some (.error e) => some (.failed e)
      | some (.ok t) =>
        match t.fate m rejects (search m rejects depth) with
        | some (.failed e) =>
          if t.decision.more then search m rejects depth σ (alternative + 1)
          else some (.failed e)
        | fate => fate

/-- A search comes to a fate. -/
def Searches (m : Machine) (rejects : Shape → Bool) (σ : Scene) (alternative : Nat) (fate : Fate) :
    Prop :=
  ∃ depth, search m rejects depth σ alternative = some fate

/-- An alternative that was tried comes to a fate. -/
def Tried.Ends (m : Machine) (rejects : Shape → Bool) (t : Tried) (fate : Fate) : Prop :=
  ∃ depth, t.fate m rejects (search m rejects depth) = some fate

variable {m : Machine} {rejects : Shape → Bool} {σ τ : Scene} {s : Shape} {queue : List Shape}
  {t : Tried} {k depth depth' : Nat} {fate fate' : Fate} {e : Error}

lemma Tried.fate_mono {f g : Scene → Nat → Option Fate}
    (hle : ∀ σ k fate, f σ k = some fate → g σ k = some fate)
    (h : t.fate m rejects f = some fate) : t.fate m rejects g = some fate := by
  rw [Tried.fate] at h ⊢
  split at h
  · exact h
  · by_cases hended : t.scene.ended m = true
    · rw [if_pos hended] at h ⊢
      exact h
    · rw [if_neg hended] at h ⊢
      obtain ⟨behind, hbehind, rfl⟩ := Option.map_eq_some_iff.1 h
      rw [hle _ _ _ hbehind]
      rfl

/-- A search that may go deeper comes to the same. -/
lemma search_mono (h : search m rejects depth σ k = some fate) (hle : depth ≤ depth') :
    search m rejects depth' σ k = some fate := by
  induction depth generalizing depth' σ k fate with
  | zero => cases h
  | succ depth ih =>
    obtain ⟨n, rfl⟩ : ∃ n, depth' = n + 1 := ⟨depth' - 1, by omega⟩
    have hdeeper : ∀ σ k fate, search m rejects depth σ k = some fate →
        search m rejects n σ k = some fate := fun _ _ _ h => ih h (by omega)
    rw [search] at h ⊢
    cases hqueue : σ.queue with
    | nil =>
      simp only [hqueue] at h ⊢
      split at h
      · cases h
      · exact h
      · exact hdeeper _ _ _ h
    | cons s queue =>
      simp only [hqueue] at h ⊢
      split at h
      · cases h
      · exact h
      · rename_i t htried
        cases hfate : t.fate m rejects (search m rejects depth) with
        | none =>
          rw [hfate] at h
          cases h
        | some fate' =>
          rw [Tried.fate_mono hdeeper hfate]
          rw [hfate] at h
          cases fate' with
          | failed e =>
            simp only at h ⊢
            split at h
            · rename_i hmore
              rw [if_pos hmore]
              exact hdeeper _ _ _ h
            · rename_i hmore
              rw [if_neg hmore]
              exact h
          | done alternatives ω => exact h
          | barred e => exact h

/-- A search comes to one fate only. -/
theorem Searches.unique (h : Searches m rejects σ k fate) (h' : Searches m rejects σ k fate') :
    fate = fate' := by
  obtain ⟨depth, h⟩ := h
  obtain ⟨depth', h'⟩ := h'
  have hdeep := search_mono h (Nat.le_max_left depth depth')
  rw [search_mono h' (Nat.le_max_right depth depth')] at hdeep
  exact (Option.some.inj hdeep).symm

/-- The error that a fate blames, if any, lies in the input. -/
def Fate.blames : Fate → Bool
  | done _ _ => true
  | failed e | barred e => e.isInInput

lemma acquired_blames (h : σ.acquired m = some (.error e)) : e.isInInput = true := by
  unfold Scene.acquired at h
  split at h
  · cases h
  · split at h
    · cases h
    · cases h
      rfl
    · obtain ⟨τ, -, hτ⟩ := Option.map_eq_some_iff.1 h
      cases hτ

lemma tried_blames (h : σ.tried m s k = some (.error e)) : e.isInInput = true := by
  unfold Scene.tried at h
  split at h
  · cases h
  · cases h
    rfl
  · split at h
    · obtain ⟨τ, -, hτ⟩ := Option.map_eq_some_iff.1 h
      cases hτ
    · cases h

lemma rejection_blames (h : t.rejection m rejects = some e) : e.isInInput = true := by
  simp only [Tried.rejection, Option.bind_eq_bind, Option.bind_eq_some_iff] at h
  obtain ⟨production, -, info, -, tree, -, hrejected⟩ := h
  split at hrejected
  · cases hrejected
    rfl
  · cases hrejected

lemma Tried.fate_blames {f : Scene → Nat → Option Fate}
    (hf : ∀ σ k fate, f σ k = some fate → fate.blames = true)
    (h : t.fate m rejects f = some fate) : fate.blames = true := by
  rw [Tried.fate] at h
  split at h
  · cases h
    exact rejection_blames ‹_›
  · split at h
    · cases h
      rfl
    · obtain ⟨behind, hbehind, rfl⟩ := Option.map_eq_some_iff.1 h
      have hblames := hf _ _ _ hbehind
      cases behind with
      | done alternatives ω => rfl
      | failed e =>
        rw [Fate.behind]
        split <;> exact hblames
      | barred e => exact hblames

/-- A search that fails does so with an error in the input. -/
lemma search_blames (h : search m rejects depth σ k = some fate) : fate.blames = true := by
  induction depth generalizing σ k fate with
  | zero => cases h
  | succ depth ih =>
    rw [search] at h
    split at h
    · split at h
      · cases h
      · cases h
        exact acquired_blames ‹_›
      · exact ih h
    · split at h
      · cases h
      · cases h
        exact tried_blames ‹_›
      · split at h
        · rename_i hfate
          split at h
          · exact ih h
          · cases h
            exact Tried.fate_blames (fun _ _ _ hf => ih hf) hfate
        · exact Tried.fate_blames (fun _ _ _ hf => ih hf) h

/-! ## Rules of the search -/

lemma searches_lost (hqueue : σ.queue = []) (hacquired : σ.acquired m = some (.error e)) :
    Searches m rejects σ k (.failed e) :=
  ⟨1, by simp only [search, hqueue, hacquired]⟩

lemma searches_acquired (hqueue : σ.queue = []) (hacquired : σ.acquired m = some (.ok τ))
    (h : Searches m rejects τ k fate) : Searches m rejects σ k fate := by
  obtain ⟨depth, h⟩ := h
  refine ⟨depth + 1, ?_⟩
  simp only [search, hqueue, hacquired]
  exact h

lemma searches_refused (hqueue : σ.queue = s :: queue)
    (htried : σ.tried m s k = some (.error e)) : Searches m rejects σ k (.failed e) :=
  ⟨1, by simp only [search, hqueue, htried]⟩

/-- The fate of an alternative is that of the search, unless it failed and there is another. -/
theorem searches_tried (hqueue : σ.queue = s :: queue) (htried : σ.tried m s k = some (.ok t))
    (h : t.Ends m rejects fate) (hlast : ∀ e, fate = .failed e → t.decision.more = false) :
    Searches m rejects σ k fate := by
  obtain ⟨depth, h⟩ := h
  refine ⟨depth + 1, ?_⟩
  simp only [search, hqueue, htried, h]
  cases fate with
  | failed e => simp only [hlast e rfl, Bool.false_eq_true, if_false]
  | done alternatives ω => rfl
  | barred e => rfl

/-- The search goes on with the next alternative. -/
lemma searches_next (hqueue : σ.queue = s :: queue) (htried : σ.tried m s k = some (.ok t))
    (h : t.Ends m rejects (.failed e)) (hmore : t.decision.more = true)
    (hnext : Searches m rejects σ (k + 1) fate) : Searches m rejects σ k fate := by
  obtain ⟨depth, h⟩ := h
  obtain ⟨depth', hnext⟩ := hnext
  refine ⟨max depth depth' + 1, ?_⟩
  have hfate := Tried.fate_mono
    (fun _ _ _ h => search_mono h (Nat.le_max_left depth depth')) h
  simp only [search, hqueue, htried, hfate, hmore, if_true]
  exact search_mono hnext (Nat.le_max_right depth depth')

namespace Tried

lemma ends_rejected (hrejected : t.rejection m rejects = some e) :
    t.Ends m rejects (.failed e) :=
  ⟨0, by rw [fate, hrejected]⟩

lemma ends_done (hrejected : t.rejection m rejects = none) (hended : t.scene.ended m = true) :
    t.Ends m rejects (.done [t.decision.alternative] t.scene) :=
  ⟨0, by rw [fate, hrejected, hended]; rfl⟩

lemma ends_behind (hrejected : t.rejection m rejects = none)
    (hended : t.scene.ended m = false) (h : Searches m rejects t.scene 0 fate) :
    t.Ends m rejects (fate.behind t.decision.alternative t.commits) := by
  obtain ⟨depth, h⟩ := h
  refine ⟨depth, ?_⟩
  rw [Tried.fate, hrejected, hended, h]
  rfl

end Tried

end Rewind.Run
