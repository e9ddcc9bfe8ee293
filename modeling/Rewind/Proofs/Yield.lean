import Rewind.Proofs.Scene

/-!
# The text of a scene

Every tree has a text, which is made of the texts of its tokens and of the ignored tokens they
carry.  The text of a scene is that of its trees and of the input behind them.  What is set aside
comes in front of the first terminal that waits, since that terminal will carry it.

Nothing that a parse does changes the text of a scene, as long as tokens and trees can be told apart
by their elements.
-/

namespace Rewind

/-! ## Texts of trees -/

mutual

/-- The text of a tree: that of the ignored tokens in front, and then its own or that of its
children. -/
def Shape.yield : Shape → Bytes
  | ⟨_, production, text, _, _, _, children, ignored⟩ =>
    ignored.flatMap Shape.text ++ if production.isSome then yields children else text

/-- The text of several trees. -/
def yields : List Shape → Bytes
  | [] => []
  | s :: shapes => s.yield ++ yields shapes

end

/-- The text of a tree without the ignored tokens in front. -/
def Shape.body (s : Shape) : Bytes :=
  if s.production.isSome then yields s.children else s.text

lemma Shape.yield_eq (s : Shape) : s.yield = s.ignored.flatMap Shape.text ++ s.body := by
  cases s
  rw [yield]
  rfl

lemma yields_append (xs ys : List Shape) : yields (xs ++ ys) = yields xs ++ yields ys := by
  induction xs with
  | nil => rfl
  | cons x xs ih => simp only [List.cons_append, yields, ih, List.append_assoc]

namespace Run

/-- The text of trees that wait.  What was set aside comes in front of the first terminal. -/
def waitingText (m : Machine) (aside : Bytes) : List Shape → Bytes
  | [] => aside
  | s :: queue =>
    if m.grammar.isTerminal s.element then aside ++ yields (s :: queue)
    else s.yield ++ waitingText m aside queue

lemma waitingText_nil (m : Machine) (queue : List Shape) :
    waitingText m [] queue = yields queue := by
  induction queue with
  | nil => rfl
  | cons s queue ih =>
    rw [waitingText, ih, yields, List.nil_append]
    exact ite_self _

lemma waitingText_terminal {m : Machine} {aside : Bytes} {s : Shape} {queue : List Shape}
    (h : m.grammar.isTerminal s.element = true) :
    waitingText m aside (s :: queue) = aside ++ yields (s :: queue) :=
  if_pos h

lemma waitingText_tree {m : Machine} {aside : Bytes} {s : Shape} {queue : List Shape}
    (h : m.grammar.isTerminal s.element = false) :
    waitingText m aside (s :: queue) = s.yield ++ waitingText m aside queue :=
  if_neg (by simp [h])

/-- The text of a scene. -/
def Scene.text (m : Machine) (σ : Scene) : Bytes :=
  yields σ.stack.reverse ++ waitingText m (σ.aside.reverse.flatMap Shape.text) σ.queue ++
    bytes σ.items

/-! ## Texts are kept -/

/-- Elements tell tokens from trees, and no token is given away. -/
structure Distinguishes (m : Machine) : Prop where
  token : ∀ element, m.scanner.Names element → element < m.grammar.firstNonterminal
  eof : m.grammar.eof < m.grammar.firstNonterminal
  lhs : ∀ (production : ProductionId) (info : Grammar.Production),
    m.grammar.productions[production]? = some info → m.grammar.firstNonterminal ≤ info.lhs
  generates : ∀ element, m.grammar.generates element = false

/-- The token that stands for the end of the input. -/
def IsEnd (m : Machine) (s : Shape) : Prop :=
  s.element = m.grammar.eof ∧ s.text = []

/-- A scene that has the whole of a text.  Behind the end of the input there is nothing more. -/
structure Whole (m : Machine) (w : Bytes) (σ : Scene) : Prop where
  text : σ.text m = w
  noTrees : trees σ.items = []
  /-- What waits carries nothing yet. -/
  bare : ∀ s ∈ σ.queue, s.ignored = []
  endWaits : ∀ before s after, σ.queue = before ++ s :: after → IsEnd m s →
    after = [] ∧ σ.items = []
  endStacked : ∀ above s below, σ.stack = above ++ s :: below → IsEnd m s →
    yields (s :: below).reverse = w

variable {m : Machine} {w text : Bytes} {σ σ' : Scene}

lemma yield_token (element : ElementId) (text : Bytes) (position : Position) :
    (Scene.token element text position).yield = text := rfl

lemma yield_tree (production : ProductionId) (lhs : ElementId) (children : List Shape) :
    (Scene.tree production lhs children).yield = yields children := rfl

lemma whole_scanned {element : ElementId} {rest : List Item} (hm : Distinguishes m)
    (h : Whole m w σ) (hqueue : σ.queue = []) (hitems : σ.items = text.map .byte ++ rest)
    (hscans : Scans m σ.items element text) : Whole m w (σ.queued element text rest) := by
  have hterminal : m.grammar.isTerminal element = true := by
    rcases hscans with ⟨hnames, -⟩ | ⟨rfl, -⟩
    · exact decide_eq_true (hm.token element hnames)
    · exact decide_eq_true hm.eof
  have hrest : trees rest = [] := by
    rw [← trees_bytes_append text rest, ← hitems]
    exact h.noTrees
  have htoken (aside : Bytes) :
      waitingText m aside [Scene.token element text σ.position] = aside ++ text := by
    rw [waitingText_terminal hterminal, yields, yield_token, yields, List.append_nil]
  refine ⟨?_, hrest, fun s hs => ?_, fun before s after hsplit hend => ?_, h.endStacked⟩
  · rw [← h.text, Scene.text, Scene.text, hqueue, hitems, bytes_text]
    simp only [Scene.queued, Scene.read, htoken, waitingText, List.append_assoc]
  · obtain rfl := List.mem_singleton.1 hs
    rfl
  · obtain ⟨rfl, rfl, rfl⟩ : before = [] ∧ s = Scene.token element text σ.position ∧
        after = [] := by
      rcases List.append_eq_singleton_iff.1 hsplit.symm with ⟨rfl, hs⟩ | ⟨-, hs⟩
      · exact ⟨rfl, List.cons.inj hs⟩
      · cases hs
    -- The scanner makes no empty tokens, so this is the end of the input.
    rcases hscans with ⟨-, hne⟩ | ⟨-, rfl, hempty⟩
    · exact absurd hend.2 hne
    · rw [hempty] at hitems
      exact ⟨rfl, hitems.symm⟩

lemma whole_setAside {element : ElementId} {rest : List Item} (h : Whole m w σ)
    (hqueue : σ.queue = []) (hitems : σ.items = text.map .byte ++ rest) :
    Whole m w (σ.skipped element text rest) := by
  have hrest : trees rest = [] := by
    rw [← trees_bytes_append text rest, ← hitems]
    exact h.noTrees
  refine ⟨?_, hrest, h.bare, fun before s after hsplit => ?_, h.endStacked⟩
  · have htoken : Shape.text (Scene.token element text σ.position) = text := rfl
    rw [← h.text, Scene.text, Scene.text, hqueue, hitems, bytes_text]
    simp only [Scene.skipped, Scene.read, hqueue, waitingText, List.reverse_cons,
      List.flatMap_append, List.flatMap_singleton, htoken, List.append_assoc]
  · have hnone : (σ.skipped element text rest).queue = [] := hqueue
    rw [hnone] at hsplit
    cases before <;> cases hsplit

lemma takes_of_bare {s : Shape} (hbare : s.ignored = []) :
    Scene.takes m s = m.grammar.isTerminal s.element := by
  rw [Scene.takes, hbare]
  exact Bool.true_and _

/-- A terminal carries what was set aside, and everything else passes it by. -/
lemma text_shifted {s : Shape} {queue : List Shape} (hqueue : σ.queue = s :: queue)
    (hbare : s.ignored = []) (target : StateId) :
    (σ.shifted m target).text m = σ.text m := by
  have hyield : s.yield = s.body := by
    rw [s.yield_eq, hbare]
    rfl
  rw [Scene.shifted_cons hqueue, takes_of_bare hbare, Scene.text, Scene.text, hqueue]
  cases hterminal : m.grammar.isTerminal s.element with
  | true =>
    have hcarries : Shape.yield { s with state := target, ignored := σ.aside.reverse } =
        σ.aside.reverse.flatMap Shape.text ++ s.body := Shape.yield_eq _
    rw [waitingText_terminal hterminal]
    simp only [if_true, List.reverse_cons, List.reverse_nil, List.flatMap_nil, yields_append,
      yields, hcarries, hyield, waitingText_nil, List.append_assoc, List.append_nil]
  | false =>
    have hcarries : Shape.yield { s with state := target, ignored := s.ignored } = s.body := by
      rw [Shape.yield_eq, hbare]
      rfl
    rw [waitingText_tree hterminal]
    simp only [Bool.false_eq_true, if_false, List.reverse_cons, yields_append, yields, hcarries,
      hyield, List.append_assoc, List.append_nil]

lemma whole_shifted {target : StateId} (hm : Distinguishes m) (h : Whole m w σ)
    (hqueue : σ.queue ≠ []) : Whole m w (σ.shifted m target) := by
  obtain ⟨s, queue, hs⟩ := List.exists_cons_of_ne_nil hqueue
  have hbare : s.ignored = [] := h.bare s (by simp [hs])
  have htext : (σ.shifted m target).text m = w := (text_shifted hs hbare target).trans h.text
  rw [Scene.shifted_cons hs] at htext ⊢
  refine ⟨htext, h.noTrees, fun s' hs' => h.bare s' (by simp [hs, hs']), ?_, ?_⟩
  · intro before s' after hsplit hend
    refine h.endWaits (s :: before) s' after ?_ hend
    rw [hs, List.cons_append]
    exact congrArg _ hsplit
  · intro above s' below hsplit hend
    cases above with
    | cons x above => exact h.endStacked above s' below (List.cons.inj hsplit).2 hend
    | nil =>
      -- The end of the input was the last that waited, and carries all that was set aside.
      obtain ⟨rfl, rfl⟩ := List.cons.inj hsplit
      obtain ⟨hnone, hitems⟩ := h.endWaits [] s queue hs hend
      have hterminal : m.grammar.isTerminal s.element = true := by
        rw [show s.element = m.grammar.eof from hend.1]
        exact decide_eq_true hm.eof
      have htakes := takes_of_bare (m := m) hbare
      rw [hterminal] at htakes
      rw [Scene.text] at htext
      simp only [htakes, hnone, hitems, if_true, List.reverse_nil, List.flatMap_nil, waitingText,
        bytes, List.filterMap_nil, List.append_nil] at htext ⊢
      exact htext

lemma text_reduced {production : ProductionId} {info : Grammar.Production}
    (hnot : m.grammar.isTerminal info.lhs = false) :
    (σ.reduced m production info).text m = σ.text m := by
  have hstack : yields σ.stack.reverse =
      yields (σ.stack.drop info.length).reverse ++ yields (σ.stack.take info.length).reverse := by
    rw [← yields_append, ← List.reverse_append, List.take_append_drop]
  rw [Scene.text, Scene.text, hstack]
  simp only [Scene.reduced]
  rw [waitingText_tree hnot, yield_tree]
  simp only [List.append_assoc]

lemma whole_reduced {production : ProductionId} {info : Grammar.Production}
    (hm : Distinguishes m) (h : Whole m w σ)
    (hinfo : m.grammar.productions[production]? = some info) :
    Whole m w (σ.reduced m production info) := by
  have hlhs := hm.lhs production info hinfo
  have hnot : m.grammar.isTerminal info.lhs = false := decide_eq_false (Nat.not_lt.2 hlhs)
  refine ⟨(text_reduced hnot).trans h.text, h.noTrees, ?_, ?_, ?_⟩
  · intro s hs
    rcases List.mem_cons.1 hs with rfl | hs
    · rfl
    · exact h.bare s hs
  · intro before s after hsplit hend
    cases before with
    | nil =>
      obtain ⟨rfl, -⟩ := List.cons.inj hsplit
      rw [show info.lhs = m.grammar.eof from hend.1] at hlhs
      exact absurd hlhs (Nat.not_le.2 hm.eof)
    | cons x before => exact h.endWaits before s after (List.cons.inj hsplit).2 hend
  · intro above s below hsplit hend
    refine h.endStacked (σ.stack.take info.length ++ above) s below ?_ hend
    rw [List.append_assoc, ← hsplit]
    exact (List.take_append_drop _ _).symm

/-- Nothing that a parse does changes the text of a scene. -/
theorem whole_becomes (hm : Distinguishes m) (h : Whole m w σ) (hstep : σ.Becomes m σ') :
    Whole m w σ' := by
  cases hstep with
  | scanned hqueue hitems hscans => exact whole_scanned hm h hqueue hitems hscans
  | setAside hqueue hitems _ => exact whole_setAside h hqueue hitems
  | consumed _ _ hgenerates =>
    rw [hm.generates] at hgenerates
    cases hgenerates
  | shifted hqueue => exact whole_shifted hm h hqueue
  | reduced hinfo _ => exact whole_reduced hm h hinfo
  | endActionMarked => exact ⟨h.text, h.noTrees, h.bare, h.endWaits, h.endStacked⟩
  | same => exact h

end Run

end Rewind
