import Mathlib.Tactic.Lemma
import Rewind.Run.Parse

/-!
# The gist of a parse

How a parse goes on is decided by little of what a run holds: by the state, the elements on the
stack and in the lookahead, and the units that are left of the input.  That is its `Gist`.  A `Plot`
is a gist with the choices that are left open, and its moves (`Plot.tick`) are those of a parse of
which nothing is ignored but what the tables ignore in one state and not in another.

`Plot.play` tells what is seen of such a parse: its decisions, its errors and its statuses, and how
it ends.  More moves add to what is told and change nothing.
-/

namespace Rewind.Run

/-- A unit of the input: a byte, or a tree, of which only the element counts. -/
inductive Morsel where
  | byte (b : UInt8)
  | leaf (element : ElementId)
  deriving DecidableEq, Repr

/-- For each region, the tokens that single bytes are. -/
abbrev Alphabet := RegionId → UInt8 → Option ElementId

/-- What decides how a parse goes on. -/
structure Gist where
  state : StateId
  /-- The elements on the stack, the top first, each with the state that was entered with it. -/
  stack : List (ElementId × StateId)
  queue : List ElementId
  input : List Morsel
  endActionRan : Bool
  deriving DecidableEq, Repr

/-- A choice left open: a gist, and the next alternative to try. -/
abbrev Fork := Gist × Nat

/-- What a parse is about to do. -/
inductive Stage where
  /-- Going forward, with an alternative to take at the next decision. -/
  | going (retry : Nat)
  /-- Turning back to the latest choice left open. -/
  | back
  /-- Going on from a reduction that the caller was told of, whose step commits or not. -/
  | acting (production : ProductionId) (children : List ElementId) (commits : Bool)
  deriving DecidableEq, Repr

/-- A parse on its way, with the choices left open, the latest first. -/
structure Plot where
  gist : Gist
  left : List Fork
  stage : Stage
  deriving DecidableEq, Repr

/-- How a driven parse ends. -/
abbrev Ending := Except (Failure Error) Status

/-- What a move comes to. -/
inductive Outcome where
  | on (next : Plot)
  /-- The caller is told, and the parse goes on as it answers. -/
  | waits (status : Status) (next : Plot)
  | stops (ending : Ending)

/-! ## What is seen of a parse -/

/-- A status without the nodes and places it names. -/
def Status.kind : Status → Status
  | .reduction production _ _ => .reduction production 0 []
  | .generation token text _ => .generation token text Span.unknown
  | status => status

/-- An error without the place it names. -/
def Error.kind : Error → Error
  | .lexical region _ => .lexical region Position.start
  | .unexpected token state _ => .unexpected token state Span.unknown
  | .rejected production _ => .rejected production Span.unknown
  | e => e

/-- A decision, a status or an error, without nodes and places.  Of other events nothing is seen. -/
def Event.kind? : Event → Option Event
  | .decided state lookahead decision => some (.decided state lookahead decision)
  | .suspended status => some (.suspended status.kind)
  | .failed e => some (.failed e.kind)
  | _ => none

/-- An ending without nodes and places. -/
def Ending.kind : Ending → Ending
  | .ok status => .ok status.kind
  | .error (.error e) => .error (.error e.kind)
  | .error (.fault f) => .error (.fault f)

/-- The parse was not allowed to go on for long enough. -/
def Ending.unfinished : Ending :=
  .error (.fault .unfinished)

/-- What is seen of a driven parse, and how it ends. -/
structure Tale where
  events : List Event
  ending : Ending

namespace Tale

/-- A tale behind other events. -/
def after (told : List Event) (t : Tale) : Tale :=
  { t with events := told ++ t.events }

lemma after_after (told more : List Event) (t : Tale) :
    (t.after more).after told = t.after (told ++ more) :=
  congrArg (Tale.mk · t.ending) (List.append_assoc ..).symm

/-- The second tale is the first, as far as that goes. -/
def Opens (t u : Tale) : Prop :=
  t = u ∨ t.ending = .unfinished ∧ t.events <+: u.events

lemma Opens.refl (t : Tale) : t.Opens t := .inl rfl

/-- A tale that is finished is whole. -/
lemma Opens.eq_of_finished {t u : Tale} (h : t.Opens u) (hending : t.ending ≠ .unfinished) :
    t = u :=
  h.resolve_right fun hopen => hending hopen.1

lemma Opens.after {t u : Tale} (h : t.Opens u) (told : List Event) :
    (t.after told).Opens (u.after told) := by
  rcases h with rfl | ⟨hending, hprefix⟩
  · exact .inl rfl
  · exact .inr ⟨hending, (List.prefix_append_right_inj told).2 hprefix⟩

end Tale

/-- What the call that ends a parse tells at last. -/
def Ending.closing : Ending → List Event
  | .ok status => [.suspended status]
  | .error (.error e) => if e.isFatal then [.failed e] else []
  | .error (.fault _) => []

/-! ## Moves -/

namespace Gist

/-- Whether the parse is at its end. -/
def ended (m : Machine) (γ : Gist) : Bool :=
  match γ.stack with
  | [] => false
  | (top, _) :: below => top = m.grammar.eof ∨ (m.fragment = some top ∧ below = [])

/-- Acquires a lookahead in regions, unless none of them finds anything.  The caller may have to
act. -/
def acquire (m : Machine) (reads : Alphabet) (γ : Gist) :
    List RegionId → Option (Gist × Option Status)
  | [] => none
  | region :: rest =>
    match γ.input with
    | [] =>
      if m.grammar.actsAtEnd region ∧ γ.endActionRan = false then
        some ({ γ with endActionRan := true }, some (.preEof region))
      else
        some ({ γ with queue := [m.grammar.eof] }, none)
    | .leaf element :: input => some ({ γ with queue := [element], input }, none)
    | .byte b :: input =>
      ((region :: rest).findSome? (reads · b)).map fun element =>
        if m.grammar.generates element then
          ({ γ with input }, some (.generation element [b] Span.unknown))
        else if m.grammar.ignores element then
          ({ γ with input }, none)
        else
          ({ γ with queue := [element], input }, none)

section Acquire

variable {m : Machine} {reads : Alphabet} {γ : Gist} {region : RegionId} {regions : List RegionId}
  {input : List Morsel}

lemma acquire_byte {b : UInt8} {element : ElementId} (hregions : regions ≠ [])
    (hinput : γ.input = .byte b :: input) (hfirst : regions.findSome? (reads · b) = some element) :
    γ.acquire m reads regions = some (
      if m.grammar.generates element then
        ({ γ with input }, some (.generation element [b] Span.unknown))
      else if m.grammar.ignores element then
        ({ γ with input }, none)
      else
        ({ γ with queue := [element], input }, none)) := by
  cases regions with
  | nil => exact absurd rfl hregions
  | cons region rest =>
    rw [acquire, hinput]
    simp only [hfirst, Option.map_some]

lemma acquire_leaf {element : ElementId} (hregions : regions ≠ [])
    (hinput : γ.input = .leaf element :: input) :
    γ.acquire m reads regions = some ({ γ with queue := [element], input }, none) := by
  cases regions with
  | nil => exact absurd rfl hregions
  | cons region rest => rw [acquire, hinput]

lemma acquire_nil (hinput : γ.input = []) :
    γ.acquire m reads (region :: regions) = some (
      if m.grammar.actsAtEnd region ∧ γ.endActionRan = false then
        ({ γ with endActionRan := true }, some (.preEof region))
      else
        ({ γ with queue := [m.grammar.eof] }, none)) := by
  rw [acquire, hinput]
  exact (apply_ite some _ _ _).symm

end Acquire

/-- The lookahead is put on the stack. -/
def shifted (target : StateId) (γ : Gist) : Gist :=
  match γ.queue with
  | [] => γ
  | element :: queue =>
    { γ with state := target, stack := (element, target) :: γ.stack, queue }

/-- The top of the stack is replaced by a tree, which becomes the lookahead. -/
def reduced (m : Machine) (info : Grammar.Production) (γ : Gist) : Gist :=
  { γ with
    state := ((γ.stack.drop info.length).head?.map Prod.snd).getD m.start
    stack := γ.stack.drop info.length
    queue := info.lhs :: γ.queue }

/-- The elements of which a reduction makes a tree, from left to right. -/
def children (info : Grammar.Production) (γ : Gist) : List ElementId :=
  ((γ.stack.take info.length).map Prod.fst).reverse

/-- Reduces, if the stack is high enough.  The caller is told of it if the production says so. -/
def reduce (m : Machine) (production : ProductionId) (γ : Gist) :
    Except (Failure Error) (Gist × Option (ProductionId × List ElementId)) :=
  match entry m.grammar.productions production with
  | .error f => .error (.fault f)
  | .ok info =>
    if info.length ≤ γ.stack.length then
      .ok (γ.reduced m info, if info.hasAction then some (production, γ.children info) else none)
    else
      .error (.error (.misuse (.stackUnderflow production info.length γ.stack.length)))

/-- Does what was decided. -/
def act (m : Machine) (target : StateId) (γ : Gist) :
    Grammar.Action → Except (Failure Error) (Gist × Option (ProductionId × List ElementId))
  | .shift => .ok (γ.shifted target, none)
  | .reduce production => γ.reduce m production
  | .shiftReduce production => (γ.shifted target).reduce m production

/-- Completes a step, which commits or not. -/
def complete (m : Machine) (left : List Fork) (commits : Bool) (γ : Gist) : Outcome :=
  if γ.ended m then .stops (.ok .done)
  else .on ⟨γ, if commits then [] else left, .going 0⟩

/-- Turns back to the latest choice left open, or ends with the error. -/
def turnBack (e : Error) (left : List Fork) (γ : Gist) : Outcome :=
  match left with
  | [] => .stops (.error (.error e))
  | _ :: _ => .on ⟨γ, left, .back⟩

/-- The choices left open when a decision is taken. -/
def fork (alternative : Nat) (more : Bool) (left : List Fork) (γ : Gist) : List Fork :=
  if more then (γ, alternative + 1) :: left else left

/-- Does what was decided, and completes the step if nobody has to act first. -/
def follow (m : Machine) (left : List Fork) (decision : Grammar.Decision) (γ : Gist) : Outcome :=
  match entry m.grammar.commits decision.transition with
  | .error f => .stops (.error (.fault f))
  | .ok commits =>
    match entry m.grammar.targets decision.transition with
    | .error f => .stops (.error (.fault f))
    | .ok target =>
      match γ.act m target decision.action with
      | .error x => .stops (.error x)
      | .ok (γ', none) =>
        γ'.complete m (γ.fork decision.alternative decision.more left) (commits ≠ 0)
      | .ok (γ', some (production, children)) =>
        .waits (.reduction production 0 []) ⟨γ', γ.fork decision.alternative decision.more left,
          .acting production children (commits ≠ 0)⟩

/-- Decides what to do with the lookahead, and does it. -/
def step (m : Machine) (left : List Fork) (retry : Nat) (lookahead : ElementId) (γ : Gist) :
    List Event × Outcome :=
  match m.grammar.decide γ.state lookahead retry with
  | .error f => ([], .stops (.error (.fault f)))
  | .ok none =>
    let e : Error := .unexpected lookahead γ.state Span.unknown
    ([.failed e], γ.turnBack e left)
  | .ok (some decision) => ([.decided γ.state lookahead decision], γ.follow m left decision)

/-- Looks for a lookahead. -/
def look (m : Machine) (reads : Alphabet) (left : List Fork) (retry : Nat) (γ : Gist) :
    List Event × Outcome :=
  match m.grammar.regionsOf γ.state with
  | .error f => ([], .stops (.error (.fault f)))
  | .ok regions =>
    match γ.acquire m reads regions with
    | none =>
      let e : Error := .lexical (regions.headD 0) Position.start
      ([.failed e], γ.turnBack e left)
    | some (γ', none) => ([], .on ⟨γ', left, .going retry⟩)
    | some (γ', some status) => ([], .waits status ⟨γ', left, .going retry⟩)

end Gist

/-- What is told from an outcome on. -/
def Outcome.tale (play : Plot → Tale) : Outcome → Tale
  | .on next => play next
  | .waits status next => (play next).after [.suspended status]
  | .stops ending => ⟨ending.closing, ending⟩

lemma Outcome.tale_opens {play play' : Plot → Tale} (h : ∀ next, (play next).Opens (play' next))
    (outcome : Outcome) : (outcome.tale play).Opens (outcome.tale play') := by
  cases outcome with
  | on next => exact h next
  | waits status next => exact (h next).after _
  | stops ending => exact .refl _

namespace Plot

/-- One move of a driven parse, and what is told on the way. -/
def tick (m : Machine) (reads : Alphabet) (rejects : ProductionId → List ElementId → Bool)
    (π : Plot) : List Event × Outcome :=
  match π.stage with
  | .going retry =>
    match π.gist.queue with
    | lookahead :: _ => π.gist.step m π.left retry lookahead
    | [] => π.gist.look m reads π.left retry
  | .back =>
    match π.left with
    | (γ, alternative) :: left => ([], .on ⟨γ, left, .going alternative⟩)
    | [] => ([], .on π)
  | .acting production children commits =>
    if rejects production children then
      let e : Error := .rejected production Span.unknown
      ([.failed e], π.gist.turnBack e π.left)
    else
      ([], π.gist.complete m π.left commits)

variable {m : Machine} {reads : Alphabet} {rejects : ProductionId → List ElementId → Bool}

/-- What is seen of a driven parse in so many moves. -/
def play (m : Machine) (reads : Alphabet) (rejects : ProductionId → List ElementId → Bool) :
    (moves : Nat) → Plot → Tale
  | 0, _ => ⟨[], .unfinished⟩
  | moves + 1, π => ((π.tick m reads rejects).2.tale (play m reads rejects moves)).after
    (π.tick m reads rejects).1

/-- More moves add to what is told. -/
lemma play_opens {moves more : Nat} (π : Plot) (h : moves ≤ more) :
    (play m reads rejects moves π).Opens (play m reads rejects more π) := by
  induction moves generalizing π more with
  | zero => exact .inr ⟨rfl, List.nil_prefix⟩
  | succ moves ih =>
    obtain ⟨more, rfl⟩ := Nat.exists_eq_succ_of_ne_zero (Nat.ne_zero_of_lt h)
    exact ((π.tick m reads rejects).2.tale_opens fun next =>
      ih next (Nat.le_of_succ_le_succ h)).after
      (π.tick m reads rejects).1

end Plot

end Rewind.Run
