import Mathlib.Tactic.Lemma
import Rewind.Run.Op

/-!
# What an attempt came to

An operation is read step by step: a sequence succeeds if its parts do, one after the other, and
fails where the first of them fails.  With one equation for each primitive operation of a run, a
successful operation is taken apart into the changes it made.

A parse error is never reported by a primitive operation: what they report is `Grave`, which means
that the run is over.
-/

namespace Rewind

namespace Attempt

variable {ε σ α β : Type}

lemma bind_eq_ok {x : Attempt ε σ α} {f : α → Attempt ε σ β} {s u : σ} {b : β} :
    (x >>= f) s = .ok b u ↔ ∃ a t, x s = .ok a t ∧ f a t = .ok b u := by
  change EStateM.bind x f s = _ ↔ _
  unfold EStateM.bind
  cases hx : x s with
  | ok a t =>
    constructor
    · exact fun h => ⟨a, t, rfl, h⟩
    · rintro ⟨a', t', h, h'⟩
      cases h
      exact h'
  | error e t => simp

lemma bind_eq_error {x : Attempt ε σ α} {f : α → Attempt ε σ β} {s u : σ} {e : Failure ε} :
    (x >>= f) s = .error e u ↔
      x s = .error e u ∨ ∃ a t, x s = .ok a t ∧ f a t = .error e u := by
  change EStateM.bind x f s = _ ↔ _
  unfold EStateM.bind
  cases hx : x s with
  | ok a t =>
    constructor
    · exact fun h => .inr ⟨a, t, rfl, h⟩
    · rintro (h | ⟨a', t', h, h'⟩)
      · cases h
      · cases h
        exact h'
  | error e t => simp

lemma bind_ok {x : Attempt ε σ α} {s t : σ} {a : α} (h : x s = .ok a t)
    (f : α → Attempt ε σ β) : (x >>= f) s = f a t := by
  change EStateM.bind x f s = _
  unfold EStateM.bind
  rw [h]

lemma bind_error {x : Attempt ε σ α} {s t : σ} {e : Failure ε} (h : x s = .error e t)
    (f : α → Attempt ε σ β) : (x >>= f) s = .error e t := by
  change EStateM.bind x f s = _
  unfold EStateM.bind
  rw [h]

/-- What follows does not depend on how the result was come by. -/
lemma bind_of_eq {x y : Attempt ε σ α} {f : α → Attempt ε σ β} {s t : σ} (h : x s = y t) :
    (x >>= f) s = (y >>= f) t := by
  cases hy : y t with
  | ok a u => rw [bind_ok hy, bind_ok (h.trans hy)]
  | error e u => rw [bind_error hy, bind_error (h.trans hy)]

@[simp] lemma pure_apply (a : α) (s : σ) : (pure a : Attempt ε σ α) s = .ok a s := rfl

@[simp] lemma get_bind (f : σ → Attempt ε σ β) (s : σ) : (get >>= f) s = f s s := rfl

@[simp] lemma modify_apply (f : σ → σ) (s : σ) :
    (modify f : Attempt ε σ Unit) s = .ok () (f s) := rfl

@[simp] lemma modify_bind (g : σ → σ) (f : Unit → Attempt ε σ β) (s : σ) :
    (modify g >>= f) s = f () (g s) := rfl

@[simp] lemma throw_apply (e : Failure ε) (s : σ) :
    (throw e : Attempt ε σ α) s = .error e s := rfl

lemma lift_eq_ok {x : Except Fault α} {s t : σ} {a : α} :
    (lift x : Attempt ε σ α) s = .ok a t ↔ x = .ok a ∧ t = s := by
  unfold lift
  cases x <;> simp [eq_comm]

lemma lift_ne_error {x : Except Fault α} {s t : σ} {e : ε} :
    (lift x : Attempt ε σ α) s ≠ .error (.error e) t := by
  unfold lift
  cases x <;> simp

end Attempt

namespace Except

variable {ε α β : Type}

lemma bind_eq_ok {x : Except ε α} {f : α → Except ε β} {b : β} :
    (x >>= f) = .ok b ↔ ∃ a, x = .ok a ∧ f a = .ok b := by
  cases x <;> simp [bind, Except.bind]

end Except

namespace Run

open Attempt

/-- Whether an error lies in the input, and was not met before. -/
def Error.isInInput : Error → Bool
  | lexical _ _ | unexpected _ _ _ | rejected _ _ => true
  | _ => false

/-- An operation that reports no error but those that end the run. -/
def Grave {α : Type} (op : Op α) : Prop :=
  ∀ ⦃r s : Run⦄ ⦃e : Error⦄, op r = .error (.error e) s → e.isFatal = true

/-! ## Primitive operations -/

namespace Op

@[simp] lemma lookup_ok_bind {α β : Type} (a : α) (f : α → Op β) (r : Run) :
    (lookup (.ok a) >>= f) r = f a r := rfl

lemma lookup_eq_ok {α : Type} {x : Except Fault α} {r s : Run} {a : α} :
    lookup x r = .ok a s ↔ x = .ok a ∧ s = r := lift_eq_ok

@[simp] lemma write_apply (record : Record) (r : Run) :
    write record r = .ok () { r with log := r.log.append record } := rfl

@[simp] lemma tell_apply (event : Event) (r : Run) :
    tell event r = .ok () { r with events := event :: r.events } := rfl

@[simp] lemma write_bind {β : Type} (record : Record) (f : Unit → Op β) (r : Run) :
    (write record >>= f) r = f () { r with log := r.log.append record } := rfl

@[simp] lemma tell_bind {β : Type} (event : Event) (f : Unit → Op β) (r : Run) :
    (tell event >>= f) r = f () { r with events := event :: r.events } := rfl

lemma read_eq_ok {f : Forest} {id : NodeId} {n : Node} :
    Pool.read f id = .ok n ↔ Pool.get? f id = some n := by
  unfold Pool.read
  split <;> simp_all

lemma node_eq_ok {id : NodeId} {r s : Run} {n : Node} :
    node id r = .ok n s ↔ Pool.get? r.forest id = some n ∧ s = r := by
  simp only [node, get_bind, lookup_eq_ok, read_eq_ok]

lemma node_ok {id : NodeId} {r : Run} {n : Node} (h : Pool.get? r.forest id = some n) :
    node id r = .ok n r :=
  node_eq_ok.2 ⟨h, rfl⟩

lemma change_eq_ok {id : NodeId} {f : Node → Node} {r s : Run} {u : Unit} :
    change id f r = .ok u s ↔
      ∃ n, Pool.get? r.forest id = some n ∧ s = { r with forest := r.forest.put id (f n) } := by
  unfold change
  split
  · rename_i n hn
    simp [hn, eq_comm]
  · rename_i hn
    simp [hn]

lemma change_ok {id : NodeId} {f : Node → Node} {r : Run} {n : Node}
    (h : Pool.get? r.forest id = some n) :
    change id f r = .ok () { r with forest := r.forest.put id (f n) } :=
  change_eq_ok.2 ⟨n, h, rfl⟩

lemma alloc_eq_ok {node : Node} {r s : Run} {id : NodeId} :
    alloc node r = .ok id s ↔
      ∃ forest, Pool.alloc r.forest node = (.ok id, forest) ∧ s = { r with forest } := by
  unfold alloc
  split
  · rename_i id' forest h
    simp only [h, EStateM.Result.ok.injEq, Prod.mk.injEq, Except.ok.injEq]
    constructor
    · rintro ⟨rfl, rfl⟩
      exact ⟨forest, ⟨rfl, rfl⟩, rfl⟩
    · rintro ⟨forest', ⟨rfl, rfl⟩, rfl⟩
      exact ⟨rfl, rfl⟩
  · rename_i h
    simp [h]

lemma release_ok {id : NodeId} {r : Run} {n : Node} (h : Pool.get? r.forest id = some n) :
    release id r = .ok (some n) { r with forest := r.forest.vacate id } := by
  simp [release, h]

lemma takeFront_eq_ok {id : NodeId} {r s : Run} {u : Unit} :
    takeFront id r = .ok u s ↔
      ∃ rest, r.queue = id :: rest ∧ s = { r with queue := rest } := by
  unfold takeFront
  rw [get_bind]
  cases hq : r.queue with
  | nil => simp [fail]
  | cons first rest =>
    by_cases hid : first = id
    · simp [hid, eq_comm]
    · simp [hid, fail]

lemma takeBack_ok {id : NodeId} {r : Run} {front : List NodeId} (h : r.queue = front ++ [id]) :
    takeBack id r = .ok () { r with queue := front } := by
  simp [takeBack, h]

lemma onStream_eq_ok {α : Type} {f : Stream → α × Stream} {r s : Run} {a : α} :
    onStream f r = .ok a s ↔ ∃ stream, r.scanner.stream = some stream ∧ a = (f stream).1 ∧
      s = { r with scanner := { r.scanner with stream := some (f stream).2 } } := by
  unfold onStream onScanner Scanner.onStream
  cases hs : r.scanner.stream with
  | none => simp
  | some stream => simp [eq_comm]

lemma changeStream_eq_ok {f : Stream → Stream} {r s : Run} {u : Unit} :
    changeStream f r = .ok u s ↔ ∃ stream, r.scanner.stream = some stream ∧
      s = { r with scanner := { r.scanner with stream := some (f stream) } } := by
  simp only [changeStream, onStream_eq_ok, true_and]

lemma changeStream_ok {f : Stream → Stream} {r : Run} {stream : Stream}
    (h : r.scanner.stream = some stream) :
    changeStream f r =
      .ok () { r with scanner := { r.scanner with stream := some (f stream) } } :=
  changeStream_eq_ok.2 ⟨stream, h, rfl⟩

lemma setAside_eq_ok {id : NodeId} {r s : Run} {u : Unit} :
    setAside id r = .ok u s ↔ ∃ n, Pool.get? r.forest id = some n ∧
      s = { r with forest := r.forest.put id { n with next := r.aside }, aside := some id } := by
  simp only [setAside, get_bind, bind_eq_ok, change_eq_ok, modify_apply]
  constructor
  · rintro ⟨-, t, ⟨n, hn, rfl⟩, h⟩
    cases h
    exact ⟨n, hn, rfl⟩
  · rintro ⟨n, hn, rfl⟩
    exact ⟨(), _, ⟨n, hn, rfl⟩, rfl⟩

end Op

end Run

end Rewind
