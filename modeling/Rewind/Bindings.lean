import Rewind.Vocabulary

/-!
# Bindings of pattern variables

Semantic actions may give a node to a variable, for later actions to find.  The bindings are kept
in the order of their variables, each variable once, so equal bindings are equal values however
they came about.  Every change hands back what was there before, which is all that is needed to
take the change back.
-/

namespace Rewind

/-- A finite map from variables to nodes. -/
structure Bindings where
  entries : List (VariableId × NodeId) := []
  sorted : entries.Pairwise (fun a b => a.1 < b.1) := by exact List.Pairwise.nil
  deriving Repr

namespace Bindings

@[ext] theorem ext {b c : Bindings} (h : b.entries = c.entries) : b = c := by
  cases b
  cases c
  simp_all

instance : DecidableEq Bindings := fun b c =>
  decidable_of_iff (b.entries = c.entries) ⟨ext, fun h => h ▸ rfl⟩

/-- No variable is bound. -/
def empty : Bindings := {}

/-- The number of variables bound. -/
def size (b : Bindings) : Nat :=
  b.entries.length

/-- The node of a variable. -/
def get? (b : Bindings) (v : VariableId) : Option NodeId :=
  b.entries.lookup v

/-- Unbinds a variable. -/
def erase (b : Bindings) (v : VariableId) : Bindings where
  entries := b.entries.filter (·.1 ≠ v)
  sorted := b.sorted.filter _

/-- Binds a variable, bound before or not. -/
def insert (b : Bindings) (v : VariableId) (node : NodeId) : Bindings where
  entries := b.entries.filter (·.1 < v) ++
    (v, node) :: b.entries.filter (v < ·.1)
  sorted := by
    rw [List.pairwise_append]
    refine ⟨b.sorted.filter _, ?_, ?_⟩
    · rw [List.pairwise_cons]
      exact ⟨fun c hc => by simpa using (List.mem_filter.1 hc).2, b.sorted.filter _⟩
    · intro a ha c hc
      have hav : a.1 < v := by simpa using (List.mem_filter.1 ha).2
      rcases List.mem_cons.1 hc with rfl | hc
      · exact hav
      · exact Nat.lt_trans hav (by simpa using (List.mem_filter.1 hc).2)

/-- Puts a variable back to what it was bound to at some earlier moment. -/
def restore (b : Bindings) (v : VariableId) : Option NodeId → Bindings
  | some node => b.insert v node
  | none => b.erase v

end Bindings

end Rewind
