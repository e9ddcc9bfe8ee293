import Rewind.Proofs.Attempt
import Rewind.Proofs.Pool
import Rewind.Run.Step
import Rewind.Run.Undo

/-!
# Chains of nodes

`Linked nodes head ids tail` says that the links lead from `head` through the nodes `ids`, in their
order, to `tail`.  Every list a run keeps in its forest is such a chain, and what the run does to
its lists comes down to three things: following a chain, taking its first nodes off, and linking
nodes anew.

Linking anew changes no part of a node but its link (`Relinked`).  Nodes that are linked in the same
order as before, towards the same tail, are therefore the same nodes as before.  That is why the
children of a tree can be put back on the stack.
-/

namespace Rewind

/-- A node without its place in a chain. -/
def Node.unlinked (n : Node) : Node :=
  { n with next := none }

/-- What each slot holds. -/
abbrev Nodes := NodeId → Option Node

/-- From `head`, links lead through `ids` to `tail`. -/
inductive Linked (nodes : Nodes) : Option NodeId → List NodeId → Option NodeId → Prop
  | nil (tail : Option NodeId) : Linked nodes tail [] tail
  | cons {id : NodeId} {n : Node} {rest : List NodeId} {tail : Option NodeId} :
    nodes id = some n → Linked nodes n.next rest tail → Linked nodes (some id) (id :: rest) tail

namespace Linked

variable {nodes nodes' : Nodes} {head middle tail : Option NodeId} {ids xs ys : List NodeId}

lemma append (hx : Linked nodes head xs middle) (hy : Linked nodes middle ys tail) :
    Linked nodes head (xs ++ ys) tail := by
  induction hx with
  | nil => exact hy
  | cons hn _ ih => exact .cons hn (ih hy)

lemma head_eq (h : Linked nodes head ids tail) : head = ids.head?.or tail := by
  cases h <;> rfl

lemma live (h : Linked nodes head ids tail) : ∀ id ∈ ids, (nodes id).isSome := by
  induction h with
  | nil => simp
  | cons hn _ ih => simpa [hn] using ih

/-- A chain depends on the nodes it passes only. -/
lemma congr (h : Linked nodes head ids tail) (hsame : ∀ id ∈ ids, nodes' id = nodes id) :
    Linked nodes' head ids tail := by
  induction h with
  | nil => exact .nil _
  | cons hn _ ih =>
    refine .cons ?_ (ih fun id hid => hsame id (List.mem_cons_of_mem _ hid))
    rw [hsame _ List.mem_cons_self]
    exact hn

/-- A chain that ends goes on behind any part of it. -/
lemma behind (hx : Linked nodes head xs middle) (h : Linked nodes head ids none) :
    ∃ ys, ids = xs ++ ys ∧ Linked nodes middle ys none := by
  induction hx generalizing ids with
  | nil => exact ⟨ids, rfl, h⟩
  | cons hn _ ih =>
    cases h with
    | cons hn' h =>
      rw [hn] at hn'
      cases hn'
      obtain ⟨ys, rfl, hys⟩ := ih h
      exact ⟨ys, rfl, hys⟩

/-- There is one chain only from a node to the end of links. -/
lemma unique (hx : Linked nodes head xs none) (hy : Linked nodes head ys none) : xs = ys := by
  induction xs generalizing head ys with
  | nil =>
    cases hx
    cases hy
    rfl
  | cons id xs ih =>
    cases hx with
    | cons hn hx =>
      cases hy with
      | cons hn' hy =>
        rw [hn] at hn'
        cases hn'
        rw [ih hx hy]

/-- A vacant slot is on no chain. -/
lemma not_mem_of_vacant {id : NodeId} (h : Linked nodes head ids tail) (hid : nodes id = none) :
    id ∉ ids := by
  intro hmem
  have hlive := h.live id hmem
  simp [hid] at hlive

lemma update_of_not_mem {id : NodeId} {x : Option Node} (h : Linked nodes head ids tail)
    (hid : id ∉ ids) : Linked (Function.update nodes id x) head ids tail := by
  refine h.congr fun j hj => Function.update_of_ne ?_ _ _
  rintro rfl
  exact hid hj

end Linked

/-- Only links of `ids` have changed. -/
structure Relinked (nodes nodes' : Nodes) (ids : List NodeId) : Prop where
  elsewhere : ∀ id, id ∉ ids → nodes' id = nodes id
  unlinked : ∀ id, (nodes' id).map Node.unlinked = (nodes id).map Node.unlinked

namespace Relinked

variable {nodes nodes' nodes'' : Nodes} {ids : List NodeId}

lemma refl (nodes : Nodes) (ids : List NodeId) : Relinked nodes nodes ids :=
  ⟨fun _ _ => rfl, fun _ => rfl⟩

lemma trans (h : Relinked nodes nodes' ids) (h' : Relinked nodes' nodes'' ids) :
    Relinked nodes nodes'' ids :=
  ⟨fun id hid => (h'.elsewhere id hid).trans (h.elsewhere id hid),
    fun id => (h'.unlinked id).trans (h.unlinked id)⟩

lemma mono {more : List NodeId} (h : Relinked nodes nodes' ids) (hsub : ids ⊆ more) :
    Relinked nodes nodes' more :=
  ⟨fun id hid => h.elsewhere id fun hmem => hid (hsub hmem), h.unlinked⟩

/-- Changing the link of one node. -/
lemma update {id : NodeId} {n : Node} (hn : nodes id = some n) (next : Option NodeId) :
    Relinked nodes (Function.update nodes id (some { n with next })) [id] := by
  refine ⟨fun j hj => Function.update_of_ne (by simpa using hj) _ _, fun j => ?_⟩
  by_cases hj : j = id
  · subst hj
    simp [hn, Node.unlinked]
  · rw [Function.update_of_ne hj]

lemma live_iff (h : Relinked nodes nodes' ids) (id : NodeId) :
    (nodes' id).isSome ↔ (nodes id).isSome := by
  have hu := congrArg Option.isSome (h.unlinked id)
  simpa using hu

/-- Nodes linked as before are the nodes they were. -/
lemma eq_of_linked {head head' tail : Option NodeId} (h : Relinked nodes nodes' ids)
    (hbefore : Linked nodes head ids tail) (hafter : Linked nodes' head' ids tail) :
    nodes' = nodes := by
  have hids : ∀ xs head head', Linked nodes head xs tail → Linked nodes' head' xs tail →
      ∀ id ∈ xs, nodes' id = nodes id := by
    intro xs
    induction xs with
    | nil => simp
    | cons id xs ih =>
      intro head head' hx hy
      cases hx with
      | cons hn hx =>
        cases hy with
        | cons hn' hy =>
          rename_i n n'
          have hnext : n'.next = n.next := hy.head_eq.trans hx.head_eq.symm
          have hunlinked : n'.unlinked = n.unlinked := by
            simpa [hn, hn'] using h.unlinked id
          have hsame : n' = n :=
            calc n' = { n'.unlinked with next := n'.next } := rfl
              _ = { n.unlinked with next := n.next } := by rw [hunlinked, hnext]
          intro j hj
          rcases List.mem_cons.1 hj with rfl | hj
          · rw [hn, hn', hsame]
          · exact ih _ _ hx hy j hj
  funext id
  by_cases hid : id ∈ ids
  · exact hids ids head head' hbefore hafter id hid
  · exact h.elsewhere id hid

end Relinked

/-! ## Following a chain -/

namespace Forest

variable {f : Forest} {head tail : Option NodeId} {ids : List NodeId}

/-- A chain that ends is visited from its first node to its last, if the search for its end is
allowed to go that far. -/
lemma walkUpTo_eq_mapM {β : Type} (visit : NodeId → Except Fault β) {fuel : Nat}
    (h : Linked (Pool.get? f) head ids none) (hfuel : ids.length ≤ fuel) :
    f.walkUpTo visit fuel head = ids.mapM visit := by
  induction ids generalizing head fuel with
  | nil =>
    cases h
    simp [walkUpTo, pure, Except.pure]
  | cons id ids ih =>
    cases h with
    | cons hn h =>
      obtain _ | fuel := fuel
      · simp at hfuel
      · have hread := Run.Op.read_eq_ok.2 hn
        have hrest := ih h (by simpa using hfuel)
        rw [walkUpTo, hread, List.mapM_cons, ← hrest]
        rfl

lemma length_le_pathBound (h : Linked (Pool.get? f) head ids tail) (hnodup : ids.Nodup) :
    ids.length ≤ f.pathBound :=
  Nat.le_succ_of_le (Pool.length_le_size hnodup h.live)

lemma walk_eq_mapM {β : Type} (visit : NodeId → Except Fault β)
    (h : Linked (Pool.get? f) head ids none) (hnodup : ids.Nodup) :
    f.walk visit head = ids.mapM visit :=
  walkUpTo_eq_mapM visit h (length_le_pathBound h hnodup)

lemma chain_of_linked (h : Linked (Pool.get? f) head ids none) (hnodup : ids.Nodup) :
    f.chain head = .ok ids := by
  rw [chain, walk_eq_mapM _ h hnodup]
  have hpure := List.mapM_pure (m := Except Fault) (l := ids) (f := fun id => id)
  rw [List.map_id'] at hpure
  exact hpure

/-- A node without children and ignored tokens is a whole tree. -/
lemma freeTree_leaf {id : NodeId} {n : Node} (hn : Pool.get? f id = some n)
    (hchild : n.child = none) (hignored : n.ignored = none) :
    f.freeTree id = .ok (f.vacate id) := by
  rw [freeTree, freeAll]
  split
  · simp_all
  · rename_i n' hn'
    obtain rfl : n = n' := by simpa [hn] using hn'
    simp [hchild, hignored, chain, walk, walkUpTo, freeAll, bind, Except.bind]

end Forest

namespace Run

/-! ## Taking the first nodes of a stack -/

lemma linked_of_unstack {f : Forest} {needed : Nat} {top below : Option NodeId}
    {taken children : List NodeId} (h : unstack f needed top taken = .ok (.ok (children, below))) :
    ∃ ids, children = ids.reverse ++ taken ∧ ids.length = needed ∧
      Linked (Pool.get? f) top ids below := by
  induction needed generalizing top taken with
  | zero =>
    cases h
    exact ⟨[], rfl, rfl, .nil _⟩
  | succ needed ih =>
    obtain _ | id := top
    · cases h
    · simp only [unstack, Except.bind_eq_ok, Op.read_eq_ok] at h
      obtain ⟨n, hn, h⟩ := h
      obtain ⟨ids, rfl, hlength, hlinked⟩ := ih h
      exact ⟨id :: ids, by simp, by simp [hlength], .cons hn hlinked⟩

/-! ## Linking anew -/

open Attempt Op

lemma linkSiblings_ok {ids : List NodeId} {r s : Run} {u : Unit}
    (h : linkSiblings ids r = .ok u s) (hnodup : ids.Nodup) (hsound : Pool.Sound r.forest) :
    ∃ forest, s = { r with forest } ∧ Pool.Sound forest ∧
      Relinked (Pool.get? r.forest) (Pool.get? forest) ids ∧
      Linked (Pool.get? forest) ids.head? ids none := by
  induction ids generalizing r with
  | nil =>
    cases h
    exact ⟨_, rfl, hsound, .refl _ _, .nil _⟩
  | cons id ids ih =>
    simp only [linkSiblings, bind_eq_ok, change_eq_ok] at h
    obtain ⟨-, t, ⟨n, hn, rfl⟩, h⟩ := h
    obtain ⟨hid, hnodup⟩ := List.nodup_cons.1 hnodup
    obtain ⟨forest, rfl, hsound', hrelinked, hlinked⟩ := ih h hnodup (hsound.put hn)
    have hfirst : Relinked (Pool.get? r.forest) (Pool.get? (r.forest.put id
        { n with next := ids.head? })) [id] := by
      rw [Pool.get?_put hn]
      exact .update hn _
    have hn' : Pool.get? forest id = some { n with next := ids.head? } := by
      rw [hrelinked.elsewhere id hid, Pool.get?_put hn, Function.update_self]
    exact ⟨forest, rfl, hsound',
      (hfirst.mono (by simp)).trans (hrelinked.mono (List.subset_cons_self _ _)),
      .cons hn' hlinked⟩

/-- The children of a tree become the top of the stack, the last of them on top. -/
lemma restack_ok {ids : List NodeId} {r : Run} (hnodup : ids.Nodup)
    (hsound : Pool.Sound r.forest)
    (hlive : ∀ id ∈ ids, (Pool.get? r.forest id).isSome) :
    ∃ forest stack, restack ids r = .ok () { r with forest, stack } ∧ Pool.Sound forest ∧
      Relinked (Pool.get? r.forest) (Pool.get? forest) ids ∧
      Linked (Pool.get? forest) stack ids.reverse r.stack ∧ Pool.SameSlots r.forest forest := by
  induction ids generalizing r with
  | nil => exact ⟨_, _, rfl, hsound, .refl _ _, .nil _, .refl _⟩
  | cons id ids ih =>
    obtain ⟨n, hn⟩ := Option.isSome_iff_exists.1 (hlive id List.mem_cons_self)
    obtain ⟨hid, hnodup⟩ := List.nodup_cons.1 hnodup
    have hfirst : Relinked (Pool.get? r.forest) (Pool.get? (r.forest.put id
        { n with next := r.stack })) [id] := by
      rw [Pool.get?_put hn]
      exact .update hn _
    let t : Run := { r with
      forest := r.forest.put id { n with next := r.stack }, stack := some id }
    obtain ⟨forest, stack, h, hsound', hrelinked, hlinked, hslots⟩ :=
      ih (r := t) hnodup (hsound.put hn) fun j hj =>
        (hfirst.live_iff j).2 (hlive j (List.mem_cons_of_mem _ hj))
    have hn' : Pool.get? forest id = some { n with next := r.stack } := by
      rw [hrelinked.elsewhere id hid, Pool.get?_put hn, Function.update_self]
    refine ⟨forest, stack, ?_, hsound',
      (hfirst.mono (by simp)).trans (hrelinked.mono (List.subset_cons_self _ _)), ?_,
      (Pool.sameSlots_put ..).trans hslots⟩
    · rw [restack, get_bind, bind_ok (change_ok hn), modify_bind]
      exact h
    · rw [List.reverse_cons]
      exact hlinked.append (.cons hn' (.nil _))

end Run

/-! ## Releases -/

namespace Pool

variable {f g : Forest} {ids : List NodeId}

/-- Releases leave a forest sound. -/
lemma Sound.freeAll (hf : Sound f) (h : f.freeAll ids = .ok g) : Sound g := by
  induction f, ids using Forest.freeAll.induct with
  | case1 f =>
    rw [Forest.freeAll] at h
    cases h
    exact hf
  | case2 f id pending hnone ih =>
    rw [Forest.freeAll] at h
    split at h
    · exact ih hf h
    · rename_i hsome
      rw [hnone] at hsome
      cases hsome
  | case3 f id pending n hn _ ih =>
    rw [Forest.freeAll] at h
    split at h
    · rename_i hnone
      rw [hn] at hnone
      cases hnone
    · rename_i n' hn'
      obtain rfl : n = n' := Option.some.inj (hn.symm.trans hn')
      obtain ⟨children, -, h1⟩ := Except.bind_eq_ok.1 h
      obtain ⟨ignored, -, h2⟩ := Except.bind_eq_ok.1 h1
      exact ih children ignored (hf.vacate hn) h2

lemma Sound.foldlM {α : Type} {step : Forest → α → Except Fault Forest} {l : List α}
    (hstep : ∀ f a g, Sound f → step f a = .ok g → Sound g) (hf : Sound f)
    (h : l.foldlM step f = .ok g) : Sound g := by
  induction l generalizing f with
  | nil =>
    cases h
    exact hf
  | cons a l ih =>
    rw [List.foldlM_cons] at h
    obtain ⟨f', hfirst, hrest⟩ := Except.bind_eq_ok.1 h
    exact ih (hstep f a f' hf hfirst) hrest

end Pool

end Rewind
