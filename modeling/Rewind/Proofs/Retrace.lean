import Rewind.Proofs.Contributions
import Rewind.Proofs.Onward

/-!
# Moving back

A record is taken back to the bare view that there was before it, whatever the stream is that is
attached by then.  What it puts back goes in front of that stream, and what was pushed is removed
from there, so that a tree that is released is not in the stream.  Without a stream, taking back
fails where it meets the stream, and the nodes are where they should be all the same.
-/

namespace Rewind.Run

open Attempt Op

/-! ## Operations that do not hear of the scanner -/

/-- A result with another scanner. -/
def Result.under {α : Type} (scanner : Scanner) : Result α → Result α
  | .ok a s => .ok a { s with scanner }
  | .error e s => .error e { s with scanner }

/-- The operation comes to the same whatever the scanner, which it leaves as it is. -/
def Deaf {α : Type} (op : Op α) : Prop :=
  ∀ r scanner, op { r with scanner } = Result.under scanner (op r)

namespace Deaf

variable {α β : Type}

lemma bind {x : Op α} {f : α → Op β} (hx : Deaf x) (hf : ∀ a, Deaf (f a)) : Deaf (x >>= f) := by
  intro r scanner
  have hunder := hx r scanner
  cases hrun : x r with
  | ok a s =>
    rw [hrun] at hunder
    rw [bind_ok hrun, bind_ok hunder]
    exact hf a s scanner
  | error e s =>
    rw [hrun] at hunder
    rw [bind_error hrun, bind_error hunder]
    rfl

lemma pure (a : α) : Deaf (pure a) := fun _ _ => rfl

lemma modify {f : Run → Run} (h : ∀ r scanner, f { r with scanner } = { f r with scanner }) :
    Deaf (modify f) := by
  intro r scanner
  rw [modify_apply, h]
  rfl

/-- An operation that begins by reading something else. -/
lemma look {f : Run → Op β} (hsame : ∀ r scanner, f { r with scanner } = f r)
    (hf : ∀ r, Deaf (f r)) : Deaf (MonadState.get >>= f) := by
  intro r scanner
  rw [get_bind, get_bind, hsame]
  exact hf r r scanner

lemma ite {p : Prop} [Decidable p] {x y : Op α} (hx : Deaf x) (hy : Deaf y) :
    Deaf (if p then x else y) := by
  split
  · exact hx
  · exact hy

lemma fail (e : Error) : Deaf (Op.fail e : Op α) := fun _ _ => rfl

lemma lookup (x : Except Fault α) : Deaf (Op.lookup x) := by
  intro r scanner
  cases x <;> rfl

lemma node (id : NodeId) : Deaf (Op.node id) := look (fun _ _ => rfl) fun _ => lookup _

lemma change (id : NodeId) (f : Node → Node) : Deaf (Op.change id f) := by
  intro r scanner
  unfold Op.change
  dsimp only
  cases Pool.get? r.forest id <;> rfl

lemma release (id : NodeId) : Deaf (Op.release id) := by
  intro r scanner
  unfold Op.release
  dsimp only
  cases Pool.get? r.forest id <;> rfl

lemma releaseTree (id : NodeId) : Deaf (Op.releaseTree id) := by
  intro r scanner
  unfold Op.releaseTree
  dsimp only
  cases Forest.freeTree r.forest id <;> rfl

lemma putFront (id : NodeId) : Deaf (Op.putFront id) := modify fun _ _ => by rfl

lemma takeFront (id : NodeId) : Deaf (Op.takeFront id) :=
  look (fun _ _ => rfl) fun _ => ite (modify fun _ _ => by rfl) (fail _)

lemma takeBack (id : NodeId) : Deaf (Op.takeBack id) :=
  look (fun _ _ => rfl) fun _ => ite (modify fun _ _ => by rfl) (fail _)

lemma restack (ids : List NodeId) : Deaf (restack ids) := by
  induction ids with
  | nil => exact pure _
  | cons id ids ih =>
    exact look (fun _ _ => rfl) fun _ => (change _ _).bind fun _ => (modify fun _ _ => by rfl).bind
      fun _ => ih

lemma takeBackDecision (alternative : Nat) (more : Bool) :
    Deaf (takeBackDecision alternative more) := by
  unfold Run.takeBackDecision
  split
  · exact (modify fun _ _ => by rfl).bind fun _ => pure _
  · exact pure _

/-- Taking back a change that has nothing to do with the stream. -/
lemma undo {record : Record} (h : record.isInward = true) : Deaf (undo record) := by
  cases record with
  | sent id => exact (takeBack id).bind fun _ => (releaseTree id).bind fun _ => pure _
  | shifted id previous ignored alternative more =>
    refine (node id).bind fun _ => (modify fun _ _ => by rfl).bind fun _ =>
      (change _ _).bind fun _ =>
      ite ?_ ?_
    · exact (change _ _).bind fun _ => (modify fun _ _ => by rfl).bind fun _ => (putFront _).bind
        fun _ => (modify fun _ _ => by rfl).bind fun _ => takeBackDecision _ _
    · exact (putFront _).bind fun _ => (modify fun _ _ => by rfl).bind fun _ => takeBackDecision _ _
  | reduced tree previous alternative more =>
    exact (takeFront tree).bind fun _ => look (fun _ _ => rfl) fun _ => (lookup _).bind fun _ =>
      (restack _).bind fun _ => (release tree).bind fun _ =>
      (modify fun _ _ => by rfl).bind fun _ =>
      takeBackDecision _ _
  | bound name previous => exact (modify fun _ _ => by rfl).bind fun _ => pure _
  | dropped chain => exact (modify fun _ _ => by rfl).bind fun _ => pure _
  | committed barrier retries => exact (modify fun _ _ => by rfl).bind fun _ => pure _
  | endActionMarked previous => exact (modify fun _ _ => by rfl).bind fun _ => pure _
  | action data => exact pure _
  | stepEnded => exact (modify fun _ _ => by rfl).bind fun _ => pure _
  | _ => cases h

end Deaf

variable {m : Machine} {base v v' : View} {r s q : Run} {loose loose' : List NodeId}
  {kept lane lane' : List Item} {older : List Record} {record : Record} {id : NodeId}

/-! ## Taking back -/

/-- What taking back comes to: the run descends by what is left of the log, or its nodes are where
they should be. -/
structure Retraces (m : Machine) (base : View) (kept : List Item) (older : List Record)
    (x : Result TakenBack) : Prop where
  ok : ∀ a s, x = .ok a s → Descended m base kept s ∧ s.log.records = older
  error : ∀ e s, x = .error (.error e) s → Breaks m base kept e s

lemma Lineage.latest (h : Lineage m base (record :: older) v' lane') :
    ∃ v lane, Lineage m base older v lane ∧ Alters m older record v lane v' lane' := by
  cases h with
  | alters hlineage halters => exact ⟨_, _, hlineage, halters⟩

/-- The nodes are where they should be, whatever became of the stream. -/
lemma Lineage.breaks {e : Error} (h : Lineage m base s.log.records (s.bare loose) lane)
    (hpool : Pool.Sound s.forest) (he : e.isFatal = true) : Breaks m base kept e s := by
  have hdetached : Descended m base [] { s with scanner := Scanner.detached } :=
    ⟨loose, lane, hpool, h, .nil, nofun, .of_treeless rfl⟩
  exact hdetached.breaks ⟨rfl, rfl, rfl, rfl, rfl, rfl, rfl⟩ he

/-- The nodes are back where they were, and the stream is all that is left to change. -/
lemma retraces_stream {f : Stream → Stream} {x : TakenBack} (hlog : q.log.records = older)
    (hlineage : Lineage m base older (q.bare loose) lane) (hpool : Pool.Sound q.forest)
    (hstream : ∀ stream, q.scanner.stream = some stream →
      (trees (f stream).content).Nodup ∧ (∀ id ∈ trees (f stream).content, id ∈ loose) ∧
        Fits older (f stream).content lane) :
    Retraces m base kept older ((do changeStream f; return x : Op TakenBack) q) := by
  subst hlog
  refine ⟨fun a s hrun => ?_, fun e s hrun => ?_⟩
  · obtain ⟨u, t, hchange, h1⟩ := bind_eq_ok.1 hrun
    cases h1
    obtain ⟨stream, hs, rfl⟩ := changeStream_eq_ok.1 hchange
    obtain ⟨hnodup, hloose, hfits⟩ := hstream stream hs
    exact ⟨⟨loose, lane, hpool, hlineage, hnodup, hloose, hfits⟩, rfl⟩
  · rcases bind_eq_error.1 hrun with hchange | ⟨u, t, -, h1⟩
    · obtain ⟨rfl, _, rfl⟩ := changeStream_error hchange
      exact hlineage.breaks hpool rfl
    · cases h1

lemma Orderly.loose_nodup (h : Orderly v) (hitems : v.items = loose.map (.tree · false)) :
    loose.Nodup := by
  obtain ⟨ids, -, hnodup⟩ := h.stack
  have hwaiting := hnodup.of_append_right
  rw [View.waiting, hitems, trees_map_tree] at hwaiting
  exact hwaiting.of_append_right

lemma Orderly.not_queued (h : Orderly v) (hitems : v.items = loose.map (.tree · false))
    (hid : id ∈ loose) : id ∉ v.queue := by
  obtain ⟨ids, -, hnodup⟩ := h.stack
  have hwaiting := hnodup.of_append_right
  rw [View.waiting, hitems, trees_map_tree] at hwaiting
  exact fun hmem => List.disjoint_of_nodup_append hwaiting hmem hid

lemma trees_drop_sublist (n : Nat) (items : List Item) :
    (trees (items.drop n)).Sublist (trees items) := by
  conv_rhs => rw [← List.take_append_drop n items, trees_append]
  exact List.sublist_append_right _ _

lemma ofTrees_injective {ids ids' : List NodeId}
    (h : ids.map (Item.tree · false) = ids'.map (Item.tree · false)) : ids = ids' := by
  have htrees := congrArg trees h
  rwa [trees_map_tree, trees_map_tree] at htrees

section Stream

variable {start : Position} {n : Node} {text : Bytes} {ignore : Bool}

lemma unscan_eq (hn : Pool.get? r.forest id = some n) :
    unscan id start r =
      changeStream (·.putBack n.text start) { r with forest := r.forest.vacate id } := by
  rw [unscan, bind_ok (release_ok hn)]

/-- Text is put back in front of the stream. -/
lemma puts_text (hnodup : (trees (q.ahead kept)).Nodup)
    (hloose : ∀ id ∈ trees (q.ahead kept), id ∈ loose) (hfits : Fits older (q.ahead kept) lane')
    (hfeeds : Feeds text lane lane') (stream : Stream) (hs : q.scanner.stream = some stream) :
    (trees (stream.putBack text start).content).Nodup ∧
      (∀ id ∈ trees (stream.putBack text start).content, id ∈ loose) ∧
      Fits older (stream.putBack text start).content lane := by
  rw [ahead_eq hs] at hnodup hloose hfits
  rw [Stream.content_putBack, trees_bytes_append]
  exact ⟨hnodup, hloose, hfits.unfeeds hfeeds⟩

/-- A tree is put back in front of the stream. -/
lemma puts_tree (hnodup : (trees (q.ahead kept)).Nodup) (hdistinct : loose.Nodup)
    (hid : id ∈ loose) (hloose : ∀ j ∈ trees (q.ahead kept), j ∈ loose.erase id)
    (hfits : Fits older (q.ahead kept) lane') (hpicks : Picks older id ignore lane lane')
    (stream : Stream) (hs : q.scanner.stream = some stream) :
    (trees (stream.pushTree id ignore).content).Nodup ∧
      (∀ j ∈ trees (stream.pushTree id ignore).content, j ∈ loose) ∧
      Fits older (stream.pushTree id ignore).content lane := by
  rw [ahead_eq hs] at hnodup hloose hfits
  rw [Stream.content_pushTree]
  refine ⟨List.nodup_cons.2 ⟨fun hmem => ?_, hnodup⟩, fun j hj => ?_, hfits.unpicks hpicks⟩
  · exact hdistinct.not_mem_erase (hloose id hmem)
  · rcases List.mem_cons.1 hj with rfl | hj
    · exact hid
    · exact List.mem_of_mem_erase (hloose j hj)

/-- Text is removed from the front of the stream. -/
lemma removes_text (hnodup : (trees (q.ahead kept)).Nodup)
    (hloose : ∀ id ∈ trees (q.ahead kept), id ∈ loose)
    (hfits : Fits older (q.ahead kept) (text.map .byte ++ lane)) (stream : Stream)
    (hs : q.scanner.stream = some stream) :
    (trees (stream.pushback text.length).2.content).Nodup ∧
      (∀ id ∈ trees (stream.pushback text.length).2.content, id ∈ loose) ∧
      Fits older (stream.pushback text.length).2.content lane := by
  rw [ahead_eq hs] at hnodup hloose hfits
  rcases stream.removed text.length with hcontent | htreeless
  · have hdrop := hfits.drop _
    rw [List.length_map] at hdrop
    rw [hcontent]
    exact ⟨hnodup.sublist (trees_drop_sublist _ _),
      fun j hj => hloose j ((trees_drop_sublist _ _).subset hj), hdrop⟩
  · exact ⟨htreeless ▸ .nil, fun j hj => by simp [htreeless] at hj, .of_treeless htreeless⟩

/-- A tree is removed from the front of the stream, and is not in the stream any more. -/
lemma removes_tree (hnodup : (trees (q.ahead kept)).Nodup)
    (hloose : ∀ j ∈ trees (q.ahead kept), j ∈ id :: loose)
    (hfits : Fits (.treePushed id :: older) (q.ahead kept) (.tree id ignore :: lane))
    (hout : id ∉ trees lane) (stream : Stream) (hs : q.scanner.stream = some stream) :
    (trees (stream.pushback 1).2.content).Nodup ∧
      (∀ j ∈ trees (stream.pushback 1).2.content, j ∈ loose) ∧
      Fits older (stream.pushback 1).2.content lane := by
  rw [ahead_eq hs] at hnodup hloose hfits
  rcases stream.removed 1 with hcontent | htreeless
  · rw [hcontent]
    refine ⟨hnodup.sublist (trees_drop_sublist _ _), fun j hj => ?_,
      hfits.unwrite.drop [.tree id ignore]⟩
    have hne : j ≠ id := ne_of_mem_of_not_mem hj (hfits.removes hout)
    exact (List.mem_cons.1 (hloose j ((trees_drop_sublist _ _).subset hj))).resolve_left hne
  · exact ⟨htreeless ▸ .nil, fun j hj => by simp [htreeless] at hj, .of_treeless htreeless⟩

variable (hlog : q.log.records = older) (hpool : Pool.Sound q.forest)
  (hlineage : Lineage m base older v lane) (hv : q.bare loose' = v')
  (hnodup : (trees (q.ahead kept)).Nodup)
  (hloose : ∀ id ∈ trees (q.ahead kept), id ∈ loose') (hfits : Fits older (q.ahead kept) lane')
include hlog hpool hlineage hv hnodup hloose hfits

lemma retraces_scanned (halters : Alters m older (.scanned id start) v lane v' lane') :
    Retraces m base kept older (undo (.scanned id start) q) := by
  cases halters with
  | inward hinward _ => cases hinward
  | @scanned _ _ _ n _ _ hid hn _ _ hfeeds =>
    obtain ⟨hstate, hsteps, hstack, hqueue, haside, hnodes, hbindings, hbarrier, hretries, hend,
      hitems, hposition⟩ := View.ext_iff.1 hv
    obtain ⟨n', hn', hsame⟩ := exists_of_shown (r := q.inFront loose') (n := n)
      ((congrFun hnodes id).trans (Function.update_self ..))
    let t : Run := { q with queue := v.queue, forest := q.forest.vacate id }
    have hwaiting (j : NodeId) (hj : j ≠ id) :
        j ∈ (t.inFront loose').waiting ↔ j ∈ (q.inFront loose').waiting := by
      rw [waiting_inFront, waiting_inFront, show q.queue = v.queue ++ [id] from hqueue]
      simp [t, hj]
    have hview : t.bare loose' = v :=
      View.ext hstate hsteps hstack rfl haside (shown_of_vacate hnodes hid rfl hwaiting) hbindings
        hbarrier hretries hend hitems hposition
    have hundo : undo (.scanned id start) q =
        (do changeStream (·.putBack n.text start); return .plain : Op TakenBack) t := by
      have htext : n'.text = n.text := (congrArg Node.text hsame :)
      rw [undo, bind_ok (takeBack_ok (show q.queue = v.queue ++ [id] from hqueue)),
        bind_of_eq (unscan_eq (r := { q with queue := v.queue }) hn'), htext]
    rw [hundo]
    exact retraces_stream (q := t) hlog (hview ▸ hlineage) (hpool.vacate hn')
      (puts_text hnodup hloose hfits hfeeds)

lemma retraces_setAside (ho : Orderly v)
    (halters : Alters m older (.setAside id start) v lane v' lane') :
    Retraces m base kept older (undo (.setAside id start) q) := by
  cases halters with
  | inward hinward _ => cases hinward
  | @setAside _ _ _ n _ _ hid hnext _ _ hfeeds =>
    obtain ⟨hstate, hsteps, hstack, hqueue, haside, hnodes, hbindings, hbarrier, hretries, hend,
      hitems, hposition⟩ := View.ext_iff.1 hv
    have hout : id ∉ (q.inFront loose').waiting := by
      have hwaiting : (q.inFront loose').waiting = v.waiting :=
        congrArg₂ (fun queue items => queue ++ trees items) hqueue hitems
      rw [hwaiting]
      exact ho.not_waiting hid
    have hn : Pool.get? q.forest id = some n :=
      (shown_of_not_waiting hout).symm.trans ((congrFun hnodes id).trans (Function.update_self ..))
    let t : Run := { q with aside := n.next, forest := q.forest.vacate id }
    have hview : t.bare loose' = v :=
      View.ext hstate hsteps hstack hqueue hnext
        (shown_of_vacate hnodes hid rfl fun _ _ => .rfl) hbindings hbarrier hretries hend hitems
        hposition
    have hundo : undo (.setAside id start) q =
        (do changeStream (·.putBack n.text start); return .plain : Op TakenBack) t := by
      rw [undo, bind_ok (node_ok hn), modify_bind,
        bind_of_eq (unscan_eq (r := { q with aside := n.next }) hn)]
    rw [hundo]
    exact retraces_stream (q := t) hlog (hview ▸ hlineage) (hpool.vacate hn)
      (puts_text hnodup hloose hfits hfeeds)

lemma retraces_consumed (halters : Alters m older (.consumed text start) v lane v' lane') :
    Retraces m base kept older (undo (.consumed text start) q) := by
  cases halters with
  | inward hinward _ => cases hinward
  | consumed hfeeds =>
    exact retraces_stream hlog (hv ▸ hlineage) hpool (puts_text hnodup hloose hfits hfeeds)

lemma retraces_treeTaken (ho : Orderly v)
    (halters : Alters m older (.treeTaken id ignore) v lane v' lane') :
    Retraces m base kept older (undo (.treeTaken id ignore) q) := by
  cases halters with
  | inward hinward _ => cases hinward
  | @treeQueued _ _ loose _ _ hvitems hid hpicks =>
    obtain ⟨hstate, hsteps, hstack, hqueue, haside, hnodes, hbindings, hbarrier, hretries, hend,
      hitems, hposition⟩ := View.ext_iff.1 hv
    obtain rfl : loose' = loose.erase id :=
      ofTrees_injective ((content_inFront q loose').symm.trans hitems)
    have hdistinct : loose.Nodup := ho.loose_nodup hvitems
    let t : Run := { q with queue := v.queue }
    have hshown : (t.inFront loose).shown = v.nodes := by
      refine (shown_congr (r := q.inFront (loose.erase id)) (s := t.inFront loose) rfl
        fun j => ?_).trans hnodes
      rw [waiting_inFront, waiting_inFront, show q.queue = v.queue ++ [id] from hqueue]
      by_cases hj : j = id
      · simp [t, hj, hid]
      · simp [t, hj, List.mem_erase_of_ne]
    have hview : t.bare loose = v :=
      View.ext hstate hsteps hstack rfl haside hshown hbindings hbarrier hretries hend
        ((content_inFront t loose).trans hvitems.symm) hposition
    have hundo : undo (.treeTaken id false) q =
        (do changeStream (·.pushTree id false); return .plain : Op TakenBack) t := by
      rw [undo, bind_ok (takeBack_ok (show q.queue = v.queue ++ [id] from hqueue))]
    rw [hundo]
    exact retraces_stream (q := t) hlog (hview ▸ hlineage) hpool
      (puts_tree hnodup hdistinct hid hloose hfits hpicks)
  | @treeSetAside _ _ n state loose _ _ hvitems hid hvid hn hpicks =>
    obtain ⟨hstate, hsteps, hstack, hqueue, haside, hnodes, hbindings, hbarrier, hretries, hend,
      hitems, hposition⟩ := View.ext_iff.1 hv
    obtain rfl : loose' = loose.erase id :=
      ofTrees_injective ((content_inFront q loose').symm.trans hitems)
    have hdistinct : loose.Nodup := ho.loose_nodup hvitems
    have hout : id ∉ (q.inFront (loose.erase id)).waiting := by
      rw [waiting_inFront, show q.queue = v.queue from hqueue, List.mem_append, not_or]
      exact ⟨ho.not_queued hvitems hid, hdistinct.not_mem_erase⟩
    have hnode : Pool.get? q.forest id = some { n with next := v.aside, state } :=
      (shown_of_not_waiting hout).symm.trans ((congrFun hnodes id).trans (Function.update_self ..))
    let t : Run := { q with
      aside := v.aside
      forest := q.forest.put id { n with next := none, state } }
    have hwaiting (j : NodeId) (hj : j ≠ id) :
        j ∈ (t.inFront loose).waiting ↔ j ∈ (q.inFront (loose.erase id)).waiting := by
      rw [waiting_inFront, waiting_inFront]
      simp [t, List.mem_erase_of_ne hj]
    have hin : id ∈ (t.inFront loose).waiting := by
      rw [waiting_inFront]
      exact List.mem_append_right _ hid
    have hrestored : v.nodes id = some { n with next := none, state }.loose :=
      hvid.trans (congrArg some hn.symm)
    have hview : t.bare loose = v :=
      View.ext hstate hsteps hstack hqueue rfl
        (shown_of_put hnodes hnode rfl hwaiting hin hrestored) hbindings hbarrier hretries hend
        ((content_inFront t loose).trans hvitems.symm) hposition
    have hundo : undo (.treeTaken id true) q =
        (do changeStream (·.pushTree id true); return .plain : Op TakenBack) t := by
      rw [undo, bind_ok (node_ok hnode), modify_bind,
        bind_ok (change_ok (r := { q with aside := v.aside }) hnode)]
    rw [hundo]
    exact retraces_stream (q := t) hlog (hview ▸ hlineage) (hpool.put hnode)
      (puts_tree hnodup hdistinct hid hloose hfits hpicks)

lemma retraces_textPushed {count : Nat}
    (halters : Alters m older (.textPushed count) v lane v' lane') :
    Retraces m base kept older (undo (.textPushed count) q) := by
  cases halters with
  | inward hinward _ => cases hinward
  | textPushed =>
    exact retraces_stream hlog (hv ▸ hlineage) hpool (removes_text hnodup hloose hfits)

omit hfits in
lemma retraces_treePushed (hfits : Fits (.treePushed id :: older) (q.ahead kept) lane')
    (hlaned : (trees lane').Nodup) (halters : Alters m older (.treePushed id) v lane v' lane') :
    Retraces m base kept older (undo (.treePushed id) q) := by
  cases halters with
  | inward hinward _ => cases hinward
  | @treePushed _ _ tree ignore _ hid hchild hignored =>
    obtain ⟨hstate, hsteps, hstack, hqueue, haside, hnodes, hbindings, hbarrier, hretries, hend,
      hitems, hposition⟩ := View.ext_iff.1 hv
    obtain ⟨rest, rfl, hvitems⟩ :
        ∃ rest, loose' = id :: rest ∧ v.items = rest.map (.tree · false) := by
      have heq := (content_inFront q loose').symm.trans hitems
      cases loose' with
      | nil => cases heq
      | cons first rest =>
        obtain ⟨hfirst, hrest⟩ := List.cons.inj heq
        cases hfirst
        exact ⟨rest, rfl, hrest.symm⟩
    obtain ⟨n, hn, -⟩ := exists_of_shown (r := q.inFront (id :: rest)) (n := tree.loose)
      ((congrFun hnodes id).trans (Function.update_self ..))
    have hout : id ∉ trees lane := (List.nodup_cons.1 hlaned).1
    refine ⟨fun a s hrun => ?_, fun e s hrun => ?_⟩
    · obtain ⟨u, t, hchange, h1⟩ := bind_eq_ok.1 hrun
      obtain ⟨stream, hs, ht⟩ := changeStream_eq_ok.1 hchange
      have ht' : Pool.get? t.forest id = some n := by
        rw [ht]
        exact hn
      rw [bind_ok (release_ok ht')] at h1
      obtain ⟨-, rfl⟩ := EStateM.Result.ok.inj h1
      subst ht
      obtain ⟨hnodup', hloose', hfits'⟩ := removes_tree hnodup hloose hfits hout stream hs
      refine ⟨⟨rest, lane, hpool.vacate hn, ?_, hnodup', hloose', hlog.symm ▸ hfits'⟩, hlog⟩
      have hview : bare { q with forest := q.forest.vacate id } rest = v :=
        View.ext hstate hsteps hstack hqueue haside
          (shown_of_vacate hnodes hid rfl fun j hj => by
            rw [waiting_inFront, waiting_inFront]
            simp [hj]) hbindings hbarrier hretries hend
          ((content_inFront q rest).trans hvitems.symm) hposition
      exact hlog.symm ▸ hview.symm ▸ hlineage
    · rcases bind_eq_error.1 hrun with hchange | ⟨u, t, hchange, h1⟩
      · -- Nothing was taken back yet, so the run descends by the record that has left the log.
        obtain ⟨rfl, _, rfl⟩ := changeStream_error hchange
        have hafter : Lineage m base (.treePushed id :: older) (s.bare (id :: rest))
            (.tree id ignore :: lane) := hv ▸ .alters hlineage (.treePushed hid hchild hignored)
        have hbefore : Descended m base [] { s with
            scanner := Scanner.detached, log := ⟨.treePushed id :: older⟩ } :=
          ⟨id :: rest, _, hpool, hafter, .nil, nofun, .of_treeless rfl⟩
        exact hbefore.breaks ⟨rfl, rfl, rfl, rfl, rfl, by rw [hlog]; rfl, by rw [hlog]; rfl⟩ rfl
      · exact absurd h1 (Sure.not_error ((Sure.edits.release id).bind fun _ => .pure _))

omit hlineage in
/-- A change that has nothing to do with the stream is taken back as it would be in front of nothing
but trees. -/
lemma retraces_inward (hlineage : Lineage m base older v lane') (ho : Orderly v)
    (hinward : record.isInward = true) {length : Nat}
    (hchange : Change m False 0 length record v v') :
    Retraces m base kept older (undo record q) := by
  obtain ⟨t, hundo, hview, htidy, -, hcourse⟩ :=
    undoes (tidy_inFront hpool loose') ho (Nat.le_refl 0) hchange hv
  have hunder := Deaf.undo hinward q (q.inFront loose').scanner
  change undo record (q.inFront loose') = _ at hunder
  have hsame := Deaf.undo hinward q q.scanner
  cases hrun : undo record q with
  | error e s =>
    rw [hundo, hrun] at hunder
    cases hunder
  | ok a s =>
    rw [hundo, hrun] at hunder
    change _ = Result.under q.scanner (undo record q) at hsame
    rw [hrun] at hsame
    obtain ⟨rfl, rfl⟩ := EStateM.Result.ok.inj hunder
    have hscanner : s.scanner = q.scanner := by
      have heq : s = { s with scanner := q.scanner } := (EStateM.Result.ok.inj hsame).2
      rw [heq]
    have hcontent : s.ahead kept = q.ahead kept := by rw [ahead, ahead, hscanner]
    have hslog : s.log.records = older := (congrArg Journal.records hcourse.log).trans hlog
    refine ⟨fun a' s' h => ?_, fun e s' h => by cases h⟩
    cases h
    refine ⟨⟨loose', lane', htidy.pool, ?_, ?_, ?_, ?_⟩, hslog⟩
    · have hbare : s.bare loose' = v := hview
      rw [hslog, hbare]
      exact hlineage
    · exact hcontent ▸ hnodup
    · exact hcontent ▸ hloose
    · rw [hslog, hcontent]
      exact hfits

end Stream

/-- The newest record of a run that descends is taken back. -/
lemma Descends.retraces (h : Descends m base kept loose lane r) (hbase : Owned [] base)
    (hlog : r.log.records = record :: older) (events : List Event) :
    Retraces m base kept older (undo record { r with log := ⟨older⟩, events }) := by
  obtain ⟨hpool, hlineage, hnodup, hloose, hfits⟩ := h
  rw [hlog] at hlineage hfits
  obtain ⟨v, lane', hlineage', halters⟩ := hlineage.latest
  have ho : Orderly v := (hlineage'.owned hbase).orderly
  have hlaned : (trees lane).Nodup := (hlineage.laned hbase).nodup
  have hunwritten := hfits.unwrite
  let q : Run := { r with log := ⟨older⟩, events }
  cases record with
  | scanned id start =>
    exact retraces_scanned (q := q) rfl hpool hlineage' rfl hnodup hloose hunwritten halters
  | setAside id start =>
    exact retraces_setAside (q := q) rfl hpool hlineage' rfl hnodup hloose hunwritten ho halters
  | treeTaken id ignore =>
    exact retraces_treeTaken (q := q) rfl hpool hlineage' rfl hnodup hloose hunwritten ho halters
  | consumed text start =>
    exact retraces_consumed (q := q) rfl hpool hlineage' rfl hnodup hloose hunwritten halters
  | textPushed count =>
    exact retraces_textPushed (q := q) rfl hpool hlineage' rfl hnodup hloose hunwritten halters
  | treePushed id =>
    exact retraces_treePushed (q := q) rfl hpool hlineage' rfl hnodup hloose hfits hlaned halters
  | _ =>
    cases halters with
    | inward hinward hchange =>
      exact retraces_inward (q := q) rfl hpool rfl hnodup hloose hunwritten hlineage' ho hinward
        hchange

/-- The operation leads a run that descends to one that does, or breaks off. -/
structure Carries {α : Type} (m : Machine) (base : View) (kept : List Item) (op : Op α) (r : Run) :
    Prop where
  ok : ∀ a s, op r = .ok a s → Descended m base kept s
  error : ∀ e s, op r = .error (.error e) s → Breaks m base kept e s

namespace Carries

variable {α β : Type}

lemma bind {x : Op α} {f : α → Op β} (hx : Carries m base kept x r)
    (hf : ∀ a s, x r = .ok a s → Descended m base kept s → Carries m base kept (f a) s) :
    Carries m base kept (x >>= f) r := by
  refine ⟨fun b u hrun => ?_, fun e u hrun => ?_⟩
  · obtain ⟨a, s, ha, h1⟩ := bind_eq_ok.1 hrun
    exact (hf a s ha (hx.ok a s ha)).ok b u h1
  · rcases bind_eq_error.1 hrun with ha | ⟨a, s, ha, h1⟩
    · exact hx.error e u ha
    · exact (hf a s ha (hx.ok a s ha)).error e u h1

lemma pure (h : Descended m base kept r) (a : α) : Carries m base kept (pure a) r := by
  refine ⟨fun b s hrun => ?_, fun e s hrun => ?_⟩ <;> cases hrun
  exact h

lemma look {f : Run → Op β} (h : Carries m base kept (f r) r) :
    Carries m base kept (MonadState.get >>= f) r :=
  ⟨h.ok, h.error⟩

lemma after {f : Run → Run} {x : Op β} (h : Carries m base kept x (f r)) :
    Carries m base kept (modify f >>= fun _ => x) r :=
  ⟨h.ok, h.error⟩

lemma ite {p : Prop} [Decidable p] {x y : Op α} (hx : Carries m base kept x r)
    (hy : Carries m base kept y r) : Carries m base kept (if p then x else y) r := by
  split
  · exact hx
  · exact hy

lemma misuse (h : Descended m base kept r) (misuse : Misuse) :
    Carries m base kept (Op.fail (.misuse misuse) : Op α) r := by
  refine ⟨fun b s hrun => ?_, fun e s hrun => ?_⟩ <;> cases hrun
  exact h.breaks (.refl r) rfl

end Carries

namespace Descended

variable (h : Descended m base kept r)
include h

/-- A run goes on from the end of a step. -/
lemma settle : Carries m base kept (settle m) r := by
  refine ⟨fun a s hrun => ?_, fun e s hrun => ?_⟩
  · rw [Run.settle, get_bind] at hrun
    obtain ⟨reached, u, hlookup, h1⟩ := bind_eq_ok.1 hrun
    obtain ⟨-, rfl⟩ := lookup_eq_ok.1 hlookup
    cases h1
    exact h.quiet rfl rfl (fun _ => rfl) rfl
  · have hsure : Sure (Run.settle m) := .look fun _ => (Sure.lookup _).bind fun _ =>
      (Sure.modify _).bind fun _ => .look fun _ => .pure _
    exact absurd hrun hsure.not_error

variable (hbase : Owned [] base)
include hbase

/-- Whatever the goal, a run goes on to descend while it goes back. -/
lemma unwind {records : List Record} (hlog : r.log.records = records) (goal : Goal) :
    Carries m base kept (unwind m goal records) r := by
  have hsettle {q : Run} (hq : Descended m base kept q) :
      Carries m base kept (do return some (← Run.settle m) : Op (Option Status)) q :=
    hq.settle.bind fun _ _ _ ht => .pure ht _
  induction records generalizing r with
  | nil => exact .look (.ite (hsettle h) (.look (.misuse h _)))
  | cons record older ih =>
    have hretraces : Retraces m base kept older
        (undo record { r with log := ⟨older⟩, events := .undone record :: r.events }) := by
      obtain ⟨loose, lane, h⟩ := h
      exact h.retraces hbase hlog _
    refine .look (.ite (hsettle h) (.after (.after (.bind
      ⟨fun b t hundo => (hretraces.ok b t hundo).1, hretraces.error⟩ fun b t hundo ht => ?_))))
    have hmore := ih ht (hretraces.ok b t hundo).2
    cases b with
    | plain => exact hmore
    | action data => exact .pure ht _
    | decision alternative =>
      cases goal with
      | step target => exact hmore
      | backtrack =>
        exact .after (.pure (by exact ht.quiet rfl rfl (fun _ => rfl) rfl) _)

/-! ## Turns -/

lemma turn : Carries m base kept (turn m) r := by
  refine .look ?_
  cases hpoint : r.point with
  | start => exact ⟨fun a s => h.goForward hbase, fun e s => h.goForward_error hbase⟩
  | reverse goal => exact h.unwind hbase rfl goal
  | done => exact .pure h _
  | _ => exact .misuse h _

lemma takeTurns (turns : Nat) : Carries m base kept (takeTurns m turns) r := by
  induction turns generalizing r with
  | zero => refine ⟨fun a s hrun => ?_, fun e s hrun => ?_⟩ <;> cases hrun
  | succ turns ih =>
    refine (h.turn hbase).bind fun status t _ ht => ?_
    cases status with
    | some status => exact .pure ht _
    | none => exact ih ht

lemma resume (turns : Nat) (entry : Entry) : Carries m base kept (resume m turns entry) r := by
  refine .bind ⟨fun a s => h.enter, fun e s => h.enter_error⟩ fun status t _ ht => ?_
  cases status with
  | some status => exact .pure ht _
  | none => exact ht.takeTurns hbase turns

lemma goBack (target : Nat) : Carries m base kept (goBack m target) r := by
  have hback :
      Carries m base kept (Run.takeTurns m 1) { r with point := .reverse (.step target) } :=
    (h.awaited _ r.rejecting).takeTurns hbase 1
  refine .look (.ite (.misuse h _) ?_)
  cases hpoint : r.point with
  | reverse goal => exact .misuse h _
  | _ => exact ⟨hback.ok, hback.error⟩

end Descended

end Rewind.Run
