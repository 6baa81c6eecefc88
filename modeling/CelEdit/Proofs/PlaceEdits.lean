import CelEdit.Proofs.Digests
import CelEdit.Proofs.Walks

/-!
# Edits of one place

The walk that looks for a node in order to edit it goes through the children on its own and rebuilds
every node that it passes. It ends at the node that lookup finds: the first in pre-order with the
id. The tree that it leaves is the old one with the edited node at that position, whatever ids the
other nodes have and whatever the edit does.
-/

namespace CelEdit

lemma Expr.firstAt?_eq_none_of_find? {target : NodeId} {e : Expr} (h : e.find? target = none) :
    e.firstAt? target = none := by
  rw [Option.eq_none_iff_forall_ne_some]
  intro p hp
  obtain ⟨x, hx, -⟩ := exists_of_firstAt? hp
  rw [← at?_firstAt?, hp, Option.bind_some, hx] at h
  cases h

namespace CachedExpr

open Runs

variable {target id : NodeId} {edit : CachedExpr → Edited} {k : Kind CachedExpr}
  {d : Option UInt64} {e e' x : CachedExpr} {p : Position}
  {s : Option (Except AccessError Unit)}

lemma children_toExpr (e : CachedExpr) : e.toExpr.children = e.children.map toExpr := by
  obtain ⟨⟨id, d⟩, k⟩ := e
  rw [toExpr_mk]
  exact Kind.children_mapChildren ..

lemma map_toExpr_at? (e : CachedExpr) (p : Position) :
    (e.at? p).map toExpr = e.toExpr.at? p := by
  induction p generalizing e with
  | nil => rfl
  | cons i p ih =>
    rw [Expr.at?_cons, Expr.at?_cons, children_toExpr, List.getElem?_map]
    cases e.children[i]? with
    | none => rfl
    | some c => exact ih c

/-! ### The walk -/

lemma visitFirst_done (outcome : Except AccessError Unit) :
    visitFirst target edit e (some outcome) = (e, some outcome) := by
  obtain ⟨⟨id, d⟩, k⟩ := e
  unfold visitFirst
  rw [Expr.fold_eq, Expr.fst_paired]
  rfl

lemma visitFirst_here (h : id = target) :
    visitFirst target edit ⟨⟨id, d⟩, k⟩ none =
      ((edit ⟨⟨id, d⟩, k⟩).1, some (edit ⟨⟨id, d⟩, k⟩).2) := by
  unfold visitFirst
  rw [Expr.fold_eq, Expr.fst_paired]
  simp only [if_pos h]
  rfl

/-- The walk goes through the children of a node with another id. -/
lemma ends_visitFirst_pass (h : id ≠ target) :
    Ends (visitFirst target edit ⟨⟨id, d⟩, k⟩) none e' s ↔
      ∃ l : Kind CachedExpr, e' = ⟨⟨id, none⟩, l⟩ ∧ l.shape = k.shape ∧
        Thread (fun c => Ends (visitFirst target edit c)) k.children none l.children s := by
  have hends : Ends (visitFirst target edit ⟨⟨id, d⟩, k⟩) none e' s ↔ Ends (do
      let l ← (k.mapChildren fun c => (c, visitFirst target edit c)).traverse Prod.snd
      pure ⟨⟨id, none⟩, l⟩ : StateM (Option (Except AccessError Unit)) CachedExpr) none e' s := by
    conv_lhs => unfold visitFirst
    rw [Expr.fold_eq, Expr.fst_paired]
    simp only [if_neg h]
    rfl
  simp only [hends, ends_bind, ends_pure, Kind.ends_traverse, Kind.shape_mapChildren,
    Kind.children_mapChildren, Thread.map_left]
  constructor
  · rintro ⟨l, _, ⟨hshape, hthread⟩, rfl, rfl⟩
    exact ⟨l, rfl, hshape, hthread⟩
  · rintro ⟨l, rfl, hshape, hthread⟩
    exact ⟨l, s, ⟨hshape, hthread⟩, rfl, rfl⟩

lemma thread_visitFirst_done {cs cs' : List CachedExpr} {outcome : Except AccessError Unit}
    (h : Thread (fun c => Ends (visitFirst target edit c)) cs (some outcome) cs' s) :
    cs' = cs ∧ s = some outcome := by
  induction cs generalizing cs' with
  | nil => simpa using h
  | cons c cs ih =>
    obtain ⟨c', cs', t, rfl, hhead, htail⟩ := Thread.cons_iff.1 h
    obtain ⟨rfl, rfl⟩ := Prod.mk.inj ((visitFirst_done outcome).symm.trans hhead)
    obtain ⟨rfl, rfl⟩ := ih htail
    exact ⟨rfl, rfl⟩

/-- The walk through children that do not have the id finds nothing and changes no tree. -/
lemma thread_visitFirst_missed {cs cs' : List CachedExpr}
    (hmissed : ∀ c ∈ cs, ∀ c' s, Ends (visitFirst target edit c) none c' s →
      s = none ∧ c'.toExpr = c.toExpr)
    (h : Thread (fun c => Ends (visitFirst target edit c)) cs none cs' s) :
    s = none ∧ cs'.map toExpr = cs.map toExpr := by
  induction cs generalizing cs' with
  | nil =>
    obtain ⟨rfl, rfl⟩ := Thread.nil_iff.1 h
    exact ⟨rfl, rfl⟩
  | cons c cs ih =>
    obtain ⟨c', cs', t, rfl, hhead, htail⟩ := Thread.cons_iff.1 h
    obtain ⟨rfl, hc⟩ := hmissed c List.mem_cons_self c' t hhead
    obtain ⟨rfl, hcs⟩ := ih (fun b hb => hmissed b (List.mem_cons_of_mem _ hb)) htail
    exact ⟨rfl, by rw [List.map_cons, List.map_cons, hc, hcs]⟩

lemma toExpr_mk_eq {id : NodeId} {k : Kind CachedExpr} {d : Option UInt64} {t : Expr}
    (hid : t.id = id) (hshape : t.kind.shape = k.shape)
    (hchildren : t.kind.children = k.children.map toExpr) : toExpr ⟨⟨id, d⟩, k⟩ = t := by
  obtain ⟨tid, tk⟩ := t
  rw [toExpr_mk, Expr.mk.injEq]
  refine ⟨hid.symm, Kind.eq_of_shape_of_children ?_ ?_⟩
  · rw [Kind.shape_mapChildren]
    exact hshape.symm
  · rw [Kind.children_mapChildren]
    exact hchildren.symm

/-- Where no node has the id, there is no outcome and the tree stays. -/
lemma visitFirst_missed (h : e.toExpr.firstAt? target = none)
    (hends : Ends (visitFirst target edit e) none e' s) : s = none ∧ e'.toExpr = e.toExpr := by
  induction e using Expr.induct generalizing e' s with
  | node stamp k ih =>
    obtain ⟨id, d⟩ := stamp
    rw [toExpr_mk, Expr.firstAt?_eq_none_mk] at h
    obtain ⟨hid, hchildren⟩ := h
    obtain ⟨l, rfl, hshape, hthread⟩ := (ends_visitFirst_pass hid).1 hends
    have hmissed : ∀ c ∈ k.children, (toExpr c).firstAt? target = none := by
      intro c hc
      apply hchildren
      rw [Kind.children_mapChildren]
      exact List.mem_map_of_mem hc
    obtain ⟨hs, hl⟩ := thread_visitFirst_missed (fun c hc c' s => ih c hc (hmissed c hc)) hthread
    refine ⟨hs, toExpr_mk_eq ?_ ?_ ?_⟩
    · rw [toExpr_mk]
    · rw [toExpr_mk, Kind.shape_mapChildren, hshape]
    · rw [toExpr_mk, Kind.children_mapChildren, hl]

/-- Where a node has the id, the first such node is edited in its place. -/
lemma visitFirst_found (h : e.toExpr.firstAt? target = some p) (hx : e.at? p = some x)
    (hends : Ends (visitFirst target edit e) none e' s) :
    s = some (edit x).2 ∧ e'.toExpr = Expr.setAt (edit x).1.toExpr p e.toExpr := by
  induction e using Expr.induct generalizing e' s p with
  | node stamp k ih =>
    obtain ⟨id, d⟩ := stamp
    rw [toExpr_mk, Expr.firstAt?_eq_some_mk] at h
    rcases h with ⟨hid, rfl⟩ | ⟨hid, before, c, after, q, hsplit, hbefore, hc, rfl⟩
    · obtain rfl := Option.some.inj hx
      obtain ⟨rfl, rfl⟩ := Prod.mk.inj ((visitFirst_here hid).symm.trans hends)
      exact ⟨rfl, rfl⟩
    · obtain ⟨l, rfl, hshape, hthread⟩ := (ends_visitFirst_pass hid).1 hends
      have hsplit' := hsplit
      rw [Kind.children_mapChildren, List.map_eq_append_iff] at hsplit'
      obtain ⟨missed, rest, hchildren, rfl, hrest⟩ := hsplit'
      obtain ⟨hit, untouched, rfl, rfl, rfl⟩ := List.map_eq_cons_iff.1 hrest
      rw [List.length_map] at hx
      have hhit : hit.at? q = some x := by
        rwa [Expr.at?_cons, Expr.children, hchildren, List.getElem?_append_right (Nat.le_refl _), Nat.sub_self,
          List.getElem?_cons_zero, Option.bind_some] at hx
      -- the walk misses the children before, edits in the one that is hit and leaves those after it
      rw [hchildren] at hthread
      obtain ⟨missed', rest', t, hl, hmissed, hthread⟩ := Thread.append_iff.1 hthread
      obtain ⟨rfl, hkept⟩ := thread_visitFirst_missed
        (fun c hc c' s => visitFirst_missed (hbefore _ (List.mem_map_of_mem hc))) hmissed
      obtain ⟨hit', untouched', u, rfl, hhead, htail⟩ := Thread.cons_iff.1 hthread
      obtain ⟨rfl, hedited⟩ := ih hit (by simp [hchildren]) hc hhit hhead
      obtain ⟨rfl, rfl⟩ := thread_visitFirst_done htail
      refine ⟨rfl, toExpr_mk_eq rfl ?_ ?_⟩
      · rw [toExpr_mk, Expr.setAt_cons, Kind.shape_withChildren, Kind.shape_mapChildren, hshape]
      · rw [toExpr_mk, Expr.children_setAt_split hsplit, hl, List.map_append, List.map_cons,
          hkept, hedited]

/-- Lookup in order to edit finds what lookup finds, the first node in pre-order with the id. If
there is none, nothing changes. Otherwise the edit is made of that node: the outcome is its outcome,
and the tree has the edited node at that position and is everywhere else as it was, with the ids of
nodes and entries, the keys, the flags and the optional positions. -/
theorem editFirst_edits_found_node (e : CachedExpr) (target : NodeId) :
    e.toExpr.find? target = e.toExpr.preorder.find? (fun n => n.id = target) ∧
    (e.toExpr.find? target = none → ∀ edit,
      (e.editFirst target edit).2 = none ∧ (e.editFirst target edit).1.toExpr = e.toExpr) ∧
    ∀ n, e.toExpr.find? target = some n →
      ∃ (p : Position) (x : CachedExpr),
        e.toExpr.firstAt? target = some p ∧ e.at? p = some x ∧ x.toExpr = n ∧
        ∀ edit, (e.editFirst target edit).2 = some (edit x).2 ∧
          (e.editFirst target edit).1.toExpr = Expr.setAt (edit x).1.toExpr p e.toExpr ∧
          (∀ q, (e.editFirst target edit).1.toExpr.at? (p ++ q) = (edit x).1.toExpr.at? q) ∧
          ∀ q, ¬ p <+: q →
            ((e.editFirst target edit).1.toExpr.at? q).map (fun n => (n.id, n.kind.shape)) =
              (e.toExpr.at? q).map (fun n => (n.id, n.kind.shape)) := by
  refine ⟨Expr.find?_eq_find?_preorder target e.toExpr, fun h edit => ?_, fun n h => ?_⟩
  · exact visitFirst_missed (Expr.firstAt?_eq_none_of_find? h) rfl
  · rw [← Expr.at?_firstAt?, Option.bind_eq_some_iff] at h
    obtain ⟨p, hp, hn⟩ := h
    rw [← map_toExpr_at?, Option.map_eq_some_iff] at hn
    obtain ⟨x, hx, rfl⟩ := hn
    refine ⟨p, x, hp, hx, rfl, fun edit => ?_⟩
    obtain ⟨houtcome, htree⟩ : (e.editFirst target edit).2 = some (edit x).2 ∧
        (e.editFirst target edit).1.toExpr = Expr.setAt (edit x).1.toExpr p e.toExpr :=
      visitFirst_found hp hx rfl
    have hat : e.toExpr.at? p = some x.toExpr := by rw [← map_toExpr_at?, hx, Option.map_some]
    refine ⟨houtcome, htree, fun q => ?_, fun q hq => ?_⟩
    · rw [htree, Expr.at?_setAt_append hat]
    · rw [htree, Expr.at?_setAt_of_not_prefix hq]

/-- In `M{f: {k: v}}` the key, the value and their entry all have the id 5. The edit gives another
id to the key only. -/
theorem editFirst_edits_found_node_key :
    let key (id : NodeId) : Expr := ⟨id, .ident ⟨"k"⟩⟩
    let value : Expr := ⟨⟨5⟩, .ident ⟨"v"⟩⟩
    let tree (id : NodeId) : Expr :=
      ⟨⟨1⟩, .struct ⟨"M", [⟨⟨7⟩, "f", ⟨⟨2⟩, .map ⟨[⟨⟨5⟩, key id, value, true⟩]⟩⟩, false⟩]⟩⟩
    let edited := (ofExpr (tree ⟨5⟩)).editFirst ⟨5⟩ (fun x => (x.withId ⟨9⟩, .ok ()))
    (ofExpr (tree ⟨5⟩)).toExpr.find? ⟨5⟩ = some (key ⟨5⟩) ∧ edited.2 = some (.ok ()) ∧
      edited.1.toExpr = tree ⟨9⟩ := by
  intro key value tree edited
  have hfind : (ofExpr (tree ⟨5⟩)).toExpr.find? ⟨5⟩ = some (key ⟨5⟩) := rfl
  have hfirst : (ofExpr (tree ⟨5⟩)).toExpr.firstAt? ⟨5⟩ = some [0, 0] := rfl
  obtain ⟨-, -, hfound⟩ := editFirst_edits_found_node (ofExpr (tree ⟨5⟩)) ⟨5⟩
  obtain ⟨p, x, hp, hx, -, hedit⟩ := hfound (key ⟨5⟩) hfind
  obtain rfl := Option.some.inj (hfirst.symm.trans hp)
  obtain rfl := Option.some.inj hx
  obtain ⟨houtcome, htree, -⟩ := hedit (fun x => (x.withId ⟨9⟩, .ok ()))
  exact ⟨hfind, houtcome, htree⟩

end CachedExpr

end CelEdit
