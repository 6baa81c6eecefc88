import CelEdit.Proofs.Tables
import CelEdit.Proofs.Walks

/-!
# Ancestors by their ids

The parent index knows ids and no trees. Where no two nodes share an id it leads from each node to its
parent and from the root nowhere, and as a parent is always larger than its children, every search
upwards comes to an end. It meets the nodes whose subtrees hold the node where it began.
-/

namespace CelEdit

namespace Expr

lemma nodeCount_lt_of_mem_children {c p : Expr} (h : c ∈ p.children) : c.nodeCount < p.nodeCount := by
  obtain ⟨id, k⟩ := p
  obtain ⟨before, after, hsplit⟩ := List.append_of_mem h
  rw [nodeCount_split hsplit]
  omega

lemma nodeCount_le_of_mem_preorder {x e : Expr} (h : x ∈ e.preorder) : x.nodeCount ≤ e.nodeCount := by
  obtain ⟨p, hp⟩ := mem_preorder_iff.1 h
  exact nodeCount_le_of_at? hp

/-- A node of a tree is its root or a child of one of its nodes. -/
lemma eq_or_child_of_mem_preorder {x e : Expr} (h : x ∈ e.preorder) :
    x = e ∨ ∃ p ∈ e.preorder, x ∈ p.children := by
  induction e using induct with
  | node id k ih =>
    rcases mem_preorder_mk.1 h with rfl | ⟨c, hc, hx⟩
    · exact .inl rfl
    · rcases ih c hc hx with rfl | ⟨p, hp, hxp⟩
      · exact .inr ⟨⟨id, k⟩, self_mem_preorder _, hc⟩
      · exact .inr ⟨p, mem_preorder_mk.2 (.inr ⟨c, hc, hp⟩), hxp⟩

lemma not_child_of_mem_preorder {p e : Expr} (h : p ∈ e.preorder) : e ∉ p.children := by
  intro hchild
  have hlt := nodeCount_lt_of_mem_children hchild
  have hle := nodeCount_le_of_mem_preorder h
  omega

end Expr

namespace Visit

open CelEdit.Expr

lemma mem_preorder_iff {v w : Visit} : w ∈ v.preorder ↔ w = v ∨ w ∈ v.below := by
  rw [preorder_eq, List.mem_cons]

/-- Below a visit stand the children of the nodes of its tree, each with its parent. -/
theorem mem_below_iff {v : Visit} {c p : Expr} :
    (∃ w ∈ v.below, w.expr = c ∧ w.parent = some p) ↔ p ∈ v.expr.preorder ∧ c ∈ p.children := by
  obtain ⟨e, parent, depth⟩ := v
  induction e using induct generalizing parent depth with
  | node id k ih =>
    rw [below_eq, mem_preorder_mk]
    simp only [List.mem_flatMap, mem_preorder_iff]
    constructor
    · rintro ⟨w, ⟨u, hu, hw⟩, rfl, hparent⟩
      obtain ⟨d, hd, rfl⟩ := List.mem_map.1 hu
      rcases hw with rfl | hw
      · obtain rfl : ⟨id, k⟩ = p := Option.some.inj hparent
        exact ⟨.inl rfl, hd⟩
      · obtain ⟨hp, hc⟩ := (ih d hd _ _).1 ⟨w, hw, rfl, hparent⟩
        exact ⟨.inr ⟨d, hd, hp⟩, hc⟩
    · rintro ⟨rfl | ⟨d, hd, hp⟩, hc⟩
      · exact ⟨_, ⟨_, List.mem_map_of_mem hc, .inl rfl⟩, rfl, rfl⟩
      · obtain ⟨w, hw, hwc, hwp⟩ := (ih d hd (some ⟨id, k⟩) (depth + 1)).2 ⟨hp, hc⟩
        exact ⟨w, ⟨_, List.mem_map_of_mem hd, .inr hw⟩, hwc, hwp⟩

end Visit

namespace ParentIndex

open CelEdit.Expr

variable {e : Expr}

/-- Visited nodes that have a parent, each by its id with that of the parent. -/
def pairs (vs : List Visit) : List (NodeId × NodeId) :=
  vs.filterMap (fun v => v.parent.map (fun p => (v.expr.id, p.id)))

/-- The index lists the nodes below the root, each with its parent. -/
lemma mem_pairs {i j : NodeId} :
    (i, j) ∈ pairs (Visit.root e).below ↔
      ∃ p ∈ e.preorder, ∃ c ∈ p.children, c.id = i ∧ p.id = j := by
  simp only [pairs, List.mem_filterMap, Option.map_eq_some_iff, Prod.mk.injEq]
  constructor
  · rintro ⟨v, hv, p, hparent, hi, hj⟩
    obtain ⟨hp, hc⟩ := Visit.mem_below_iff.1 ⟨v, hv, rfl, hparent⟩
    exact ⟨p, hp, v.expr, hc, hi, hj⟩
  · rintro ⟨p, hp, c, hc, hi, hj⟩
    have hchild : p ∈ (Visit.root e).expr.preorder ∧ c ∈ p.children := ⟨hp, hc⟩
    obtain ⟨v, hv, rfl, hparent⟩ := Visit.mem_below_iff.2 hchild
    exact ⟨v, hv, p, hparent, hi, hj⟩

lemma keys_sublist (vs : List Visit) :
    ((pairs vs).map Prod.fst).Sublist (vs.map (fun v => v.expr.id)) := by
  induction vs with
  | nil => exact .slnil
  | cons v vs ih =>
    rw [pairs, List.filterMap_cons, List.map_cons]
    cases v.parent with
    | none => exact ih.cons _
    | some p => exact ih.cons_cons _

lemma nodup_keys (h : (e.preorder.map Expr.id).Nodup) :
    ((pairs (Visit.root e).below).map Prod.fst).Nodup := by
  have hids : e.preorder.map Expr.id = e.id :: (Visit.root e).below.map (fun v => v.expr.id) := by
    have hnodes : (Visit.root e).preorder.map Visit.expr = e.preorder := Visit.map_expr_preorder _
    rw [← hnodes, Visit.preorder_eq, List.map_map, List.map_cons]
    rfl
  rw [hids] at h
  exact h.of_cons.sublist (keys_sublist _)

/-- The index leads from a node to its parent, and from nothing else anywhere. -/
theorem parentOf_eq_some_iff (h : (e.preorder.map Expr.id).Nodup) {i j : NodeId} :
    (ofExpr e).parentOf i = some j ↔ ∃ p ∈ e.preorder, ∃ c ∈ p.children, c.id = i ∧ p.id = j :=
  (IdMap.get?_ofList_of_nodup (nodup_keys h)).trans mem_pairs

lemma node_eq (h : (e.preorder.map Expr.id).Nodup) {x y : Expr} (hx : x ∈ e.preorder)
    (hy : y ∈ e.preorder) (hid : x.id = y.id) : x = y :=
  List.inj_on_of_nodup_map h hx hy hid

lemma parentOf_root (h : (e.preorder.map Expr.id).Nodup) : (ofExpr e).parentOf e.id = none := by
  rw [Option.eq_none_iff_forall_ne_some]
  intro j hj
  obtain ⟨p, hp, c, hc, hid, -⟩ := (parentOf_eq_some_iff h).1 hj
  have hmem := mem_preorder_trans (mem_preorder_of_mem_children hc) hp
  obtain rfl := node_eq h hmem (self_mem_preorder e) hid
  exact not_child_of_mem_preorder hp hc

lemma parentOf_of_not_mem (h : (e.preorder.map Expr.id).Nodup) {i : NodeId}
    (hi : i ∉ e.preorder.map Expr.id) : (ofExpr e).parentOf i = none := by
  rw [Option.eq_none_iff_forall_ne_some]
  intro j hj
  obtain ⟨p, hp, c, hc, rfl, -⟩ := (parentOf_eq_some_iff h).1 hj
  exact hi (List.mem_map_of_mem (mem_preorder_trans (mem_preorder_of_mem_children hc) hp))

lemma not_above_root {a : NodeId} (ha : e.id ≠ a) :
    ¬ ∃ x ∈ e.preorder, x.id = a ∧ e ∈ x.preorder := by
  rintro ⟨x, hx, rfl, hex⟩
  rcases eq_or_child_of_mem_preorder hex with rfl | ⟨q, hq, heq⟩
  · exact ha rfl
  · exact not_child_of_mem_preorder (mem_preorder_trans hq hx) heq

/-- A node and its parent stand below the same nodes, apart from the node itself. -/
lemma above_parent_iff (h : (e.preorder.map Expr.id).Nodup) {a : NodeId} {p y : Expr}
    (hp : p ∈ e.preorder) (hy : y ∈ p.children) (ha : y.id ≠ a) :
    (∃ x ∈ e.preorder, x.id = a ∧ p ∈ x.preorder) ↔
      ∃ x ∈ e.preorder, x.id = a ∧ y ∈ x.preorder := by
  constructor
  · rintro ⟨x, hx, hxa, hpx⟩
    exact ⟨x, hx, hxa, mem_preorder_trans (mem_preorder_of_mem_children hy) hpx⟩
  · rintro ⟨x, hx, rfl, hyx⟩
    rcases eq_or_child_of_mem_preorder hyx with rfl | ⟨q, hq, hyq⟩
    · exact absurd rfl ha
    · have hqe := mem_preorder_trans hq hx
      have hparent := (parentOf_eq_some_iff h).2 ⟨p, hp, y, hy, rfl, rfl⟩
      have hparent' := (parentOf_eq_some_iff h).2 ⟨q, hqe, y, hyq, rfl, rfl⟩
      rw [hparent, Option.some.injEq] at hparent'
      obtain rfl := node_eq h hp hqe hparent'
      exact ⟨x, hx, rfl, hq⟩

section Climbing

variable (index : ParentIndex) (a : NodeId)

lemma climb_none : index.climb a none = some false := by
  rw [climb]

lemma climb_self : index.climb a (some a) = some true := by
  rw [climb, if_pos rfl]

lemma climb_of_ne {a i : NodeId} (h : i ≠ a) :
    index.climb a (some i) = index.climb a (index.parentOf i) := by
  rw [climb, if_neg h]

end Climbing

/-- A search that begins at a node of the tree ends, and meets the nodes above and this one. -/
theorem climb_eq_some (h : (e.preorder.map Expr.id).Nodup) (a : NodeId) {y : Expr}
    (hy : y ∈ e.preorder) :
    ∃ r, (ofExpr e).climb a (some y.id) = some r ∧
      (r = true ↔ ∃ x ∈ e.preorder, x.id = a ∧ y ∈ x.preorder) := by
  -- a parent has more nodes than its child, and none has more than the root
  induction hn : e.nodeCount - y.nodeCount using Nat.strongRecOn generalizing y with
  | _ n ih =>
    by_cases hid : y.id = a
    · exact ⟨true, hid ▸ climb_self .., fun _ => ⟨y, hy, hid, self_mem_preorder y⟩, fun _ => rfl⟩
    · rw [climb_of_ne _ hid]
      rcases eq_or_child_of_mem_preorder hy with rfl | ⟨p, hp, hc⟩
      · refine ⟨false, by rw [parentOf_root h, climb_none], ?_⟩
        exact iff_of_false Bool.false_ne_true (not_above_root hid)
      · have hlt := nodeCount_lt_of_mem_children hc
        have hle := nodeCount_le_of_mem_preorder hp
        obtain ⟨r, hr, hiff⟩ := ih _ (by omega) hp rfl
        have hparent := (parentOf_eq_some_iff h).2 ⟨p, hp, y, hc, rfl, rfl⟩
        exact ⟨r, by rw [hparent, hr], hiff.trans (above_parent_iff h hp hc hid)⟩

lemma climb_of_not_mem (h : (e.preorder.map Expr.id).Nodup) (a : NodeId) {b : NodeId}
    (hb : b ∉ e.preorder.map Expr.id) : (ofExpr e).climb a (some b) = some (decide (a = b)) := by
  by_cases hba : b = a
  · rw [hba, climb_self, decide_eq_true rfl]
  · rw [climb_of_ne _ hba, parentOf_of_not_mem h hb, climb_none, decide_eq_false (Ne.symm hba)]

lemma encloses_of_climb {index : ParentIndex} {a b : NodeId} {r : Bool}
    (h : index.climb a (some b) = some r) : index.encloses a b = r := by
  rw [encloses, h]
  cases r <;> rfl

/-- In a tree without repeated ids the index leads from every node to its parent, and nowhere from the
root or from what is no node. The search upwards always ends. From a node it succeeds for the nodes
whose subtrees hold this one, and from anything else for itself only. -/
theorem decides_ancestry (e : Expr) (h : (e.preorder.map Expr.id).Nodup) :
    (∀ p ∈ e.preorder, ∀ c ∈ p.children, (ofExpr e).parentOf c.id = some p.id) ∧
    (ofExpr e).parentOf e.id = none ∧
    (∀ i, i ∉ e.preorder.map Expr.id → (ofExpr e).parentOf i = none) ∧
    (∀ a b, (ofExpr e).climb a (some b) = some ((ofExpr e).encloses a b)) ∧
    (∀ a, ∀ y ∈ e.preorder, (ofExpr e).encloses a y.id = true ↔
      ∃ x ∈ e.preorder, x.id = a ∧ y ∈ x.preorder) ∧
    ∀ a b, b ∉ e.preorder.map Expr.id → ((ofExpr e).encloses a b = true ↔ a = b) := by
  refine ⟨fun p hp c hc => (parentOf_eq_some_iff h).2 ⟨p, hp, c, hc, rfl, rfl⟩, parentOf_root h,
    fun i hi => parentOf_of_not_mem h hi, ?_, ?_, ?_⟩
  · intro a b
    have hanswer : ∃ r, (ofExpr e).climb a (some b) = some r := by
      by_cases hb : b ∈ e.preorder.map Expr.id
      · obtain ⟨y, hy, rfl⟩ := List.mem_map.1 hb
        obtain ⟨r, hr, -⟩ := climb_eq_some h a hy
        exact ⟨r, hr⟩
      · exact ⟨_, climb_of_not_mem h a hb⟩
    obtain ⟨r, hr⟩ := hanswer
    rw [hr, encloses_of_climb hr]
  · intro a y hy
    obtain ⟨r, hr, hiff⟩ := climb_eq_some h a hy
    rw [encloses_of_climb hr, hiff]
  · intro a b hb
    rw [encloses_of_climb (climb_of_not_mem h a hb), decide_eq_true_eq]

/-- In `(a + b) + x` the outer sum encloses `a`, the inner one does not enclose `x`, and an id that is
not there encloses itself. -/
theorem decides_ancestry_sum :
    let a : Expr := ⟨⟨1⟩, .ident ⟨"a"⟩⟩
    let b : Expr := ⟨⟨3⟩, .ident ⟨"b"⟩⟩
    let x : Expr := ⟨⟨5⟩, .ident ⟨"x"⟩⟩
    let inner : Expr := ⟨⟨2⟩, .call ⟨none, "_+_", [a, b]⟩⟩
    let e : Expr := ⟨⟨4⟩, .call ⟨none, "_+_", [inner, x]⟩⟩
    (e.preorder.map Expr.id).Nodup ∧ (ofExpr e).parentOf ⟨3⟩ = some ⟨2⟩ ∧
      (ofExpr e).encloses ⟨4⟩ ⟨1⟩ = true ∧ (ofExpr e).encloses ⟨2⟩ ⟨5⟩ ≠ true ∧
      (ofExpr e).encloses ⟨9⟩ ⟨9⟩ = true := by
  intro a b x inner e
  have hdistinct : (e.preorder.map Expr.id).Nodup := by decide +kernel
  obtain ⟨hparent, -, -, -, hnode, hother⟩ := decides_ancestry e hdistinct
  refine ⟨hdistinct, hparent inner (by decide +kernel) b (by decide +kernel), ?_, ?_, ?_⟩
  · exact (hnode ⟨4⟩ a (by decide +kernel)).2 (by decide +kernel)
  · exact (hnode ⟨2⟩ x (by decide +kernel)).not.2 (by decide +kernel)
  · exact (hother ⟨9⟩ ⟨9⟩ (by decide +kernel)).2 rfl

end ParentIndex

end CelEdit
