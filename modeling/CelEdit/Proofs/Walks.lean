import CelEdit.Proofs.Positions

/-!
# Walks over trees

A cursor has a stack of visits to make and no recursion. What lies deeper on the stack waits until all
that lies above it has been walked, so the walk from a visit is the recursive pre-order, and the walk
from a node that is met on the way is the part of the walk that starts there.
-/

namespace CelEdit

open CelEdit.Expr

namespace Cursor

lemma next?_push (below : Array Visit) (v : Visit) :
    next? ⟨below.push v⟩ = some (v, ⟨below ++ v.children.toArray.reverse⟩) := by
  rw [next?, Array.back?_push, Option.map_some, Array.pop_push]

/-- Induction over a walk: a visit is made, and its children are put on the stack. -/
theorem walk_induct {P : Array Visit → Prop} (done : P #[])
    (visit : ∀ below v, P (below ++ v.children.toArray.reverse) → P (below.push v))
    (stack : Array Visit) : P stack := by
  induction hn : Visit.nodeCounts stack.toList using Nat.strongRecOn generalizing stack with
  | _ n ih =>
    cases hback : stack.back? with
    | none =>
      rw [Array.back?_eq_none_iff] at hback
      exact hback ▸ done
    | some v =>
      obtain ⟨below, rfl⟩ := Array.back?_eq_some_iff.1 hback
      have hlt := nodeCounts_lt (next?_push below v)
      exact visit below v (ih _ (hn ▸ hlt) _ rfl)

@[simp] lemma toList_empty : toList ⟨#[]⟩ = [] := by
  rw [toList]
  rfl

lemma toList_push (below : Array Visit) (v : Visit) :
    toList ⟨below.push v⟩ = v :: toList ⟨below ++ v.children.toArray.reverse⟩ := by
  rw [toList]
  split
  · next hnone => cases (next?_push below v).symm.trans hnone
  · next hsome =>
    cases (next?_push below v).symm.trans hsome
    rfl

/-- What lies deeper on the stack is walked later. -/
theorem toList_append (lower upper : Array Visit) :
    toList ⟨lower ++ upper⟩ = toList ⟨upper⟩ ++ toList ⟨lower⟩ := by
  induction upper using walk_induct with
  | done => rw [Array.append_empty, toList_empty, List.nil_append]
  | visit below v ih =>
    rw [Array.append_push, toList_push, toList_push, Array.append_assoc, ih, List.cons_append]

lemma toList_reverse (vs : List Visit) :
    toList ⟨vs.toArray.reverse⟩ = vs.flatMap Visit.preorder := by
  induction vs with
  | nil => exact toList_empty
  | cons v vs ih =>
    have hstack : (v :: vs).toArray.reverse = vs.toArray.reverse ++ #[v] := by simp
    rw [hstack, toList_append, ih]
    rfl

/-- A node met on a walk was on top of a stack, and the walk goes on from there. -/
lemma drop_toList {stack : Array Visit} {i : Nat} {w : Visit} (h : (toList ⟨stack⟩)[i]? = some w) :
    ∃ below : Array Visit, (toList ⟨stack⟩).drop i = toList ⟨below.push w⟩ := by
  induction stack using walk_induct generalizing i with
  | done =>
    rw [toList_empty] at h
    cases h
  | visit below v ih =>
    rw [toList_push] at h ⊢
    cases i with
    | zero =>
      obtain rfl : v = w := Option.some.inj h
      exact ⟨below, (toList_push below v).symm⟩
    | succ i => exact ih h

end Cursor

namespace Visit

lemma preorder_eq (v : Visit) : v.preorder = v :: v.below := by
  have hpush := Cursor.toList_push #[] v
  rwa [Array.empty_append] at hpush

lemma below_eq (v : Visit) : v.below = v.children.flatMap preorder := Cursor.toList_reverse v.children

/-- The node met at a place of a walk is followed by its own walk. -/
theorem drop_preorder {v w : Visit} {i : Nat} (h : v.preorder[i]? = some w) :
    ∃ rest, v.preorder.drop i = w.preorder ++ rest := by
  obtain ⟨below, hdrop⟩ := Cursor.drop_toList h
  refine ⟨Cursor.toList ⟨below⟩, hdrop.trans ?_⟩
  rw [Array.push_eq_append]
  exact Cursor.toList_append below #[w]

/-- The nodes of a walk, without their places. -/
lemma map_expr_preorder (v : Visit) : v.preorder.map Visit.expr = v.expr.preorder := by
  obtain ⟨e, parent, depth⟩ := v
  induction e using induct generalizing parent depth with
  | node id k ih =>
    rw [preorder_eq, below_eq, List.map_cons, List.map_flatMap, preorder_mk, children,
      List.flatMap_map]
    congr 1
    exact List.flatMap_congr fun c hc => ih c hc _ _

/-- A walk from the first to the second visit goes down at a position. -/
structure Descends (v : Visit) (p : Position) (w : Visit) : Prop where
  expr : v.expr.at? p = some w.expr
  parent : w.parent = if p = [] then v.parent else v.expr.at? p.dropLast
  depth : w.depth = v.depth + p.length

lemma Descends.refl (v : Visit) : v.Descends [] v := ⟨rfl, rfl, rfl⟩

lemma Descends.of_child {v w : Visit} {c : Expr} {i : Nat} {p : Position}
    (hc : v.expr.children[i]? = some c) (h : Descends ⟨c, some v.expr, v.depth + 1⟩ p w) :
    v.Descends (i :: p) w := by
  refine ⟨at?_cons_eq_some.2 ⟨c, hc, h.expr⟩, ?_, ?_⟩
  · rw [h.parent, if_neg (List.cons_ne_nil i p)]
    cases p with
    | nil => rfl
    | cons j p =>
      have hne := List.cons_ne_nil j p
      rw [if_neg hne, List.dropLast_cons_of_ne_nil hne, at?_cons, hc]
      rfl
  · rw [h.depth, List.length_cons, Nat.add_comm p.length, Nat.add_assoc]

/-- The walk meets the positions one after the other. -/
theorem forall₂_descends (v : Visit) : List.Forall₂ v.Descends v.expr.positions v.preorder := by
  obtain ⟨e, parent, depth⟩ := v
  induction e using induct generalizing parent depth with
  | node id k ih =>
    have hchildren : ∀ (cs : List Expr) (n : Nat), (∀ c ∈ cs, c ∈ k.children) →
        (∀ j c, cs[j]? = some c → k.children[n + j]? = some c) →
        List.Forall₂ (Descends ⟨⟨id, k⟩, parent, depth⟩)
          ((cs.zipIdx n).flatMap (fun x => x.1.positions.map (fun p => x.2 :: p)))
          (cs.flatMap (fun c => preorder ⟨c, some ⟨id, k⟩, depth + 1⟩)) := by
      intro cs
      induction cs with
      | nil => exact fun _ _ _ => .nil
      | cons c cs ihcs =>
        intro n hmem hat
        rw [List.zipIdx_cons, List.flatMap_cons, List.flatMap_cons]
        apply List.rel_append
        · rw [List.forall₂_map_left_iff]
          exact (ih c (hmem c List.mem_cons_self) _ _).imp fun p w h =>
            h.of_child (hat 0 c rfl)
        · apply ihcs (n + 1) (fun d hd => hmem d (List.mem_cons_of_mem _ hd))
          intro j d hd
          rw [Nat.add_assoc, Nat.add_comm 1]
          exact hat (j + 1) d hd
    rw [preorder_eq, below_eq, positions_mk]
    refine .cons (.refl _) ?_
    have hwalk := hchildren k.children 0 (fun _ hc => hc) (fun j c hc => (Nat.zero_add j).symm ▸ hc)
    rwa [← List.flatMap_map] at hwalk

end Visit

namespace Expr

lemma length_preorder (e : Expr) : e.preorder.length = e.nodeCount := by
  induction e using induct with
  | node id k ih =>
    have hchildren : k.children.map (fun c => c.preorder.length) = k.children.map nodeCount :=
      List.map_congr_left ih
    rw [preorder_mk, nodeCount_mk, List.length_cons, List.length_flatMap, hchildren, foldr_add]
    rfl

lemma find?_eq_find?_preorder (target : NodeId) (e : Expr) :
    e.find? target = e.preorder.find? (fun n => n.id = target) := by
  induction e using induct with
  | node id k ih =>
    rw [find?_mk, preorder_mk, List.find?_cons, List.find?_flatMap]
    by_cases hid : id = target
    · simp [hid]
    · simp only [if_neg hid, decide_eq_false hid]
      exact findSome?_congr ih

/-- The ids of a tree, node by node. -/
lemma slots_eq_flatMap (e : Expr) : e.slots = e.preorder.flatMap (fun n => n.id :: n.entryIds) := by
  induction e using induct with
  | node id k ih =>
    rw [slots_mk, preorder_mk, List.flatMap_cons, List.flatMap_assoc]
    exact congrArg _ (List.flatMap_congr ih)

end Expr

lemma NodeId.largest_mem (base : NodeId) (ids : List NodeId) : largest base ids ∈ base :: ids := by
  induction ids generalizing base with
  | nil => exact List.mem_singleton.2 rfl
  | cons i ids ih =>
    have hstep : largest base (i :: ids) =
        largest (if base.value < i.value then i else base) ids := rfl
    rw [hstep]
    rcases List.mem_cons.1 (ih (if base.value < i.value then i else base)) with h | h
    · rw [h]
      split <;> simp
    · exact List.mem_cons_of_mem _ (List.mem_cons_of_mem _ h)

lemma Expr.maxId_mem_slots (e : Expr) : e.maxId ∈ e.slots := by
  induction e using induct with
  | node id k ih =>
    have hmem := NodeId.largest_mem id (k.entryIds ++ k.children.map maxId)
    rw [maxId_mk, slots_mk, List.cons_append, List.mem_cons, List.mem_append, List.mem_flatMap]
    rw [List.mem_cons, List.mem_append, List.mem_map] at hmem
    rcases hmem with h | h | ⟨c, hc, h⟩
    · exact .inl h
    · exact .inr (.inl h)
    · exact .inr (.inr ⟨c, hc, h ▸ ih c hc⟩)

namespace Visit

/-- The walk is the recursive pre-order: a node, then the walks of its children, each node with its
parent and its depth. The walk of a node that is met is the part of the walk that begins there. So the
walk has as many nodes as the tree, lookup finds the first node listed with an id, and the largest id
is the largest of those listed. -/
theorem walk_is_preorder (e : Expr) :
    (∀ v : Visit, v.preorder = v :: v.children.flatMap preorder ∧ v.below = v.preorder.tail ∧
      v.preorder.map expr = v.expr.preorder ∧ v.preorder.length = v.expr.nodeCount) ∧
    List.Forall₂ (root e).Descends e.positions (root e).preorder ∧
    (∀ i w, (root e).preorder[i]? = some w →
      w.preorder = ((root e).preorder.drop i).take w.expr.nodeCount) ∧
    (∀ id, e.find? id = ((root e).preorder.find? (fun w => w.expr.id = id)).map expr) ∧
    e.maxId ∈ (root e).preorder.flatMap (fun w => w.expr.id :: w.expr.entryIds) ∧
    ∀ id ∈ (root e).preorder.flatMap (fun w => w.expr.id :: w.expr.entryIds),
      id.toNat ≤ e.maxId.toNat := by
  have hlength (v : Visit) : v.preorder.length = v.expr.nodeCount := by
    rw [← Expr.length_preorder, ← map_expr_preorder, List.length_map]
  have hnodes : (root e).preorder.map expr = e.preorder := map_expr_preorder (root e)
  have hslots : (root e).preorder.flatMap (fun w => w.expr.id :: w.expr.entryIds) = e.slots := by
    rw [slots_eq_flatMap, ← hnodes, List.flatMap_map]
  refine ⟨fun v => ⟨?_, ?_, map_expr_preorder v, hlength v⟩, forall₂_descends _, ?_, ?_, ?_, ?_⟩
  · rw [preorder_eq, below_eq]
  · rw [preorder_eq, List.tail_cons]
  · intro i w hw
    obtain ⟨rest, hdrop⟩ := drop_preorder hw
    rw [hdrop, ← hlength, List.take_left]
  · intro id
    rw [find?_eq_find?_preorder, ← hnodes, List.find?_map]
    rfl
  · rw [hslots]
    exact maxId_mem_slots e
  · rw [hslots]
    exact fun _ => toNat_le_maxId

/-- In `{k: x} + y` the walk meets the map as the second node, with its key and its value below it. -/
theorem walk_is_preorder_map :
    let literal : Expr := ⟨⟨2⟩, .map ⟨[⟨⟨7⟩, ⟨⟨1⟩, .ident ⟨"k"⟩⟩, ⟨⟨3⟩, .ident ⟨"x"⟩⟩, false⟩]⟩⟩
    let e : Expr := ⟨⟨4⟩, .call ⟨none, "_+_", [literal, ⟨⟨5⟩, .ident ⟨"y"⟩⟩]⟩⟩
    let w : Visit := ⟨literal, some e, 1⟩
    (root e).preorder[1]? = some w ∧ w.preorder = ((root e).preorder.drop 1).take 3 ∧
      (⟨7⟩ : NodeId).toNat ≤ e.maxId.toNat := by
  intro literal e w
  obtain ⟨-, -, hslice, -, -, hmax⟩ := walk_is_preorder e
  have hw : (root e).preorder[1]? = some w := by
    rw [preorder_eq, below_eq, List.getElem?_cons_succ]
    change (preorder w ++ _)[0]? = some w
    rw [preorder_eq]
    rfl
  have hentry : ⟨7⟩ ∈ w.expr.id :: w.expr.entryIds := by decide
  exact ⟨hw, hslice 1 w hw, hmax _ (List.mem_flatMap.2 ⟨w, List.mem_of_getElem? hw, hentry⟩)⟩

end Visit

end CelEdit
