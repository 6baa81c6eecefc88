import CelEdit.Proofs.Trees

/-!
# Positions

A node is told apart from the others by where it stands: by the numbers of the children on the way
from the root. Replacing the node at a position leaves everything else as it is, and lookup by id is
lookup at the first position, in pre-order, whose node has the id.
-/

namespace CelEdit

/-- The way to a node: the number of a child at each step. -/
abbrev Position := List Nat

namespace Expr

variable {ι : Type}

/-- The node at a position. -/
def at? : Expr ι → Position → Option (Expr ι)
  | e, [] => some e
  | e, i :: p => e.children[i]?.bind (fun c => c.at? p)

/-- The tree with another one at a position. -/
def setAt (d : Expr) : Position → Expr → Expr
  | [], _ => d
  | i :: p, e => ⟨e.id, e.kind.withChildren (e.children.modify i (setAt d p))⟩

/-- All positions, in pre-order. -/
def positions : Expr → List Position :=
  fold fun _ k =>
    [] :: (k.children.map Prod.snd).zipIdx.flatMap (fun x => x.1.map (fun p => x.2 :: p))

/-- The first position in pre-order whose node has the given id. -/
def firstAt? (target : NodeId) (e : Expr) : Option Position :=
  e.positions.find? (fun p => (e.at? p).any (fun n => n.id = target))

@[simp] lemma at?_nil (e : Expr ι) : e.at? [] = some e := rfl

lemma at?_cons (e : Expr ι) (i : Nat) (p : Position) :
    e.at? (i :: p) = e.children[i]?.bind (fun c => c.at? p) := rfl

lemma at?_cons_eq_some {e x : Expr} {i : Nat} {p : Position} :
    e.at? (i :: p) = some x ↔ ∃ c, e.children[i]? = some c ∧ c.at? p = some x := by
  rw [at?_cons, Option.bind_eq_some_iff]

lemma at?_append (e : Expr) (p q : Position) : e.at? (p ++ q) = (e.at? p).bind (fun x => x.at? q) := by
  induction p generalizing e with
  | nil => rfl
  | cons i p ih =>
    rw [List.cons_append, at?_cons, at?_cons]
    cases e.children[i]? with
    | none => rfl
    | some c => exact ih c

lemma id_unique_at {e : Expr} {p : Position} {i j : NodeId} (hi : ∃ x, e.at? p = some x ∧ x.id = i)
    (hj : ∃ x, e.at? p = some x ∧ x.id = j) : i = j := by
  obtain ⟨x, hx, rfl⟩ := hi
  obtain ⟨y, hy, rfl⟩ := hj
  rw [hx, Option.some.injEq] at hy
  rw [hy]

lemma setAt_cons (d e : Expr) (i : Nat) (p : Position) :
    setAt d (i :: p) e = ⟨e.id, e.kind.withChildren (e.children.modify i (setAt d p))⟩ := rfl

lemma children_setAt_cons (d e : Expr) (i : Nat) (p : Position) :
    (setAt d (i :: p) e).children = e.children.modify i (setAt d p) := by
  apply Kind.children_withChildren
  rw [List.length_modify]
  rfl

lemma outline_setAt_cons (d e : Expr) (i : Nat) (p : Position) :
    (setAt d (i :: p) e).kind.outline = e.kind.outline :=
  Kind.outline_eq_of_shape_eq (Kind.shape_withChildren ..)

lemma entryIds_setAt_cons (d e : Expr) (i : Nat) (p : Position) :
    (setAt d (i :: p) e).kind.entryIds = e.kind.entryIds :=
  Kind.entryIds_eq_of_shape_eq (Kind.shape_withChildren ..)

lemma setAt_self {e x : Expr} {p : Position} (h : e.at? p = some x) : setAt x p e = e := by
  induction p generalizing e with
  | nil =>
    rw [at?_nil, Option.some.injEq] at h
    exact h.symm
  | cons i p ih =>
    obtain ⟨c, hc, hx⟩ := at?_cons_eq_some.1 h
    have hsame : e.children.modify i (setAt x p) = e.children := by
      apply List.ext_getElem?
      intro j
      by_cases hij : i = j
      · rw [← hij, List.getElem?_modify_eq, hc]
        exact congrArg some (ih hx)
      · rw [List.getElem?_modify_ne _ _ hij]
    rw [setAt_cons, hsame]
    have hkind := Kind.withChildren_children e.kind
    cases e
    exact congrArg _ hkind

/-- Below the position stands the tree that was put there. -/
theorem at?_setAt_append {e x : Expr} {p : Position} (h : e.at? p = some x) (d : Expr) (q : Position) :
    (setAt d p e).at? (p ++ q) = d.at? q := by
  induction p generalizing e with
  | nil => rfl
  | cons i p ih =>
    obtain ⟨c, hc, hx⟩ := at?_cons_eq_some.1 h
    rw [List.cons_append, at?_cons, children_setAt_cons, List.getElem?_modify_eq, hc]
    exact ih hx

/-- Everywhere else the nodes are the old ones, but for what is below them. -/
theorem at?_setAt_of_not_prefix {p q : Position} (h : ¬ p <+: q) (d e : Expr) :
    ((setAt d p e).at? q).map (fun n => (n.id, n.kind.shape)) =
      (e.at? q).map (fun n => (n.id, n.kind.shape)) := by
  induction p generalizing e q with
  | nil => exact absurd List.nil_prefix h
  | cons i p ih =>
    obtain _ | ⟨j, q⟩ := q
    · rw [at?_nil, at?_nil, Option.map_some, Option.map_some, setAt_cons, Kind.shape_withChildren]
    · rw [at?_cons, at?_cons, children_setAt_cons]
      by_cases hij : i = j
      · subst hij
        rw [List.getElem?_modify_eq]
        have hpq : ¬ p <+: q := fun hpq => h (by simpa using hpq)
        cases e.children[i]? with
        | none => rfl
        | some c => exact ih hpq c
      · rw [List.getElem?_modify_ne _ _ hij]

/-- The shape of the whole depends only on the shape of what is put in. -/
lemma eraseIds_setAt_congr {d d' : Expr} (h : d.eraseIds = d'.eraseIds) (p : Position) (e : Expr) :
    (setAt d p e).eraseIds = (setAt d' p e).eraseIds := by
  induction p generalizing e with
  | nil => exact h
  | cons i p ih =>
    rw [setAt_cons, setAt_cons, eraseIds_eq_iff]
    constructor
    · exact (outline_setAt_cons d e i p).trans (outline_setAt_cons d' e i p).symm
    · change (setAt d (i :: p) e).children.map eraseIds = (setAt d' (i :: p) e).children.map eraseIds
      rw [children_setAt_cons, children_setAt_cons]
      apply List.ext_getElem?
      intro j
      rw [List.getElem?_map, List.getElem?_map]
      by_cases hij : i = j
      · rw [← hij, List.getElem?_modify_eq, List.getElem?_modify_eq]
        cases e.children[i]? with
        | none => rfl
        | some c => exact congrArg some (ih c)
      · rw [List.getElem?_modify_ne _ _ hij, List.getElem?_modify_ne _ _ hij]

/-! ### The first position of an id -/

lemma positions_mk (id : NodeId) (k : Kind Expr) :
    positions ⟨id, k⟩ =
      [] :: k.children.zipIdx.flatMap (fun x => x.1.positions.map (fun p => x.2 :: p)) := by
  conv_lhs => unfold positions
  rw [fold_eq, children_paired, List.map_map, List.zipIdx_map, List.flatMap_map]
  rfl

lemma firstAt?_mk (target id : NodeId) (k : Kind Expr) :
    firstAt? target ⟨id, k⟩ =
      if id = target then some []
      else k.children.zipIdx.findSome?
        (fun x => (x.1.firstAt? target).map (fun p => x.2 :: p)) := by
  rw [firstAt?, positions_mk, List.find?_cons]
  by_cases hid : id = target
  · simp [hid]
  · simp only [at?_nil, Option.any_some, hid, decide_false, if_false, List.find?_flatMap,
      List.find?_map]
    apply findSome?_congr
    rintro ⟨c, i⟩ hc
    have hchild : (Expr.mk id k).children[i]? = some c := List.mem_zipIdx_iff_getElem?.1 hc
    have htest : ((fun p => Option.any (fun n => decide (n.id = target)) ((Expr.mk id k).at? p)) ∘
        fun p => i :: p) = fun p => (c.at? p).any (fun n => decide (n.id = target)) := by
      funext p
      rw [Function.comp_apply, at?_cons, hchild, Option.bind_some]
    rw [htest]
    rfl

lemma findSome?_zipIdx_eq_none {α : Type} {f : α → Option Position} {as : List α} {n : Nat} :
    (as.zipIdx n).findSome? (fun x => (f x.1).map (fun p => x.2 :: p)) = none ↔
      ∀ a ∈ as, f a = none := by
  induction as generalizing n with
  | nil => simp
  | cons a as ih =>
    rw [List.zipIdx_cons, List.findSome?_cons]
    cases hf : f a with
    | none => simp [hf, ih]
    | some b => simp [hf]

lemma findSome?_zipIdx_eq_some {α : Type} {f : α → Option Position} {as : List α} {n : Nat}
    {p : Position} : (as.zipIdx n).findSome? (fun x => (f x.1).map (fun p => x.2 :: p)) = some p ↔
      ∃ before a after q, as = before ++ a :: after ∧ (∀ x ∈ before, f x = none) ∧
        f a = some q ∧ p = (n + before.length) :: q := by
  induction as generalizing n with
  | nil => simp
  | cons a as ih =>
    rw [List.zipIdx_cons, List.findSome?_cons]
    cases hf : f a with
    | none =>
      simp only [Option.map_none, ih]
      constructor
      · rintro ⟨before, a', after, y, rfl, hbefore, ha', rfl⟩
        refine ⟨a :: before, a', after, y, rfl, ?_, ha', ?_⟩
        · simpa [hf] using hbefore
        · rw [List.length_cons]
          congr 1
          omega
      · rintro ⟨before, a', after, y, has, hbefore, ha', rfl⟩
        obtain _ | ⟨a'', before⟩ := before
        · rw [List.nil_append, List.cons.injEq] at has
          rw [← has.1, hf] at ha'
          cases ha'
        · rw [List.cons_append, List.cons.injEq] at has
          refine ⟨before, a', after, y, has.2, fun x hx => hbefore x (List.mem_cons_of_mem _ hx),
            ha', ?_⟩
          rw [List.length_cons]
          congr 1
          omega
    | some y =>
      simp only [Option.map_some, Option.some.injEq]
      constructor
      · rintro rfl
        exact ⟨[], a, as, y, rfl, by simp, hf, rfl⟩
      · rintro ⟨before, a', after, y', has, hbefore, ha', rfl⟩
        obtain _ | ⟨a'', before⟩ := before
        · rw [List.nil_append, List.cons.injEq] at has
          rw [← has.1, hf, Option.some.injEq] at ha'
          rw [ha']
          rfl
        · rw [List.cons_append, List.cons.injEq] at has
          have hnone := hbefore a'' List.mem_cons_self
          rw [← has.1, hf] at hnone
          cases hnone

/-- An id is not found when it is neither that of the root nor found in a child. -/
lemma firstAt?_eq_none_mk {target id : NodeId} {k : Kind Expr} :
    firstAt? target ⟨id, k⟩ = none ↔ id ≠ target ∧ ∀ c ∈ k.children, c.firstAt? target = none := by
  rw [firstAt?_mk]
  by_cases hid : id = target
  · simp [hid]
  · rw [if_neg hid, findSome?_zipIdx_eq_none]
    exact ⟨fun h => ⟨hid, h⟩, fun h => h.2⟩

/-- An id is found at the root, or in the first child that has it. -/
lemma firstAt?_eq_some_mk {target id : NodeId} {k : Kind Expr} {p : Position} :
    firstAt? target ⟨id, k⟩ = some p ↔ id = target ∧ p = [] ∨ id ≠ target ∧
      ∃ before c after q, k.children = before ++ c :: after ∧
        (∀ c ∈ before, c.firstAt? target = none) ∧ c.firstAt? target = some q ∧
        p = before.length :: q := by
  rw [firstAt?_mk]
  by_cases hid : id = target
  · simp [hid, eq_comm]
  · rw [if_neg hid, findSome?_zipIdx_eq_some]
    simp [hid]

lemma exists_of_firstAt? {target : NodeId} {e : Expr} {p : Position}
    (h : e.firstAt? target = some p) : ∃ x, e.at? p = some x ∧ x.id = target := by
  have htest := List.find?_some h
  rw [Option.any_eq_true] at htest
  obtain ⟨x, hx, hid⟩ := htest
  exact ⟨x, hx, by simpa using hid⟩

/-- Lookup by id is lookup at the first position of the id. -/
theorem at?_firstAt? (target : NodeId) (e : Expr) :
    (e.firstAt? target).bind e.at? = e.find? target := by
  induction e using induct with
  | node id k ih =>
    rw [find?_mk]
    cases hfirst : firstAt? target ⟨id, k⟩ with
    | none =>
      obtain ⟨hid, hchildren⟩ := firstAt?_eq_none_mk.1 hfirst
      rw [if_neg hid, Option.bind_none]
      symm
      rw [List.findSome?_eq_none_iff]
      intro c hc
      rw [← ih c hc, hchildren c hc, Option.bind_none]
    | some p =>
      rw [Option.bind_some]
      rcases firstAt?_eq_some_mk.1 hfirst with ⟨hid, rfl⟩ |
        ⟨hid, before, c, after, q, hsplit, hbefore, hc, rfl⟩
      · rw [if_pos hid, at?_nil]
      · have hcmem : c ∈ k.children := by simp [hsplit]
        have hfound := ih c hcmem
        rw [hc, Option.bind_some] at hfound
        have hmissed : before.findSome? (find? target) = none := by
          rw [List.findSome?_eq_none_iff]
          intro b hb
          rw [← ih b (by simp [hsplit, hb]), hbefore b hb, Option.bind_none]
        rw [if_neg hid, at?_cons, children, hsplit, List.getElem?_append_right (Nat.le_refl _),
          Nat.sub_self, List.getElem?_cons_zero, Option.bind_some, hfound, List.findSome?_append,
          hmissed, Option.none_or, List.findSome?_cons, ← hfound]
        obtain ⟨x, hx, -⟩ := exists_of_firstAt? hc
        rw [hx]

/-! ### Nodes and ids at positions -/

lemma mem_preorder_iff {x e : Expr} : x ∈ e.preorder ↔ ∃ p, e.at? p = some x := by
  induction e using induct with
  | node id k ih =>
    rw [mem_preorder_mk]
    constructor
    · rintro (rfl | ⟨c, hc, hx⟩)
      · exact ⟨[], rfl⟩
      · obtain ⟨p, hp⟩ := (ih c hc).1 hx
        obtain ⟨i, hi⟩ := List.getElem?_of_mem hc
        exact ⟨i :: p, at?_cons_eq_some.2 ⟨c, hi, hp⟩⟩
    · rintro ⟨_ | ⟨i, p⟩, hp⟩
      · exact .inl (Option.some.inj hp).symm
      · obtain ⟨c, hi, hp⟩ := at?_cons_eq_some.1 hp
        have hc : c ∈ k.children := List.mem_of_getElem? hi
        exact .inr ⟨c, hc, (ih c hc).2 ⟨p, hp⟩⟩

lemma mem_of_find? {e x : Expr} {target : NodeId} (h : e.find? target = some x) :
    x ∈ e.preorder ∧ x.id = target := by
  rw [← at?_firstAt?, Option.bind_eq_some_iff] at h
  obtain ⟨p, hp, hx⟩ := h
  obtain ⟨y, hy, hid⟩ := exists_of_firstAt? hp
  rw [hx, Option.some.injEq] at hy
  exact ⟨mem_preorder_iff.2 ⟨p, hx⟩, hy ▸ hid⟩

lemma children_split {e c : Expr} {i : Nat} (h : e.children[i]? = some c) :
    ∃ before after, e.children = before ++ c :: after ∧ before.length = i := by
  obtain ⟨hi, hc⟩ := List.getElem?_eq_some_iff.1 h
  refine ⟨e.children.take i, e.children.drop (i + 1), ?_, by simp; omega⟩
  rw [← hc, ← List.drop_eq_getElem_cons hi, List.take_append_drop]

lemma not_mem_children_slots {e x : Expr} {i : Nat} {p : Position} (he : e.DistinctIds)
    (hset : e.id.isSet) (hx : e.at? (i :: p) = some x) : x.id ≠ e.id := by
  intro hid
  obtain ⟨c, hc, hp⟩ := at?_cons_eq_some.1 hx
  obtain ⟨id, k⟩ := e
  have hslot := id_mem_slots (mem_preorder_iff.2 ⟨p, hp⟩)
  rw [hid] at hslot
  have hmem : id ∈ k.children.flatMap slots :=
    List.mem_flatMap.2 ⟨c, List.mem_of_getElem? hc, hslot⟩
  rw [DistinctIds, slots_mk, List.cons_append, List.filter_cons_of_pos hset, List.nodup_cons,
    List.mem_filter] at he
  exact he.1 ⟨List.mem_append_right _ hmem, hset⟩

lemma child_index_eq {e c d : Expr} {i j : Nat} {id : NodeId} (he : e.DistinctIds) (hset : id.isSet)
    (hc : e.children[i]? = some c) (hd : e.children[j]? = some d) (hidc : id ∈ c.slots)
    (hidd : id ∈ d.slots) : i = j := by
  obtain ⟨rid, k⟩ := e
  have hnodup : ((k.children.flatMap slots).filter NodeId.isSet).Nodup := by
    rw [DistinctIds, slots_mk, List.filter_append] at he
    exact he.of_append_right
  rw [List.filter_flatMap, List.nodup_flatMap, List.pairwise_iff_getElem] at hnodup
  obtain ⟨hi, rfl⟩ := List.getElem?_eq_some_iff.1 hc
  obtain ⟨hj, rfl⟩ := List.getElem?_eq_some_iff.1 hd
  have hidc := List.mem_filter.2 ⟨hidc, hset⟩
  have hidd := List.mem_filter.2 ⟨hidd, hset⟩
  rcases Nat.lt_trichotomy i j with hlt | heq | hlt
  · exact (hnodup.2 i j hi hj hlt hidc hidd).elim
  · exact heq
  · exact (hnodup.2 j i hj hi hlt hidd hidc).elim

/-- In a tree with distinct ids an id that is set stands at one position. -/
theorem DistinctIds.position_eq {e x y : Expr} {p q : Position} (he : e.DistinctIds)
    (hx : e.at? p = some x) (hy : e.at? q = some y) (hset : x.id.isSet) (hid : x.id = y.id) :
    p = q := by
  induction p generalizing e q with
  | nil =>
    obtain _ | ⟨j, q⟩ := q
    · rfl
    · rw [at?_nil, Option.some.injEq] at hx
      subst hx
      exact absurd hid.symm (not_mem_children_slots he hset hy)
  | cons i p ih =>
    obtain _ | ⟨j, q⟩ := q
    · rw [at?_nil, Option.some.injEq] at hy
      subst hy
      exact absurd hid (not_mem_children_slots he (hid ▸ hset) hx)
    · obtain ⟨c, hc, hp⟩ := at?_cons_eq_some.1 hx
      obtain ⟨d, hd, hq⟩ := at?_cons_eq_some.1 hy
      have hij : i = j := child_index_eq he hset hc hd (id_mem_slots (mem_preorder_iff.2 ⟨p, hp⟩))
        (hid ▸ id_mem_slots (mem_preorder_iff.2 ⟨q, hq⟩))
      subst hij
      rw [hc, Option.some.injEq] at hd
      subst hd
      rw [ih (he.of_mem_preorder (mem_preorder_of_mem_children (List.mem_of_getElem? hc))) hp hq]

lemma Relabels.at? {R : NodeId → NodeId → Prop} {e e' x : Expr} {p : Position}
    (h : Relabels R e e') (hx : e.at? p = some x) : ∃ x', e'.at? p = some x' ∧ Relabels R x x' := by
  induction p generalizing e e' with
  | nil =>
    rw [at?_nil, Option.some.injEq] at hx
    exact ⟨e', rfl, hx ▸ h⟩
  | cons i p ih =>
    obtain ⟨c, hc, hp⟩ := at?_cons_eq_some.1 hx
    obtain ⟨id, k⟩ := e
    obtain ⟨id', k'⟩ := e'
    have hchildren := (relabels_mk_iff.1 h).2.2.2
    obtain ⟨hi, hget⟩ := List.getElem?_eq_some_iff.1 hc
    have hi' : i < k'.children.length := hchildren.length_eq ▸ hi
    have hpair : Relabels R c k'.children[i] := hget ▸ hchildren.get hi hi'
    obtain ⟨x', hx', hrel⟩ := ih hpair hp
    exact ⟨x', at?_cons_eq_some.2 ⟨_, List.getElem?_eq_getElem hi', hx'⟩, hrel⟩

/-- The ids that come before those of the subtree at a position. -/
def slotsBefore : Position → Expr → List NodeId
  | [], _ => []
  | i :: p, e => e.id :: e.entryIds ++ (e.children.take i).flatMap slots ++
      (e.children[i]?.map (slotsBefore p)).getD []

/-- The ids that come after those of the subtree at a position. -/
def slotsAfter : Position → Expr → List NodeId
  | [], _ => []
  | i :: p, e => (e.children[i]?.map (slotsAfter p)).getD [] ++
      (e.children.drop (i + 1)).flatMap slots

section Split

variable {id : NodeId} {k : Kind Expr} {before after : List Expr} {c : Expr}

lemma child_at_split (h : k.children = before ++ c :: after) :
    (Expr.mk id k).children[before.length]? = some c := by
  rw [children, h, List.getElem?_append_right (Nat.le_refl _), Nat.sub_self, List.getElem?_cons_zero]

lemma slotsBefore_split (h : k.children = before ++ c :: after) (p : Position) :
    slotsBefore (before.length :: p) ⟨id, k⟩ =
      id :: k.entryIds ++ before.flatMap slots ++ slotsBefore p c := by
  rw [slotsBefore, child_at_split h]
  simp only [children, entryIds, h, List.take_left, Option.map_some, Option.getD_some]

lemma slotsAfter_split (h : k.children = before ++ c :: after) (p : Position) :
    slotsAfter (before.length :: p) ⟨id, k⟩ = slotsAfter p c ++ after.flatMap slots := by
  rw [slotsAfter, child_at_split h]
  simp [children, h]

lemma children_setAt_split (h : k.children = before ++ c :: after) (d : Expr) (p : Position) :
    (setAt d (before.length :: p) ⟨id, k⟩).kind.children = before ++ setAt d p c :: after := by
  change (setAt d (before.length :: p) ⟨id, k⟩).children = _
  rw [children_setAt_cons, children, h, List.modify_eq_take_drop, List.take_left, List.drop_left,
    List.modifyHead_cons]

end Split

lemma at?_split {e x : Expr} {i : Nat} {p : Position} (h : e.at? (i :: p) = some x) :
    ∃ before c after, e.kind.children = before ++ c :: after ∧ before.length = i ∧
      c.at? p = some x := by
  obtain ⟨c, hc, hp⟩ := at?_cons_eq_some.1 h
  obtain ⟨before, after, hsplit, hlength⟩ := children_split hc
  exact ⟨before, c, after, hsplit, hlength, hp⟩

/-- Replacing a subtree exchanges its ids within the list of all ids. -/
theorem slots_setAt {e x : Expr} {p : Position} (h : e.at? p = some x) (d : Expr) :
    (setAt d p e).slots = slotsBefore p e ++ d.slots ++ slotsAfter p e := by
  induction p generalizing e with
  | nil => simp [setAt, slotsBefore, slotsAfter]
  | cons i p ih =>
    obtain ⟨before, c, after, hsplit, rfl, hp⟩ := at?_split h
    obtain ⟨id, k⟩ := e
    rw [slotsBefore_split hsplit, slotsAfter_split hsplit]
    have hmk : setAt d (before.length :: p) ⟨id, k⟩ =
        ⟨id, (setAt d (before.length :: p) ⟨id, k⟩).kind⟩ := rfl
    rw [hmk, slots_mk, entryIds_setAt_cons, children_setAt_split hsplit, List.flatMap_append,
      List.flatMap_cons, ih hp]
    simp only [List.append_assoc, List.cons_append]

lemma slots_eq_around {e x : Expr} {p : Position} (h : e.at? p = some x) :
    e.slots = slotsBefore p e ++ x.slots ++ slotsAfter p e := by
  rw [← slots_setAt h x, setAt_self h]

lemma nodeCount_split {id : NodeId} {k : Kind Expr} {before after : List Expr} {c : Expr}
    (h : k.children = before ++ c :: after) :
    nodeCount ⟨id, k⟩ = (before.map nodeCount).foldr (· + ·) 0 + c.nodeCount +
      (after.map nodeCount).foldr (· + ·) 0 + 1 := by
  rw [nodeCount_mk, foldr_add, h, List.map_append, List.foldr_append, foldr_add, List.map_cons,
    List.foldr_cons]
  omega

lemma nodeCount_le_of_at? {e x : Expr} {p : Position} (h : e.at? p = some x) :
    x.nodeCount ≤ e.nodeCount := by
  induction p generalizing e with
  | nil =>
    rw [at?_nil, Option.some.injEq] at h
    exact Nat.le_of_eq (h ▸ rfl)
  | cons i p ih =>
    obtain ⟨before, c, after, hsplit, -, hp⟩ := at?_split h
    obtain ⟨id, k⟩ := e
    have hchild := ih hp
    rw [nodeCount_split hsplit]
    omega

/-- Replacing a subtree exchanges its nodes within the count of all nodes. -/
theorem nodeCount_setAt {e x : Expr} {p : Position} (h : e.at? p = some x) (d : Expr) :
    (setAt d p e).nodeCount + x.nodeCount = e.nodeCount + d.nodeCount := by
  induction p generalizing e with
  | nil =>
    rw [at?_nil, Option.some.injEq] at h
    rw [h, setAt, Nat.add_comm]
  | cons i p ih =>
    obtain ⟨before, c, after, hsplit, rfl, hp⟩ := at?_split h
    obtain ⟨id, k⟩ := e
    have hchild := ih hp
    have hset : (setAt d (before.length :: p) ⟨id, k⟩).nodeCount = _ :=
      nodeCount_split (children_setAt_split hsplit d p)
    rw [hset, nodeCount_split hsplit]
    omega

end Expr

end CelEdit
