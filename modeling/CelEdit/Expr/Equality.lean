import CelEdit.Expr.Basic

/-!
# Equality of expressions

Two trees are equal when their roots agree in id and shape and their children are equal one by one.
-/

namespace CelEdit

namespace Kind

variable {α β : Type}

theorem map_value_injective {es fs : List (StructEntry α)}
    (hshape : es.map (fun e => (e.id, e.fieldKey, e.optionalEntry)) =
      fs.map (fun e => (e.id, e.fieldKey, e.optionalEntry)))
    (hvalue : es.map StructEntry.value = fs.map StructEntry.value) : es = fs := by
  induction es generalizing fs with
  | nil => cases fs with
    | nil => rfl
    | cons f fs => simp at hvalue
  | cons e es ih =>
    cases fs with
    | nil => simp at hvalue
    | cons f fs =>
      simp only [List.map_cons, List.cons.injEq, Prod.mk.injEq] at hshape hvalue
      obtain ⟨⟨hid, hkey, hopt⟩, hshape⟩ := hshape
      cases e
      cases f
      simp only at hid hkey hopt hvalue
      simp only [hid, hkey, hopt, hvalue.1, ih hshape hvalue.2]

theorem flatMap_pair_injective {es fs : List (MapEntry α)}
    (hshape : es.map (fun e => (e.id, e.optionalEntry)) = fs.map (fun e => (e.id, e.optionalEntry)))
    (hvalue : es.flatMap (fun e => [e.key, e.value]) = fs.flatMap (fun e => [e.key, e.value])) :
    es = fs := by
  induction es generalizing fs with
  | nil => cases fs with
    | nil => rfl
    | cons f fs => simp at hvalue
  | cons e es ih =>
    cases fs with
    | nil => simp at hvalue
    | cons f fs =>
      simp only [List.map_cons, List.cons.injEq, Prod.mk.injEq, List.flatMap_cons,
        List.cons_append, List.nil_append] at hshape hvalue
      obtain ⟨⟨hid, hopt⟩, hshape⟩ := hshape
      cases e
      cases f
      simp only at hid hopt hvalue
      simp only [hid, hopt, hvalue.1, hvalue.2.1, ih hshape hvalue.2.2]

/-- A kind is determined by its shape and its children. -/
theorem eq_of_shape_of_children {k l : Kind α} (hshape : k.shape = l.shape)
    (hchildren : k.children = l.children) : k = l := by
  cases k <;> cases l <;> simp only [shape, mapChildren, reduceCtorEq] at hshape
  case notSet.notSet => rfl
  case constant.constant => simpa using hshape
  case ident.ident => simpa using hshape
  case select.select s t =>
    cases s
    cases t
    simp_all [children]
  case call.call c d =>
    obtain ⟨t, f, as⟩ := c
    obtain ⟨u, g, bs⟩ := d
    cases t <;> cases u <;> simp_all [children]
  case list.list l m =>
    cases l
    cases m
    simp_all [children]
  case struct.struct s t =>
    obtain ⟨n, es⟩ := s
    obtain ⟨o, fs⟩ := t
    simp only [struct.injEq, StructLiteral.mk.injEq] at hshape ⊢
    refine ⟨hshape.1, map_value_injective ?_ hchildren⟩
    have := congrArg (List.map (fun e : StructEntry Unit => (e.id, e.fieldKey, e.optionalEntry)))
      hshape.2
    simpa [Function.comp_def] using this
  case map.map m n =>
    obtain ⟨es⟩ := m
    obtain ⟨fs⟩ := n
    simp only [map.injEq, MapLiteral.mk.injEq] at hshape ⊢
    refine flatMap_pair_injective ?_ hchildren
    have := congrArg (List.map (fun e : MapEntry Unit => (e.id, e.optionalEntry))) hshape
    simpa [Function.comp_def] using this
  case comprehension.comprehension c d =>
    cases c
    cases d
    simp_all [children]

@[simp] theorem children_mapChildren (f : α → β) (k : Kind α) :
    (k.mapChildren f).children = k.children.map f := by
  cases k <;> simp [mapChildren, children, List.map_flatMap, List.flatMap_map, Option.toList_map]

@[simp] theorem shape_mapChildren (f : α → β) (k : Kind α) : (k.mapChildren f).shape = k.shape := by
  cases k <;> simp only [shape, mapChildren, Option.map_map, List.map_map, Function.comp_def]

end Kind

/-- Whether the tests, taken in order, accept the values one by one. -/
def acceptAll {α : Type} : List (α → Bool) → List α → Bool
  | [], [] => true
  | t :: ts, x :: xs => t x && acceptAll ts xs
  | _, _ => false

namespace Expr

/-- Structural equality of trees. -/
def same : Expr → Expr → Bool :=
  fold fun id k other =>
    id = other.id && k.shape = other.kind.shape
      && acceptAll (k.children.map Prod.snd) other.kind.children

theorem acceptAll_same_iff {cs : List Expr} (ih : ∀ c ∈ cs, ∀ d, same c d = true ↔ c = d) (ds : List Expr) :
    acceptAll (cs.map same) ds = true ↔ cs = ds := by
  induction cs generalizing ds with
  | nil => cases ds <;> simp [acceptAll]
  | cons c cs ihcs =>
    cases ds with
    | nil => simp [acceptAll]
    | cons d ds =>
      have hc := ih c (List.mem_cons_self ..) d
      have hcs := ihcs (fun x hx => ih x (List.mem_cons_of_mem _ hx)) ds
      simp [acceptAll, hc, hcs]

theorem same_iff (a b : Expr) : same a b = true ↔ a = b := by
  induction a using induct generalizing b with
  | node id k ih =>
    obtain ⟨id', k'⟩ := b
    have hchildren : (k.mapChildren (fun c => (c, same c))).children.map Prod.snd =
        k.children.map same := by
      simp
    have hfold : same ⟨id, k⟩ ⟨id', k'⟩ = (decide (id = id') && decide (k.shape = k'.shape)
        && acceptAll (k.children.map same) k'.children) := by
      conv => lhs; unfold same
      rw [fold_eq]
      change (decide (id = id') && decide ((k.mapChildren _).shape = k'.shape)
        && acceptAll ((k.mapChildren (fun c => (c, same c))).children.map Prod.snd) k'.children) = _
      rw [hchildren, Kind.shape_mapChildren]
    rw [hfold]
    simp only [Bool.and_eq_true, decide_eq_true_eq, acceptAll_same_iff ih]
    constructor
    · rintro ⟨⟨hid, hshape⟩, hchildren⟩
      rw [hid, Kind.eq_of_shape_of_children hshape hchildren]
    · rintro h
      cases h
      exact ⟨⟨rfl, rfl⟩, rfl⟩

instance : DecidableEq Expr := fun a b => decidable_of_iff _ (same_iff a b)

end Expr

end CelEdit
