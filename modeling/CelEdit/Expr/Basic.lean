import CelEdit.Expr.Kind

/-!
# Expressions

A node has an id and a kind over its children; where a tree remembers more about its nodes, a label
with the id in it stands for the id. `Expr.fold` is the one recursion over trees: it gives an algebra
the id of a node and its kind, with every child next to the result for it. `fold_eq` is its equation
and `Expr.induct` the matching induction.
-/

namespace CelEdit

/-- An expression tree, by default one that is labelled with ids only. -/
structure Expr (ι : Type := NodeId) where
  id : ι
  kind : Kind (Expr ι)

namespace Expr

variable {ι κ β : Type}

mutual

/-- Computes bottom up: the algebra sees each child together with its result. -/
def fold (alg : ι → Kind (Expr ι × β) → β) : Expr ι → β
  | ⟨id, kind⟩ => alg id (foldKind alg kind)

def foldKind (alg : ι → Kind (Expr ι × β) → β) : Kind (Expr ι) → Kind (Expr ι × β)
  | .notSet => .notSet
  | .constant c => .constant c
  | .ident i => .ident i
  | .select ⟨operand, field, testOnly⟩ => .select ⟨(operand, fold alg operand), field, testOnly⟩
  | .call ⟨target, function, args⟩ => .call ⟨foldOption alg target, function, foldList alg args⟩
  | .list ⟨elements, optional⟩ => .list ⟨foldList alg elements, optional⟩
  | .struct ⟨name, entries⟩ => .struct ⟨name, foldStruct alg entries⟩
  | .map ⟨entries⟩ => .map ⟨foldMap alg entries⟩
  | .comprehension ⟨iterVar, iterRange, accuVar, accuInit, loopCondition, loopStep, result⟩ =>
    .comprehension ⟨iterVar, (iterRange, fold alg iterRange), accuVar, (accuInit, fold alg accuInit),
      (loopCondition, fold alg loopCondition), (loopStep, fold alg loopStep),
      (result, fold alg result)⟩

def foldOption (alg : ι → Kind (Expr ι × β) → β) : Option (Expr ι) → Option (Expr ι × β)
  | none => none
  | some e => some (e, fold alg e)

def foldList (alg : ι → Kind (Expr ι × β) → β) : List (Expr ι) → List (Expr ι × β)
  | [] => []
  | e :: es => (e, fold alg e) :: foldList alg es

def foldStruct (alg : ι → Kind (Expr ι × β) → β) :
    List (StructEntry (Expr ι)) → List (StructEntry (Expr ι × β))
  | [] => []
  | ⟨id, key, value, optional⟩ :: es =>
    ⟨id, key, (value, fold alg value), optional⟩ :: foldStruct alg es

def foldMap (alg : ι → Kind (Expr ι × β) → β) :
    List (MapEntry (Expr ι)) → List (MapEntry (Expr ι × β))
  | [] => []
  | ⟨id, key, value, optional⟩ :: es =>
    ⟨id, (key, fold alg key), (value, fold alg value), optional⟩ :: foldMap alg es

end

section FoldEquation

variable (alg : ι → Kind (Expr ι × β) → β)

theorem foldOption_eq (e : Option (Expr ι)) : foldOption alg e = e.map (fun c => (c, fold alg c)) := by
  cases e <;> rfl

theorem foldList_eq (es : List (Expr ι)) : foldList alg es = es.map (fun c => (c, fold alg c)) := by
  induction es with
  | nil => rfl
  | cons e es ih => simp only [foldList, List.map_cons, ih]

theorem foldStruct_eq (es : List (StructEntry (Expr ι))) :
    foldStruct alg es =
      es.map (fun e => ⟨e.id, e.fieldKey, (e.value, fold alg e.value), e.optionalEntry⟩) := by
  induction es with
  | nil => rfl
  | cons e es ih => simp only [foldStruct, List.map_cons, ih]

theorem foldMap_eq (es : List (MapEntry (Expr ι))) :
    foldMap alg es =
      es.map (fun e => ⟨e.id, (e.key, fold alg e.key), (e.value, fold alg e.value), e.optionalEntry⟩) := by
  induction es with
  | nil => rfl
  | cons e es ih => simp only [foldMap, List.map_cons, ih]

theorem foldKind_eq (k : Kind (Expr ι)) : foldKind alg k = k.mapChildren (fun c => (c, fold alg c)) := by
  cases k <;>
    simp only [foldKind, Kind.mapChildren, foldOption_eq, foldList_eq, foldStruct_eq, foldMap_eq]

/-- The equation of the recursion over trees. -/
theorem fold_eq (id : ι) (k : Kind (Expr ι)) :
    fold alg ⟨id, k⟩ = alg id (k.mapChildren (fun c => (c, fold alg c))) := by
  rw [fold, foldKind_eq]

end FoldEquation

theorem sizeOf_lt_of_mem_children {id : ι} {k : Kind (Expr ι)} {c : Expr ι} (h : c ∈ k.children) :
    sizeOf c < sizeOf (Expr.mk id k) := by
  cases k with
  | notSet => simp [Kind.children] at h
  | constant => simp [Kind.children] at h
  | ident => simp [Kind.children] at h
  | select s =>
    cases s
    simp only [Kind.children, List.mem_singleton] at h
    subst h
    simp
    omega
  | call call =>
    obtain ⟨target, function, args⟩ := call
    simp only [Kind.children, List.mem_append, Option.mem_toList] at h
    rcases h with rfl | h
    · simp
      omega
    · have := List.sizeOf_lt_of_mem h
      simp
      omega
  | list l =>
    cases l
    have := List.sizeOf_lt_of_mem h
    simp [Kind.children] at *
    omega
  | struct s =>
    obtain ⟨name, entries⟩ := s
    obtain ⟨entry, hmem, rfl⟩ := List.mem_map.1 h
    have := List.sizeOf_lt_of_mem hmem
    cases entry
    simp at *
    omega
  | map literal =>
    obtain ⟨entries⟩ := literal
    obtain ⟨entry, hmem, hc⟩ := List.mem_flatMap.1 h
    have := List.sizeOf_lt_of_mem hmem
    cases entry
    simp at *
    rcases hc with rfl | rfl <;> omega
  | comprehension c =>
    cases c
    simp only [Kind.children, List.mem_cons, List.not_mem_nil, or_false] at h
    simp
    rcases h with rfl | rfl | rfl | rfl | rfl <;> omega

/-- Induction over trees: a property that passes from all children to their node holds everywhere. -/
theorem induct {P : Expr ι → Prop}
    (node : ∀ id k, (∀ c ∈ Kind.children k, P c) → P ⟨id, k⟩) : (e : Expr ι) → P e
  | ⟨id, k⟩ => node id k (fun c _ => induct node c)
termination_by e => sizeOf e
decreasing_by
  rename_i h
  exact sizeOf_lt_of_mem_children h

/-- The tree with other labels on its nodes. -/
def relabel (f : ι → κ) : Expr ι → Expr κ := fold fun id k => ⟨f id, k.mapChildren Prod.snd⟩

/-- The direct children, in order. -/
def children (e : Expr ι) : List (Expr ι) := e.kind.children

/-- The ids of the struct or map entries of this node. -/
def entryIds (e : Expr ι) : List NodeId := e.kind.entryIds

end Expr

end CelEdit
