import CelEdit.Proofs.Layouts
import CelEdit.Proofs.Tables
import CelEdit.Proofs.Walks

/-!
# What rendering fails on

Without macro calls a tree has no concrete syntax exactly when one of its nodes is at fault by itself.
Children are written in the order of the walk and after their node was found to be in order, so the
error is that of the first such node on the walk, also where children are written from several places
of the layout or not at all.
-/

namespace CelEdit

/-- The computation ends in the given error, or in a result where there is none. -/
def EndsIn {ε α : Type} (err? : Option ε) (x : Except ε α) : Prop :=
  match err? with
  | some err => x = .error err
  | none => ∃ a, x = .ok a

namespace EndsIn

variable {ε α β : Type} {x : Except ε α} {err? err'? : Option ε}

lemma pure (a : α) : EndsIn none (Pure.pure a : Except ε α) := ⟨a, rfl⟩

lemma bind {f : α → Except ε β} (h : EndsIn err? x) (hf : ∀ a, EndsIn err'? (f a)) :
    EndsIn (err?.or err'?) (x >>= f) := by
  cases err? with
  | some err =>
    obtain rfl : x = .error err := h
    exact rfl
  | none =>
    obtain ⟨a, rfl⟩ := h
    exact hf a

/-- What follows without failing does not change how a computation ends. -/
lemma bind_pure {f : α → β} (h : EndsIn err? x) : EndsIn err? (x >>= fun a => Pure.pure (f a)) := by
  have hbind := h.bind (f := fun a => Pure.pure (f a)) (fun a => pure (f a))
  rwa [Option.or_none] at hbind

lemma isOk_iff (h : EndsIn err? x) : (∃ a, x = .ok a) ↔ err? = none := by
  cases err? with
  | some err =>
    obtain rfl : x = .error err := h
    simp
  | none => exact iff_of_true h rfl

lemma eq_error_iff (h : EndsIn err? x) {err : ε} : x = .error err ↔ err? = some err := by
  cases err? with
  | some err' =>
    obtain rfl : x = .error err' := h
    simp
  | none =>
    obtain ⟨a, rfl⟩ := h
    simp

end EndsIn

namespace Expr

/-- What is wrong with a node by itself: it is not set, it is a comprehension, or it is an operator
with a wrong number of operands. -/
def offence? (e : Expr) : Option UnparseError :=
  match e.kind with
  | .notSet => some (.unsetExpr e.id)
  | .comprehension _ => some (.missingMacroCall e.id)
  | .call ⟨none, function, args⟩ =>
    match Operator.ofFunction? function with
    | some op =>
      if args.length = op.arity then none
      else some (.operatorArity function op.arity args.length)
    | none => none
  | _ => none

/-- The first offence in pre-order. -/
def firstOffence? (e : Expr) : Option UnparseError := e.preorder.findSome? offence?

lemma firstOffence?_mk (id : NodeId) (k : Kind Expr) :
    firstOffence? ⟨id, k⟩ = (offence? ⟨id, k⟩).or (k.children.findSome? firstOffence?) := by
  rw [firstOffence?, preorder_mk, findSome?_cons_or, findSome?_flatMap]
  rfl

/-- A name that is written out is not at fault. -/
lemma firstOffence?_of_fieldName {e : Expr} (h : (Unparse.fieldName? e.kind).isSome) :
    e.firstOffence? = none := by
  obtain ⟨id, k⟩ := e
  rw [firstOffence?_mk]
  cases k with
  | constant c => rfl
  | _ => cases h

end Expr

namespace Unparse

open CelEdit.Expr

/-- A node can be laid out unless it is at fault. -/
lemma endsIn_layout (id : NodeId) (k : Kind Expr) : EndsIn (offence? ⟨id, k⟩) (layout id k) := by
  cases k with
  | notSet => exact rfl
  | comprehension c => exact rfl
  | call c =>
    obtain ⟨target, function, args⟩ := c
    cases target with
    | some target => exact .pure _
    | none =>
      cases hop : Operator.ofFunction? function with
      | some op =>
        simp only [offence?, layout, hop]
        split
        · next harity => exact operatorLayout_of_arity_eq harity
        · next harity => exact operatorLayout_of_arity_ne harity
      | none =>
        simp only [offence?, layout, hop]
        exact .pure _
  | _ => exact .pure _

lemma endsIn_operand {isMacro : NodeId → Bool} {limit : Nat} {c : Child} {err? : Option UnparseError}
    (h : EndsIn err? c.text) : EndsIn err? (operand isMacro limit c) := by
  have hbind : EndsIn (err?.or none) (operand isMacro limit c) := by
    apply h.bind
    intro text
    split <;> exact .pure _
  rwa [Option.or_none] at hbind

/-- Pieces in a row fail like the first node among them that does. -/
lemma endsIn_writeAll {isMacro : NodeId → Bool} {render : Expr → Rendering}
    {fault? : Expr → Option UnparseError} {ps : List Piece}
    (h : ∀ e ∈ nodes ps, EndsIn (fault? e) (render e)) :
    EndsIn ((nodes ps).findSome? fault?) (writeAll isMacro render ps) := by
  induction ps with
  | nil => exact .pure _
  | cons p ps ih =>
    cases p with
    | text chars => exact (ih h).bind_pure
    | node e =>
      have hrest := ih fun c hc => h c (List.mem_cons_of_mem _ hc)
      rw [nodes_node, findSome?_cons_or]
      exact (h e List.mem_cons_self).bind fun text => hrest.bind_pure
    | operand limit e =>
      have hrest := ih fun c hc => h c (List.mem_cons_of_mem _ hc)
      have htext : EndsIn (fault? e) (Child.text (e, fun _ => render e)) := h e List.mem_cons_self
      rw [nodes_operand, findSome?_cons_or]
      exact (endsIn_operand htext).bind fun text => hrest.bind_pure

lemma macroCall?_empty (expanding : List NodeId) (id : NodeId) :
    macroCall? .empty expanding id = none := by
  unfold macroCall?
  split <;> rfl

/-- Without macro calls a tree is written unless a node is at fault, and the first one decides. -/
theorem endsIn_render (e : Expr) : EndsIn e.firstOffence? (render .empty [] e) := by
  induction e using induct with
  | node id k ih =>
    rw [render_mk, macroCall?_empty, firstOffence?_mk]
    dsimp only
    rw [nodeText_eq_layout]
    have hlayout := endsIn_layout id k
    cases hoffence : offence? ⟨id, k⟩ with
    | some err =>
      rw [hoffence] at hlayout
      have herror : layout id k = .error err := hlayout
      rw [herror]
      exact rfl
    | none =>
      rw [hoffence] at hlayout
      obtain ⟨ps, hps⟩ := hlayout
      obtain ⟨raw, hchildren, hraw⟩ := nodes_layout hps
      have hnone : raw.findSome? firstOffence? = none :=
        List.findSome?_eq_none_iff.2 fun c hc => firstOffence?_of_fieldName (hraw c hc)
      rw [hchildren, List.findSome?_append, hnone, Option.or_none, hps]
      exact endsIn_writeAll fun c hc => ih c (hchildren ▸ List.mem_append_left raw hc)

end Unparse

/-- Without macro calls a tree has a concrete syntax exactly when no node of it is at fault by itself,
and otherwise the error is that of the first such node on the walk. -/
theorem Expr.unparse_fails_on_first_offence (e : Expr) :
    ((∃ text, e.unparse .empty = .ok text) ↔
      ∀ v ∈ (Visit.root e).preorder, v.expr.offence? = none) ∧
    ∀ err, e.unparse .empty = .error err ↔
      (Visit.root e).preorder.findSome? (fun v => v.expr.offence?) = some err := by
  have hnodes : (Visit.root e).preorder.map Visit.expr = e.preorder := Visit.map_expr_preorder _
  have hfirst : (Visit.root e).preorder.findSome? (fun v => v.expr.offence?) = e.firstOffence? := by
    rw [firstOffence?, ← hnodes, List.findSome?_map]
    rfl
  have hends : EndsIn e.firstOffence? (e.unparse .empty) :=
    (Unparse.endsIn_render e).bind_pure (f := String.ofList)
  rw [hfirst]
  refine ⟨?_, fun err => hends.eq_error_iff⟩
  rw [hends.isOk_iff, ← hfirst, List.findSome?_eq_none_iff]

end CelEdit
