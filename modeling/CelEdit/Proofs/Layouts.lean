import CelEdit.Proofs.Renderings

/-!
# Layouts

The text of a node is fixed text with the texts of its children in between. A layout lists these
pieces in the order in which they are written. It takes nothing but the node itself to lay it out, so
whatever is wrong with the node is found before any of its children is written.
-/

namespace CelEdit.Unparse

/-- A part of the text of a node. -/
inductive Piece where
  | text (chars : List Char)
  | node (e : Expr)
  | operand (limit : Nat) (e : Expr)

/-- The node that a piece stands for. -/
def Piece.node? : Piece → Option Expr
  | .text _ => none
  | .node e => some e
  | .operand _ e => some e

def Piece.write (isMacro : NodeId → Bool) (render : Expr → Rendering) : Piece → Rendering
  | .text chars => pure chars
  | .node e => render e
  | .operand limit e => Unparse.operand isMacro limit (e, fun _ => render e)

/-- The text of pieces in a row. -/
def writeAll (isMacro : NodeId → Bool) (render : Expr → Rendering) : List Piece → Rendering
  | [] => pure []
  | p :: ps => do
    let text ← p.write isMacro render
    let rest ← writeAll isMacro render ps
    pure (text ++ rest)

def separated (items : List (List Piece)) : List Piece := [.text [',', ' ']].intercalate items

def callLayout (function : String) (args : List Expr) : List Piece :=
  .text function.toList :: .text ['('] :: separated (args.map (fun e => [.node e])) ++ [.text [')']]

/-- A field that is a plain name is written without quotes. -/
def fieldPiece (e : Expr) : Piece :=
  match fieldName? e.kind with
  | some name => .text name.toList
  | none => .node e

def operatorLayout (function : String) (op : Operator) (args : List Expr) :
    Except UnparseError (List Piece) :=
  match op, args with
  | .conditional, [condition, yes, no] => pure [.operand 7 condition, .text " ? ".toList,
      .operand 8 yes, .text " : ".toList, .operand 8 no]
  | .binary symbol level, [left, right] => pure [.operand level left, .text [' '],
      .text symbol.toList, .text [' '], .operand (level - 1) right]
  | .unary sign, [arg] => pure [.text [sign], .operand 2 arg]
  | .index, [arg, position] => pure [.operand 1 arg, .text ['['], .node position, .text [']']]
  | .optionalIndex, [arg, position] =>
    pure [.operand 1 arg, .text ['[', '?'], .node position, .text [']']]
  | .optionalSelect, [arg, field] => pure [.operand 1 arg, .text ['.', '?'], fieldPiece field]
  | op, args => .error (.operatorArity function op.arity args.length)

/-- The pieces of a node that is not written as a macro call. -/
def layout (id : NodeId) : Kind Expr → Except UnparseError (List Piece)
  | .notSet => .error (.unsetExpr id)
  | .constant c => pure [.text c.source]
  | .ident i => pure [.text i.name.toList]
  | .select s =>
    let selected := [.operand 1 s.operand, .text ['.'], .text s.field.toList]
    pure (if s.testOnly then .text "has(".toList :: selected ++ [.text [')']] else selected)
  | .call ⟨some target, function, args⟩ =>
    pure (.operand 1 target :: .text ['.'] :: callLayout function args)
  | .call ⟨none, function, args⟩ =>
    match Operator.ofFunction? function with
    | some op => operatorLayout function op args
    | none => pure (callLayout function args)
  | .list l =>
    let items := l.elements.mapIdx fun i e =>
      [.text (optionalMark (l.optionalIndices.contains i)), .node e]
    pure (.text ['['] :: separated items ++ [.text [']']])
  | .struct s =>
    let items := s.entries.map fun e => [.text (optionalMark e.optionalEntry),
      .text e.fieldKey.toList, .text [':', ' '], .node e.value]
    pure (.text s.messageName.toList :: .text ['\x7b'] :: separated items ++ [.text ['\x7d']])
  | .map m =>
    let items := m.entries.map fun e =>
      [.text (optionalMark e.optionalEntry), .node e.key, .text [':', ' '], .node e.value]
    pure (.text ['\x7b'] :: separated items ++ [.text ['\x7d']])
  | .comprehension _ => .error (.missingMacroCall id)

section Writing

variable (isMacro : NodeId → Bool) (render : Expr → Rendering)

@[simp] lemma writeAll_nil : writeAll isMacro render [] = pure [] := rfl

@[simp] lemma writeAll_text (chars : List Char) (ps : List Piece) :
    writeAll isMacro render (.text chars :: ps) = (do
      let rest ← writeAll isMacro render ps
      pure (chars ++ rest)) := rfl

@[simp] lemma writeAll_node (e : Expr) (ps : List Piece) :
    writeAll isMacro render (.node e :: ps) = (do
      let text ← render e
      let rest ← writeAll isMacro render ps
      pure (text ++ rest)) := rfl

@[simp] lemma writeAll_operand (limit : Nat) (e : Expr) (ps : List Piece) :
    writeAll isMacro render (.operand limit e :: ps) = (do
      let text ← operand isMacro limit (e, fun _ => render e)
      let rest ← writeAll isMacro render ps
      pure (text ++ rest)) := rfl

lemma writeAll_append (ps qs : List Piece) :
    writeAll isMacro render (ps ++ qs) = (do
      let text ← writeAll isMacro render ps
      let rest ← writeAll isMacro render qs
      pure (text ++ rest)) := by
  induction ps with
  | nil => simp only [List.nil_append, writeAll_nil, pure_bind, bind_pure]
  | cons p ps ih =>
    simp only [List.cons_append, writeAll, ih, bind_assoc, pure_bind, List.append_assoc]

lemma separated_cons_cons (item next : List Piece) (items : List (List Piece)) :
    separated (item :: next :: items) = item ++ .text [',', ' '] :: separated (next :: items) := by
  simp [separated]

/-- Items in a row are written one by one, with commas between them. -/
lemma writeAll_separated (items : List (List Piece)) :
    writeAll isMacro render (separated items) = (do
      let texts ← items.mapM (writeAll isMacro render)
      pure (commaSeparated texts)) := by
  induction items with
  | nil => rfl
  | cons item items ih =>
    cases items with
    | nil =>
      simp only [separated, commaSeparated, List.intercalate_singleton, List.mapM_cons, List.mapM_nil,
        bind_assoc, pure_bind, bind_pure]
    | cons next items =>
      rw [separated_cons_cons, writeAll_append, writeAll_text, ih]
      simp only [List.mapM_cons, bind_assoc, pure_bind, commaSeparated, List.intercalate_cons_cons,
        List.append_assoc]

lemma writeAll_call (function : String) (args : List Expr) :
    writeAll isMacro render (callLayout function args) =
      callText function (args.map (fun e => (e, fun _ => render e))) := by
  have hitem : (writeAll isMacro render ∘ fun e => [.node e]) = render := by
    funext e
    simp only [Function.comp_apply, writeAll_node, writeAll_nil, pure_bind, List.append_nil,
      bind_pure]
  have htext : (Child.text ∘ fun e => (e, fun _ => render e)) = render := rfl
  simp only [callLayout, callText, List.cons_append, writeAll_text, writeAll_append,
    writeAll_separated, writeAll_nil, List.mapM_map, hitem, htext, bind_assoc, pure_bind,
    List.nil_append, List.append_assoc]

lemma writeAll_field (e : Expr) :
    writeAll isMacro render [fieldPiece e] = fieldText (e, fun _ => render e) := by
  unfold fieldPiece fieldText
  cases fieldName? e.kind with
  | some name => simp only [writeAll_text, writeAll_nil, pure_bind, List.append_nil]
  | none =>
    simp only [writeAll_node, writeAll_nil, pure_bind, List.append_nil, bind_pure]
    rfl

end Writing

section Arity

variable {function : String} {op : Operator}

lemma operatorText_of_arity_ne {isMacro : NodeId → Bool} {args : List Child}
    (h : args.length ≠ op.arity) :
    operatorText isMacro function op args =
      .error (.operatorArity function op.arity args.length) := by
  unfold operatorText
  split
  case h_7 => rfl
  all_goals exact absurd rfl h

lemma operatorLayout_of_arity_ne {args : List Expr} (h : args.length ≠ op.arity) :
    operatorLayout function op args = .error (.operatorArity function op.arity args.length) := by
  unfold operatorLayout
  split
  case h_7 => rfl
  all_goals exact absurd rfl h

lemma operatorLayout_of_arity_eq {args : List Expr} (h : args.length = op.arity) :
    ∃ ps, operatorLayout function op args = .ok ps := by
  cases op with
  | conditional =>
    obtain ⟨condition, yes, no, rfl⟩ := List.length_eq_three.1 h
    exact ⟨_, rfl⟩
  | unary sign =>
    obtain ⟨arg, rfl⟩ := List.length_eq_one_iff.1 h
    exact ⟨_, rfl⟩
  | _ =>
    obtain ⟨left, right, rfl⟩ := List.length_eq_two.1 h
    exact ⟨_, rfl⟩

end Arity

section Node

variable (isMacro : NodeId → Bool) (render : Expr → Rendering)

lemma operatorText_eq_layout (function : String) (op : Operator) (args : List Expr) :
    operatorText isMacro function op (args.map (fun e => (e, fun _ => render e))) =
      operatorLayout function op args >>= writeAll isMacro render := by
  by_cases harity : args.length = op.arity
  · cases op with
    | conditional =>
      obtain ⟨condition, yes, no, rfl⟩ := List.length_eq_three.1 harity
      simp [operatorText, operatorLayout]
    | binary symbol level =>
      obtain ⟨left, right, rfl⟩ := List.length_eq_two.1 harity
      simp [operatorText, operatorLayout]
    | unary sign =>
      obtain ⟨arg, rfl⟩ := List.length_eq_one_iff.1 harity
      simp [operatorText, operatorLayout]
    | index =>
      obtain ⟨arg, position, rfl⟩ := List.length_eq_two.1 harity
      simp [operatorText, operatorLayout, Child.text]
    | optionalIndex =>
      obtain ⟨arg, position, rfl⟩ := List.length_eq_two.1 harity
      simp [operatorText, operatorLayout, Child.text]
    | optionalSelect =>
      obtain ⟨arg, field, rfl⟩ := List.length_eq_two.1 harity
      simp [operatorText_optionalSelect, operatorLayout, writeAll_field]
  · rw [operatorText_of_arity_ne (by rwa [List.length_map]), operatorLayout_of_arity_ne harity,
      List.length_map]
    rfl

lemma mapM_marked {f : Nat → List Char} {es : List Expr} :
    (es.mapIdx (fun i e => [Piece.text (f i), .node e])).mapM (writeAll isMacro render) = (do
      let texts ← es.mapM render
      pure (texts.mapIdx (fun i text => f i ++ text))) := by
  induction es generalizing f with
  | nil => rfl
  | cons e es ih =>
    simp only [List.mapIdx_cons, List.mapM_cons, ih, writeAll_text, writeAll_node, writeAll_nil,
      bind_assoc, pure_bind, List.append_nil]

/-- The text of a node is that of its layout. -/
theorem nodeText_eq_layout (id : NodeId) (k : Kind Expr) :
    nodeText isMacro id (k.mapChildren (fun e => (e, fun _ => render e))) =
      layout id k >>= writeAll isMacro render := by
  cases k with
  | notSet => rfl
  | constant c => simp [Kind.mapChildren, nodeText, layout]
  | ident i => simp [Kind.mapChildren, nodeText, layout]
  | select s =>
    obtain ⟨operand, field, testOnly⟩ := s
    cases testOnly <;> simp [Kind.mapChildren, nodeText, layout]
  | call c =>
    obtain ⟨target, function, args⟩ := c
    cases target with
    | some target => simp [Kind.mapChildren, nodeText, layout, writeAll_call]
    | none =>
      change nodeText isMacro id
        (.call ⟨none, function, args.map (fun e => (e, fun _ => render e))⟩) = _
      cases hop : Operator.ofFunction? function with
      | some op =>
        rw [nodeText_operator hop, operatorText_eq_layout]
        simp only [layout, hop]
      | none =>
        rw [nodeText_function hop, ← writeAll_call isMacro]
        simp only [layout, hop, pure_bind]
  | list l =>
    simp [Kind.mapChildren, nodeText, layout, writeAll_append, writeAll_separated, mapM_marked,
      Child.text, Function.comp_def]
  | struct s =>
    simp [Kind.mapChildren, nodeText, layout, writeAll_append, writeAll_separated, Child.text,
      Function.comp_def]
  | map m =>
    simp [Kind.mapChildren, nodeText, layout, writeAll_append, writeAll_separated, Child.text,
      Function.comp_def]
  | comprehension c => rfl

end Node

/-! ### The nodes of a layout -/

/-- The nodes that pieces in a row stand for. -/
def nodes (ps : List Piece) : List Expr := ps.filterMap Piece.node?

@[simp] lemma nodes_nil : nodes [] = [] := rfl

@[simp] lemma nodes_text (chars : List Char) (ps : List Piece) :
    nodes (.text chars :: ps) = nodes ps := rfl

@[simp] lemma nodes_node (e : Expr) (ps : List Piece) : nodes (.node e :: ps) = e :: nodes ps := rfl

@[simp] lemma nodes_operand (limit : Nat) (e : Expr) (ps : List Piece) :
    nodes (.operand limit e :: ps) = e :: nodes ps := rfl

@[simp] lemma nodes_append (ps qs : List Piece) : nodes (ps ++ qs) = nodes ps ++ nodes qs :=
  List.filterMap_append

@[simp] lemma nodes_separated (items : List (List Piece)) :
    nodes (separated items) = items.flatMap nodes := by
  induction items with
  | nil => rfl
  | cons item items ih =>
    cases items with
    | nil => simp [separated]
    | cons next items =>
      rw [separated_cons_cons, nodes_append, nodes_text, ih]
      rfl

@[simp] lemma nodes_call (function : String) (args : List Expr) :
    nodes (callLayout function args) = args := by
  simp [callLayout, List.flatMap_map]

lemma nodes_marked (f : Nat → List Char) (es : List Expr) :
    (es.mapIdx (fun i e => [Piece.text (f i), .node e])).flatMap nodes = es := by
  induction es generalizing f with
  | nil => rfl
  | cons e es ih => simp [List.mapIdx_cons, ih]

lemma nodes_operatorLayout {function : String} {op : Operator} {args : List Expr} {ps : List Piece}
    (h : operatorLayout function op args = .ok ps) :
    ∃ raw, args = nodes ps ++ raw ∧ ∀ e ∈ raw, (fieldName? e.kind).isSome := by
  unfold operatorLayout at h
  split at h
  case h_6 arg field =>
    obtain rfl := Except.ok.inj h
    simp only [nodes_operand, nodes_text, fieldPiece]
    cases hname : fieldName? field.kind with
    | some name =>
      refine ⟨[field], rfl, fun e he => ?_⟩
      rw [List.mem_singleton.1 he, hname]
      rfl
    | none => exact ⟨[], rfl, fun _ he => absurd he List.not_mem_nil⟩
  case h_7 => cases h
  all_goals
    obtain rfl := Except.ok.inj h
    exact ⟨[], rfl, fun _ he => absurd he List.not_mem_nil⟩

/-- A layout has the children of its node in their order. Only a last one whose name is written out
can be missing. -/
theorem nodes_layout {id : NodeId} {k : Kind Expr} {ps : List Piece} (h : layout id k = .ok ps) :
    ∃ raw, k.children = nodes ps ++ raw ∧ ∀ e ∈ raw, (fieldName? e.kind).isSome := by
  have hall {qs : List Piece} (hps : pure qs = (Except.ok ps : Except UnparseError _))
      (hqs : nodes qs = k.children) :
      ∃ raw, k.children = nodes ps ++ raw ∧ ∀ e ∈ raw, (fieldName? e.kind).isSome := by
    obtain rfl := Except.ok.inj hps
    exact ⟨[], by rw [hqs, List.append_nil], fun _ he => absurd he List.not_mem_nil⟩
  cases k with
  | notSet => cases h
  | constant c => exact hall h rfl
  | ident i => exact hall h rfl
  | select s =>
    obtain ⟨operand, field, testOnly⟩ := s
    cases testOnly <;> exact hall h rfl
  | call c =>
    obtain ⟨target, function, args⟩ := c
    cases target with
    | some target => exact hall h (by simp [Kind.children])
    | none =>
      cases hop : Operator.ofFunction? function with
      | some op =>
        simp only [layout, hop] at h
        exact nodes_operatorLayout h
      | none =>
        simp only [layout, hop] at h
        exact hall h (by simp [Kind.children])
  | list l => exact hall h (by simp [Kind.children, nodes_marked])
  | struct s => exact hall h (by simp [Kind.children, List.flatMap_map, ← List.map_eq_flatMap])
  | map m => exact hall h (by simp [Kind.children, List.flatMap_map])
  | comprehension c => cases h

end CelEdit.Unparse
