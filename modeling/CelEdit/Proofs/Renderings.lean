import CelEdit.Proofs.Likeness

/-!
# Renderings of trees that are alike

A tree is written by jumping between nodes and macro calls. If related ids stand for macro calls that
are alike, trees that are alike are written alike: one rendering follows the other through all
expansions.
-/

namespace CelEdit

/-- Where `x` succeeds `y` does too, with the same result if this is asked for. -/
def Follows {ε α : Type} (same : Prop) (x y : Except ε α) : Prop :=
  ∀ a, x = .ok a → ∃ b, y = .ok b ∧ (same → b = a)

namespace Follows

variable {ε α β γ : Type} {same : Prop}

lemma pure {a b : α} (h : same → b = a) : Follows same (Pure.pure a : Except ε α) (Pure.pure b) := by
  intro a' ha'
  obtain rfl := Except.ok.inj ha'
  exact ⟨b, rfl, h⟩

lemma error {e : ε} {y : Except ε α} : Follows same (.error e) y := fun _ h => nomatch h

lemma bind {x y : Except ε α} {f g : α → Except ε β} (h : Follows same x y)
    (hfg : ∀ a b, (same → b = a) → Follows same (f a) (g b)) : Follows same (x >>= f) (y >>= g) := by
  intro c hc
  obtain ⟨a, ha, hfa⟩ := (except_bind_eq_ok ..).1 hc
  obtain ⟨b, hb, hsame⟩ := h a ha
  obtain ⟨d, hd, hsame'⟩ := hfg a b hsame c hfa
  exact ⟨d, (except_bind_eq_ok ..).2 ⟨b, hb, hd⟩, hsame'⟩

lemma mapM {f : α → Except ε γ} {g : β → Except ε γ} {δ : Type} {u : δ → α} {v : δ → β} {ds : List δ}
    (h : ∀ d ∈ ds, Follows same (f (u d)) (g (v d))) :
    Follows same ((ds.map u).mapM f) ((ds.map v).mapM g) := by
  induction ds with
  | nil => exact pure (fun _ => rfl)
  | cons d ds ih =>
    rw [List.map_cons, List.map_cons, List.mapM_cons, List.mapM_cons]
    refine (h d List.mem_cons_self).bind fun a b hab => ?_
    refine (ih (fun d hd => h d (List.mem_cons_of_mem _ hd))).bind fun as bs habs => ?_
    exact pure (fun hsame => by rw [hab hsame, habs hsame])

end Follows

namespace Unparse

open CelEdit.Expr MacroCalls

/-- The name that a node stands for as a field. -/
def fieldName? {α : Type} : Kind α → Option String
  | .constant (.string name) => some name
  | _ => none

/-- The text of a child as a field. -/
def fieldText (c : Child) : Rendering :=
  match fieldName? c.1.kind with
  | some name => pure name.toList
  | none => c.text

lemma operatorText_optionalSelect (isMacro : NodeId → Bool) (function : String) (arg field : Child) :
    operatorText isMacro function .optionalSelect [arg, field] = (do
      let arg ← operand isMacro 1 arg
      let field ← fieldText field
      pure (arg ++ '.' :: '?' :: field)) := by
  obtain ⟨⟨id, k⟩, text⟩ := field
  cases k with
  | constant c => cases c <;> rfl
  | _ => rfl

lemma fieldName?_congr {α β : Type} {k : Kind α} {l : Kind β} (h : k.outline = l.outline) :
    fieldName? k = fieldName? l := by
  have houtline {γ : Type} (k : Kind γ) : fieldName? k.outline = fieldName? k := by
    cases k with
    | constant c => cases c <;> rfl
    | _ => rfl
  rw [← houtline k, h, houtline]

lemma fieldName?_of_isBlank {α : Type} {k : Kind α} (h : k.IsBlank) : fieldName? k = none := by
  cases k with
  | constant c => rcases h with h | h <;> cases h
  | _ => rfl

/-- Wherever the first child is used, the second can be used as well. -/
structure Child.Follows (same : Prop) (isMacro isMacro' : NodeId → Bool) (c c' : Child) : Prop where
  text : CelEdit.Follows same c.text c'.text
  field : CelEdit.Follows same (fieldText c) (fieldText c')
  parentheses : same → ∀ limit,
    (!isMacro c.1.id && looserThan limit c.1) = (!isMacro' c'.1.id && looserThan limit c'.1)

section Node

variable {same : Prop} {isMacro isMacro' : NodeId → Bool} {c c' : Child} {id id' : NodeId}

lemma Child.Follows.operand (h : c.Follows same isMacro isMacro' c') (limit : Nat) :
    CelEdit.Follows same (Unparse.operand isMacro limit c) (Unparse.operand isMacro' limit c') := by
  refine h.text.bind fun a b hab => ?_
  intro t ht
  have hok : ∃ t', (if !isMacro' c'.1.id && looserThan limit c'.1 then Pure.pure ('(' :: b ++ [')'])
      else Pure.pure b : Rendering) = .ok t' := by
    split
    · exact ⟨_, rfl⟩
    · exact ⟨_, rfl⟩
  obtain ⟨t', ht'⟩ := hok
  refine ⟨t', ht', fun hsame => ?_⟩
  rw [h.parentheses hsame limit, ← hab hsame, ht'] at ht
  exact Except.ok.inj ht

lemma callText_follows {cs : List (Child × Child)}
    (h : ∀ c ∈ cs, c.1.Follows same isMacro isMacro' c.2) (function : String) :
    Follows same (callText function (cs.map Prod.fst)) (callText function (cs.map Prod.snd)) := by
  refine (Follows.mapM fun c hc => (h c hc).text).bind fun a b hab => ?_
  exact .pure (fun hsame => by rw [hab hsame])

lemma operatorText_follows {cs : List (Child × Child)}
    (h : ∀ c ∈ cs, c.1.Follows same isMacro isMacro' c.2) (function : String) (op : Operator) :
    Follows same (operatorText isMacro function op (cs.map Prod.fst))
      (operatorText isMacro' function op (cs.map Prod.snd)) := by
  -- with a wrong number of operands there is nothing to follow
  cases op with
  | conditional =>
    match cs, h with
    | [condition, yes, no], h =>
      refine ((h condition (by simp)).operand 7).bind fun a b hab => ?_
      refine ((h yes (by simp)).operand 8).bind fun a' b' hab' => ?_
      refine ((h no (by simp)).operand 8).bind fun a'' b'' hab'' => ?_
      exact .pure (fun hsame => by rw [hab hsame, hab' hsame, hab'' hsame])
    | [], _ | [_], _ | [_, _], _ | _ :: _ :: _ :: _ :: _, _ => exact .error
  | binary symbol level =>
    match cs, h with
    | [left, right], h =>
      refine ((h left (by simp)).operand level).bind fun a b hab => ?_
      refine ((h right (by simp)).operand (level - 1)).bind fun a' b' hab' => ?_
      exact .pure (fun hsame => by rw [hab hsame, hab' hsame])
    | [], _ | [_], _ | _ :: _ :: _ :: _, _ => exact .error
  | unary sign =>
    match cs, h with
    | [arg], h =>
      refine ((h arg (by simp)).operand 2).bind fun a b hab => ?_
      exact .pure (fun hsame => by rw [hab hsame])
    | [], _ | _ :: _ :: _, _ => exact .error
  | index =>
    match cs, h with
    | [arg, position], h =>
      refine ((h arg (by simp)).operand 1).bind fun a b hab => ?_
      refine (h position (by simp)).text.bind fun a' b' hab' => ?_
      exact .pure (fun hsame => by rw [hab hsame, hab' hsame])
    | [], _ | [_], _ | _ :: _ :: _ :: _, _ => exact .error
  | optionalIndex =>
    match cs, h with
    | [arg, position], h =>
      refine ((h arg (by simp)).operand 1).bind fun a b hab => ?_
      refine (h position (by simp)).text.bind fun a' b' hab' => ?_
      exact .pure (fun hsame => by rw [hab hsame, hab' hsame])
    | [], _ | [_], _ | _ :: _ :: _ :: _, _ => exact .error
  | optionalSelect =>
    match cs, h with
    | [arg, field], h =>
      simp only [List.map_cons, List.map_nil, operatorText_optionalSelect]
      refine ((h arg (by simp)).operand 1).bind fun a b hab => ?_
      refine (h field (by simp)).field.bind fun a' b' hab' => ?_
      exact .pure (fun hsame => by rw [hab hsame, hab' hsame])
    | [], _ | [_], _ | _ :: _ :: _ :: _, _ => exact .error

lemma nodeText_operator {function : String} {op : Operator} (h : Operator.ofFunction? function = some op)
    (cs : List Child) :
    nodeText isMacro id (.call ⟨none, function, cs⟩) = operatorText isMacro function op cs := by
  simp only [nodeText, h]

lemma nodeText_function {function : String} (h : Operator.ofFunction? function = none)
    (cs : List Child) : nodeText isMacro id (.call ⟨none, function, cs⟩) = callText function cs := by
  simp only [nodeText, h]

/-- What the children can be used for, their parent can. -/
theorem nodeText_follows {k : Kind (Child × Child)}
    (h : ∀ c ∈ k.children, c.1.Follows same isMacro isMacro' c.2) :
    Follows same (nodeText isMacro id (k.mapChildren Prod.fst))
      (nodeText isMacro' id' (k.mapChildren Prod.snd)) := by
  cases k with
  | notSet => exact .error
  | constant c => exact .pure (fun _ => rfl)
  | ident i => exact .pure (fun _ => rfl)
  | select s =>
    refine ((h s.operand (by simp [Kind.children])).operand 1).bind fun a b hab => ?_
    exact .pure (fun hsame => by rw [hab hsame])
  | call c =>
    obtain ⟨target, function, args⟩ := c
    cases target with
    | some target =>
      refine ((h target (by simp [Kind.children])).operand 1).bind fun a b hab => ?_
      refine (callText_follows (fun c hc => h c (by simp [Kind.children, hc])) function).bind
        fun a' b' hab' => ?_
      exact .pure (fun hsame => by rw [hab hsame, hab' hsame])
    | none =>
      have hargs : ∀ c ∈ args, c.1.Follows same isMacro isMacro' c.2 :=
        fun c hc => h c (by simp [Kind.children, hc])
      change Follows same (nodeText isMacro id (.call ⟨none, function, args.map Prod.fst⟩))
        (nodeText isMacro' id' (.call ⟨none, function, args.map Prod.snd⟩))
      cases hop : Operator.ofFunction? function with
      | some op =>
        rw [nodeText_operator hop, nodeText_operator hop]
        exact operatorText_follows hargs function op
      | none =>
        rw [nodeText_function hop, nodeText_function hop]
        exact callText_follows hargs function
  | list l =>
    refine (Follows.mapM fun c hc => (h c hc).text).bind fun a b hab => ?_
    exact .pure (fun hsame => by rw [hab hsame])
  | struct s =>
    refine (Follows.mapM fun e he => ?_).bind fun a b hab => ?_
    · have hvalue := h e.value (List.mem_map_of_mem he)
      refine hvalue.text.bind fun a b hab => ?_
      exact .pure (fun hsame => by rw [hab hsame])
    · exact .pure (fun hsame => by rw [hab hsame])
  | map m =>
    refine (Follows.mapM fun e he => ?_).bind fun a b hab => ?_
    · have hkey := h e.key (List.mem_flatMap.2 ⟨e, he, by simp⟩)
      have hvalue := h e.value (List.mem_flatMap.2 ⟨e, he, by simp⟩)
      refine hkey.text.bind fun a b hab => ?_
      refine hvalue.text.bind fun a' b' hab' => ?_
      exact .pure (fun hsame => by rw [hab hsame, hab' hsame])
    · exact .pure (fun hsame => by rw [hab hsame])
  | comprehension c => exact .error

lemma nodeText_mapEntryIds (f : NodeId → NodeId) (k : Kind Child) :
    nodeText isMacro id (k.mapEntryIds f) = nodeText isMacro id k := by
  cases k with
  | struct s =>
    rw [Kind.mapEntryIds_struct]
    simp only [nodeText, List.mapM_map]
    rfl
  | map m =>
    rw [Kind.mapEntryIds_map]
    simp only [nodeText, List.mapM_map]
    rfl
  | _ => rfl

/-- The text of a node is made from its outline and its children. -/
theorem nodeText_follows_of_outline {k k' : Kind Child} (houtline : k.outline = k'.outline)
    (h : List.Forall₂ (Child.Follows same isMacro isMacro') k.children k'.children) :
    Follows same (nodeText isMacro id k) (nodeText isMacro' id' k') := by
  -- one kind with pairs of children stands for both
  let pairs := ((k.mapEntryIds (fun _ => .unset)).mapChildren (fun c => (c, c))).withChildren
    (k.children.zip k'.children)
  have hlength := h.length_eq
  have hshape : pairs.shape = k.outline := by
    rw [Kind.shape_withChildren, Kind.shape_mapChildren, Kind.shape_mapEntryIds]
    rfl
  have hchildren : pairs.children = k.children.zip k'.children := by
    apply Kind.children_withChildren
    simp [hlength]
  have hleft : k.mapEntryIds (fun _ => .unset) = pairs.mapChildren Prod.fst := by
    apply Kind.eq_of_shape_of_children
    · rw [Kind.shape_mapChildren, hshape, Kind.shape_mapEntryIds]
      rfl
    · rw [Kind.children_mapEntryIds, Kind.children_mapChildren, hchildren, List.map_fst_zip]
      exact Nat.le_of_eq hlength
  have hright : k'.mapEntryIds (fun _ => .unset) = pairs.mapChildren Prod.snd := by
    apply Kind.eq_of_shape_of_children
    · rw [Kind.shape_mapChildren, hshape, houtline, Kind.shape_mapEntryIds]
      rfl
    · rw [Kind.children_mapEntryIds, Kind.children_mapChildren, hchildren, List.map_snd_zip]
      exact Nat.le_of_eq hlength.symm
  rw [← nodeText_mapEntryIds (fun _ => .unset) k, ← nodeText_mapEntryIds (fun _ => .unset) k', hleft,
    hright]
  apply nodeText_follows
  rw [hchildren]
  exact fun c hc => (List.forall₂_iff_zip.1 h).2 hc

lemma nodeText_of_isBlank {k : Kind Child} (h : k.IsBlank) :
    ∃ err, nodeText isMacro id k = .error err := by
  cases k with
  | notSet => exact ⟨_, rfl⟩
  | comprehension c => exact ⟨_, rfl⟩
  | _ => rcases h with h | h <;> cases h

lemma looserThan_of_isBlank {e : Expr} (h : e.kind.IsBlank) (limit : Nat) :
    looserThan limit e = false := by
  obtain ⟨id, k⟩ := e
  cases k with
  | call c => rcases h with h | h <;> cases h
  | _ => rfl

lemma looserThan_congr {e e' : Expr} (h : e.kind.outline = e'.kind.outline) (limit : Nat) :
    looserThan limit e = looserThan limit e' := by
  obtain ⟨id, k⟩ := e
  obtain ⟨id', k'⟩ := e'
  cases k with
  | call c =>
    cases k' with
    | call c' =>
      obtain ⟨target, function, args⟩ := c
      obtain ⟨target', function', args'⟩ := c'
      obtain ⟨htarget, rfl, -⟩ := Call.mk.inj (Kind.call.inj h)
      cases target <;> cases target' <;> first | rfl | cases htarget
    | _ => cases h
  | _ => cases k' <;> first | rfl | cases h

end Node

/-! ### Through the macro calls -/

lemma render_mk (calls : IdMap Expr) (expanding : List NodeId) (id : NodeId) (k : Kind Expr) :
    render calls expanding ⟨id, k⟩ =
      match macroCall? calls expanding id with
      | some call => render calls (id :: expanding) call
      | none => nodeText (fun i => (macroCall? calls expanding i).isSome) id
          (k.mapChildren (fun c => (c, fun _ => render calls expanding c))) := by
  let write : NodeId → Kind Child → Unit → Rendering := fun id k _ =>
    match macroCall? calls expanding id with
    | some call => render calls (id :: expanding) call
    | none => nodeText (fun i => (macroCall? calls expanding i).isSome) id k
  have hfold (e : Expr) : render calls expanding e = fold write e () := by
    rw [render]
    refine congrFun (congrArg (fun alg => fold alg e) (?_ : _ = write)) ()
    funext id k _
    dsimp only [write]
    split <;> simp only [*]
  have hchild : (fun c => (c, fun (_ : Unit) => render calls expanding c)) =
      fun c => (c, fold write c) :=
    funext fun c => congrArg (Prod.mk c) (funext fun _ => hfold c)
  rw [hfold, fold_eq, hchild]

/-- What makes the renderings with one table follow those with another. As long as the lists of
expanding keys are linked, related ids stand for macro calls that are alike, or for none; and what
stands at a hole follows on its own. -/
structure Simulation (same : Prop) (calls calls' : IdMap Expr) where
  Related : NodeId → NodeId → Prop
  Hole : Expr → Expr → Prop
  Linked : List NodeId → List NodeId → Prop
  step : ∀ {E E' : List NodeId} {i j : NodeId}, Linked E E' → Related i j →
    macroCall? calls E i = none ∧ macroCall? calls' E' j = none ∨
      ∃ call call', macroCall? calls E i = some call ∧ macroCall? calls' E' j = some call' ∧
        Alike Related Hole call call' ∧ Linked (i :: E) (j :: E')
  hole : ∀ {E E' : List NodeId} {e e' : Expr}, Linked E E' → Hole e e' →
    ¬ same ∧ ∃ text, render calls' E' e' = .ok text

namespace Simulation

variable {same : Prop} {calls calls' : IdMap Expr} {E E' : List NodeId} {e e' : Expr}

lemma isSome_eq (S : Simulation same calls calls') (hE : S.Linked E E') {i j : NodeId}
    (h : S.Related i j) :
    (macroCall? calls E i).isSome = (macroCall? calls' E' j).isSome := by
  rcases S.step hE h with ⟨hnone, hnone'⟩ | ⟨_, _, hsome, hsome', -⟩
  · rw [hnone, hnone']
  · rw [hsome, hsome']
    rfl

/-- A child that is like another one can be used where it is, once its text follows. -/
lemma child_follows (S : Simulation same calls calls') (hE : S.Linked E E')
    (halike : Alike S.Related S.Hole e e')
    (htext : Follows same (render calls E e) (render calls' E' e')) :
    Child.Follows same (fun i => (macroCall? calls E i).isSome)
      (fun i => (macroCall? calls' E' i).isSome) (e, fun _ => render calls E e)
      (e', fun _ => render calls' E' e') := by
  refine ⟨htext, ?_, ?_⟩
  · unfold fieldText
    cases halike with
    | hole here =>
      obtain ⟨hnot, text, hok⟩ := S.hole hE here
      intro a _
      cases fieldName? e'.kind with
      | some name => exact ⟨name.toList, rfl, fun hsame => absurd hsame hnot⟩
      | none => exact ⟨text, hok, fun hsame => absurd hsame hnot⟩
    | blank ids left right =>
      simp only [fieldName?_of_isBlank left, fieldName?_of_isBlank right]
      exact htext
    | node ids outline children =>
      simp only [fieldName?_congr outline]
      cases fieldName? e'.kind with
      | some name => exact .pure (fun _ => rfl)
      | none => exact htext
  · intro hsame limit
    cases halike with
    | hole here => exact absurd hsame (S.hole hE here).1
    | blank ids left right =>
      simp only [looserThan_of_isBlank left, looserThan_of_isBlank right, Bool.and_false]
    | node ids outline children =>
      simp only [looserThan_congr outline, S.isSome_eq hE ids]

/-- The rendering with the first table is followed through all expansions. -/
theorem follows (S : Simulation same calls calls') (hE : S.Linked E E')
    (halike : Alike S.Related S.Hole e e') :
    Follows same (render calls E e) (render calls' E' e') := by
  -- on the keys that can still be expanded, and for fixed keys on the tree
  induction hn : (pendingKeys calls E).length using Nat.strongRecOn generalizing E E' e e' with
  | _ n ihn =>
    induction e using Expr.induct generalizing e' with
    | node id k ih =>
      obtain ⟨id', k'⟩ := e'
      have hexpand (ids : S.Related id id')
          (hnode : Follows same
            (nodeText (fun i => (macroCall? calls E i).isSome) id
              (k.mapChildren (fun c => (c, fun _ => render calls E c))))
            (nodeText (fun i => (macroCall? calls' E' i).isSome) id'
              (k'.mapChildren (fun c => (c, fun _ => render calls' E' c))))) :
          Follows same (render calls E ⟨id, k⟩) (render calls' E' ⟨id', k'⟩) := by
        rw [render_mk, render_mk]
        rcases S.step hE ids with ⟨hnone, hnone'⟩ | ⟨call, call', hcall, hcall', halike, hE'⟩
        · rw [hnone, hnone']
          exact hnode
        · rw [hcall, hcall']
          have hlt := pendingKeys_lt hcall
          exact ihn _ (hn ▸ hlt) hE' halike rfl
      cases halike with
      | hole here =>
        obtain ⟨hnot, text, hok⟩ := S.hole hE here
        exact fun _ _ => ⟨text, hok, fun hsame => absurd hsame hnot⟩
      | blank ids left right =>
        refine hexpand ids ?_
        obtain ⟨err, herr⟩ := nodeText_of_isBlank
          (left.congr (Kind.outline_mapChildren (fun c => (c, fun _ => render calls E c)) k).symm)
        rw [herr]
        exact .error
      | node ids outline children =>
        refine hexpand ids (nodeText_follows_of_outline (by simpa using outline) ?_)
        rw [Kind.children_mapChildren, Kind.children_mapChildren, List.forall₂_map_left_iff,
          List.forall₂_map_right_iff]
        exact forall₂_imp_of_mem children (fun c hc c' _ h => S.child_follows hE h (ih c hc h))

end Simulation

end Unparse

end CelEdit
