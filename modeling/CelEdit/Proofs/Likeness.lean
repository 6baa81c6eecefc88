import CelEdit.Proofs.Positions
import CelEdit.Proofs.Shadows

/-!
# Likeness

Two trees are alike when their nodes agree in all but the ids, and the ids are related. A placeholder
and a comprehension count as the same: neither has a text of its own. A likeness may have holes, below
which nothing is said about the trees.
-/

namespace CelEdit

/-- A node of this kind can only be written as a macro call. -/
def Kind.IsBlank {α : Type} (k : Kind α) : Prop := k.tag = .notSet ∨ k.tag = .comprehension

lemma Kind.IsBlank.congr {α β : Type} {k : Kind α} {l : Kind β} (hk : k.IsBlank)
    (h : k.outline = l.outline) : l.IsBlank := by
  rw [IsBlank, ← tag_eq_of_outline_eq h]
  exact hk

lemma Kind.length_children_eq {α β : Type} {k : Kind α} {l : Kind β} (h : k.outline = l.outline) :
    k.children.length = l.children.length := by
  have hlength {γ : Type} (j : Kind γ) : j.outline.children.length = j.children.length := by
    simp [outline, shape]
  rw [← hlength k, h, hlength l]

namespace Expr

lemma outline_mapIds (f : NodeId → NodeId) (e : Expr) :
    (e.mapIds f).kind.outline = e.kind.outline := by
  obtain ⟨id, k⟩ := e
  rw [mapIds_mk, Kind.outline_mapEntryIds, Kind.outline_mapChildren]

lemma children_mapIds (f : NodeId → NodeId) (e : Expr) :
    (e.mapIds f).children = e.children.map (mapIds f) := by
  obtain ⟨id, k⟩ := e
  rw [mapIds_mk, children, Kind.children_mapEntryIds, Kind.children_mapChildren]
  rfl

lemma relabels_of_eraseIds {e e' : Expr} (h : e'.eraseIds = e.eraseIds) :
    Relabels (fun _ _ => True) e e' :=
  ⟨h, forall₂_of_getElem? (length_slots_eq h.symm) (fun _ _ _ _ _ => trivial)⟩

/-- The trees agree node by node, except below holes. -/
inductive Alike (R : NodeId → NodeId → Prop) (H : Expr → Expr → Prop) : Expr → Expr → Prop
  | hole {e e' : Expr} (here : H e e') : Alike R H e e'
  | blank {e e' : Expr} (ids : R e.id e'.id) (left : e.kind.IsBlank) (right : e'.kind.IsBlank) :
      Alike R H e e'
  | node {e e' : Expr} (ids : R e.id e'.id) (outline : e.kind.outline = e'.kind.outline)
      (children : List.Forall₂ (Alike R H) e.children e'.children) : Alike R H e e'

def NoHole (_ _ : Expr) : Prop := False

namespace Alike

variable {R R₁ R₂ : NodeId → NodeId → Prop} {H H₁ H₂ : Expr → Expr → Prop} {a b c e e' : Expr}

/-- A likeness remains one when more ids are related and the holes are filled. -/
theorem imp_of_mem (h : Alike R₁ H₁ e e')
    (hR : ∀ x ∈ e.preorder, ∀ y ∈ e'.preorder, R₁ x.id y.id → R x.id y.id)
    (hH : ∀ x ∈ e.preorder, ∀ y ∈ e'.preorder, H₁ x y → Alike R H x y) : Alike R H e e' := by
  induction e using induct generalizing e' with
  | node id k ih =>
    have hself := self_mem_preorder ⟨id, k⟩
    have hself' := self_mem_preorder e'
    cases h with
    | hole here => exact hH _ hself _ hself' here
    | blank ids left right => exact .blank (hR _ hself _ hself' ids) left right
    | node ids outline children =>
      refine .node (hR _ hself _ hself' ids) outline (forall₂_imp_of_mem children ?_)
      intro c hc c' hc' h
      have hbelow {a b x : Expr} (hb : b ∈ a.children) (hx : x ∈ b.preorder) : x ∈ a.preorder :=
        mem_preorder_trans hx (mem_preorder_of_mem_children hb)
      exact ih c hc h (fun x hx y hy => hR x (hbelow hc hx) y (hbelow hc' hy))
        (fun x hx y hy => hH x (hbelow hc hx) y (hbelow hc' hy))

lemma imp (h : Alike R₁ H₁ e e') (hR : ∀ i j, R₁ i j → R i j)
    (hH : ∀ x y, H₁ x y → Alike R H x y) : Alike R H e e' :=
  h.imp_of_mem (fun x _ y _ => hR x.id y.id) (fun x _ y _ => hH x y)

lemma refl_of_mem (h : ∀ x ∈ e.preorder, R x.id x.id) : Alike R H e e := by
  induction e using induct with
  | node id k ih =>
    refine .node (h _ (self_mem_preorder _)) rfl (List.forall₂_same.2 ?_)
    intro c hc
    exact ih c hc (fun x hx => h x (mem_preorder_mk.2 (.inr ⟨c, hc, hx⟩)))

lemma id_rel (h : Alike R NoHole e e') : R e.id e'.id := by
  cases h with
  | hole here => exact here.elim
  | blank ids => exact ids
  | node ids => exact ids

theorem symm (h : Alike R H e e') : Alike (fun i j => R j i) (fun x y => H y x) e' e := by
  induction e using induct generalizing e' with
  | node id k ih =>
    cases h with
    | hole here => exact .hole here
    | blank ids left right => exact .blank ids right left
    | node ids outline children =>
      refine .node ids outline.symm (List.Forall₂.flip ?_)
      exact forall₂_imp_of_mem children (fun c hc c' _ h => ih c hc h)

/-- Likenesses compose. What a hole of one composes to with the other is up to the holes. -/
theorem trans (h₁ : Alike R₁ H₁ a b) (h₂ : Alike R₂ H₂ b c) (hR : ∀ i j k, R₁ i j → R₂ j k → R i k)
    (hleft : ∀ x y z, H₁ x y → Alike R₂ H₂ y z → Alike R H x z)
    (hright : ∀ x y z, Alike R₁ H₁ x y → H₂ y z → Alike R H x z) : Alike R H a c := by
  induction a using induct generalizing b c with
  | node id k ih =>
    cases h₁ with
    | hole here => exact hleft _ _ _ here h₂
    | blank ids left right =>
      cases h₂ with
      | hole here => exact hright _ _ _ (.blank ids left right) here
      | blank ids' _ right' => exact .blank (hR _ _ _ ids ids') left right'
      | node ids' outline _ => exact .blank (hR _ _ _ ids ids') left (right.congr outline)
    | node ids outline children =>
      cases h₂ with
      | hole here => exact hright _ _ _ (.node ids outline children) here
      | blank ids' left' right' => exact .blank (hR _ _ _ ids ids') (left'.congr outline.symm) right'
      | node ids' outline' children' =>
        refine .node (hR _ _ _ ids ids') (outline.trans outline') ?_
        exact forall₂_trans children children' (fun c hc d d' h h' => ih c hc h h')

/-- Without holes only the relation of the ids matters. -/
lemma comp (h₁ : Alike R₁ NoHole a b) (h₂ : Alike R₂ NoHole b c)
    (hR : ∀ i j k, R₁ i j → R₂ j k → R i k) : Alike R H a c :=
  h₁.trans h₂ hR (fun _ _ _ here => here.elim) (fun _ _ _ _ here => here.elim)

/-- Ids that are equal may be put for each other, where the holes allow it. -/
lemma trans_eq (h : Alike R H a b) (h' : Alike Eq NoHole b c)
    (hhole : ∀ x y z, H x y → Alike Eq NoHole y z → H x z) : Alike R H a c :=
  h.trans h' (fun _ _ _ hij hjk => hjk ▸ hij) (fun x y z here h' => .hole (hhole x y z here h'))
    (fun _ _ _ _ here => here.elim)

lemma eq_trans (h' : Alike Eq NoHole a b) (h : Alike R H b c)
    (hhole : ∀ x y z, Alike Eq NoHole x y → H y z → H x z) : Alike R H a c :=
  h'.trans h (fun _ _ _ hij hjk => hij ▸ hjk) (fun _ _ _ here _ => here.elim)
    (fun x y z h' here => .hole (hhole x y z h' here))

/-- Likeness follows from a property of pairs of nodes that goes down to the children, except at
holes. -/
theorem of_invariant (P : Expr → Expr → Prop)
    (hP : ∀ n n', P n n' → H n n' ∨ R n.id n'.id ∧ n.kind.outline = n'.kind.outline ∧
      ∀ (i : Nat) c c', n.children[i]? = some c → n'.children[i]? = some c' → P c c')
    (h : P e e') : Alike R H e e' := by
  induction e using induct generalizing e' with
  | node id k ih =>
    rcases hP _ _ h with here | ⟨ids, outline, hbelow⟩
    · exact .hole here
    · refine .node ids outline (forall₂_of_getElem? (Kind.length_children_eq outline) ?_)
      intro i c c' hc hc'
      exact ih c (List.mem_of_getElem? hc) (hbelow i c c' hc hc')

/-- Trees of the same shape are alike. -/
lemma of_relabels (h : Relabels R e e') : Alike R H e e' := by
  induction e using induct generalizing e' with
  | node id k ih =>
    obtain ⟨id', k'⟩ := e'
    obtain ⟨hid, houtline, -, hchildren⟩ := relabels_mk_iff.1 h
    exact .node hid houtline.symm (forall₂_imp_of_mem hchildren (fun c hc c' _ h => ih c hc h))

lemma of_mapIds {f g : NodeId → NodeId} (h : Alike R₁ H₁ e e') (hR : ∀ i j, R₁ i j → R (f i) (g j))
    (hH : ∀ x y, H₁ x y → H (x.mapIds f) (y.mapIds g)) : Alike R H (e.mapIds f) (e'.mapIds g) := by
  induction e using induct generalizing e' with
  | node id k ih =>
    cases h with
    | hole here => exact .hole (hH _ _ here)
    | blank ids left right =>
      refine .blank ?_ (left.congr (outline_mapIds ..).symm) (right.congr (outline_mapIds ..).symm)
      rw [id_mapIds, id_mapIds]
      exact hR _ _ ids
    | node ids outline children =>
      refine .node ?_ ?_ ?_
      · rw [id_mapIds, id_mapIds]
        exact hR _ _ ids
      · rw [outline_mapIds, outline_mapIds]
        exact outline
      · rw [children_mapIds, children_mapIds, List.forall₂_map_left_iff, List.forall₂_map_right_iff]
        exact forall₂_imp_of_mem children (fun c hc c' _ h => ih c hc h)

end Alike

end Expr

namespace MacroCalls

open CelEdit.Expr

variable {R R₀ : NodeId → NodeId → Prop} {H H₀ : Expr → Expr → Prop} {e e' s root root' : Expr}

/-! ### Placeholders -/

/-- Collapsing leaves a tree as it is, or makes it a placeholder. -/
lemma collapse_cases (e : Expr) :
    e.kind.tag = .comprehension ∧ collapse e = ⟨e.id, .notSet⟩ ∨
      (collapse e).kind.outline = e.kind.outline ∧
        (collapse e).children = e.children.map collapse := by
  obtain ⟨id, k⟩ := e
  by_cases htag : k.tag = .comprehension
  · refine .inl ⟨htag, ?_⟩
    cases k with
    | comprehension c => exact collapse_comprehension id c
    | _ => cases htag
  · rw [collapse_of_tag_ne htag]
    exact .inr ⟨Kind.outline_mapChildren .., Kind.children_mapChildren ..⟩

lemma alike_collapse (hR : ∀ i, R i i) (e : Expr) : Alike R H e (collapse e) := by
  induction e using Expr.induct with
  | node id k ih =>
    have hid : R id (collapse ⟨id, k⟩).id := by
      rw [collapse_id]
      exact hR id
    rcases collapse_cases ⟨id, k⟩ with ⟨htag, hcollapse⟩ | ⟨houtline, hchildren⟩
    · refine .blank hid (.inr htag) (.inl ?_)
      rw [hcollapse]
      rfl
    · refine .node hid houtline.symm ?_
      rw [hchildren, List.forall₂_map_right_iff]
      exact List.forall₂_same.2 ih

/-- Trees with equal collapses are alike. -/
lemma alike_of_collapse_eq (h : collapse e = collapse e') : Alike Eq NoHole e e' := by
  have hleft : Alike Eq NoHole e (collapse e) := alike_collapse (fun _ => rfl) e
  have hright : Alike Eq NoHole e' (collapse e') := alike_collapse (fun _ => rfl) e'
  rw [h] at hleft
  exact hleft.comp (hright.symm.imp (fun _ _ h => h.symm) (fun _ _ here => here.elim))
    (fun _ _ _ h h' => h.trans h')

lemma alike_collapse_both (h : Alike R NoHole e e') :
    Alike R NoHole (collapse e) (collapse e') := by
  have hleft : Alike Eq NoHole e (collapse e) := alike_collapse (fun _ => rfl) e
  have hright : Alike Eq NoHole e' (collapse e') := alike_collapse (fun _ => rfl) e'
  have hback : Alike Eq NoHole (collapse e) e :=
    hleft.symm.imp (fun _ _ h => h.symm) (fun _ _ here => here.elim)
  exact (hback.eq_trans h (fun _ _ _ _ here => here.elim)).trans_eq hright
    (fun _ _ _ here => here.elim)

/-! ### Parts that name nodes -/

/-- A tree is like its refreshed copy with exchanged ids if each part is like the node that it comes to
name. -/
theorem alike_refresh {f : NodeId → NodeId}
    (h : ∀ x ∈ e.preorder, named? root (f x.id) = none ∧ R x.id (f x.id) ∨
      ∃ n, named? root (f x.id) = some n ∧ Alike R H x n) :
    Alike R H e (refresh root.nodesById (e.mapIds f)) := by
  induction e using Expr.induct with
  | node id k ih =>
    rw [mapIds_mk]
    rcases h _ (self_mem_preorder _) with ⟨hnone, hid⟩ | ⟨n, hn, halike⟩
    · rw [refresh_of_not_named hnone]
      refine .node hid (by simp) ?_
      rw [children, children, Kind.children_mapChildren, Kind.children_mapEntryIds,
        Kind.children_mapChildren, List.map_map, List.forall₂_map_right_iff, List.forall₂_same]
      intro c hc
      exact ih c hc (fun x hx => h x (mem_preorder_mk.2 (.inr ⟨c, hc, hx⟩)))
    · have hrefresh : refresh root.nodesById ⟨f id, (k.mapChildren (mapIds f)).mapEntryIds f⟩ = n :=
        refresh_of_named hn
      rw [hrefresh]
      exact halike

/-- Refreshing from two trees keeps a likeness if related ids name nodes that are alike, or none. At a
hole both have to name a node. -/
theorem alike_refresh_both (h : Alike R₀ H₀ e e')
    (hR : ∀ i j, R₀ i j → named? root i = none ∧ named? root' j = none ∧ R i j ∨
      ∃ n n', named? root i = some n ∧ named? root' j = some n' ∧ Alike R H n n')
    (hH : ∀ x y, H₀ x y →
      ∃ n n', named? root x.id = some n ∧ named? root' y.id = some n' ∧ Alike R H n n') :
    Alike R H (refresh root.nodesById e) (refresh root'.nodesById e') := by
  induction e using Expr.induct generalizing e' with
  | node id k ih =>
    have hnamed {n n' : Expr} (hn : named? root id = some n) (hn' : named? root' e'.id = some n')
        (halike : Alike R H n n') :
        Alike R H (refresh root.nodesById ⟨id, k⟩) (refresh root'.nodesById e') := by
      rw [refresh_of_named hn, refresh_of_named hn']
      exact halike
    obtain ⟨id', k'⟩ := e'
    cases h with
    | hole here =>
      obtain ⟨n, n', hn, hn', halike⟩ := hH _ _ here
      exact hnamed hn hn' halike
    | blank ids left right =>
      rcases hR _ _ ids with ⟨hnone, hnone', hid⟩ | ⟨n, n', hn, hn', halike⟩
      · rw [refresh_of_not_named hnone, refresh_of_not_named hnone']
        exact .blank hid (left.congr (Kind.outline_mapChildren ..).symm)
          (right.congr (Kind.outline_mapChildren ..).symm)
      · exact hnamed hn hn' halike
    | node ids outline children =>
      rcases hR _ _ ids with ⟨hnone, hnone', hid⟩ | ⟨n, n', hn, hn', halike⟩
      · rw [refresh_of_not_named hnone, refresh_of_not_named hnone']
        refine .node hid (by simpa using outline) ?_
        rw [Expr.children, Expr.children, Kind.children_mapChildren, Kind.children_mapChildren,
          List.forall₂_map_left_iff, List.forall₂_map_right_iff]
        exact forall₂_imp_of_mem children (fun c hc c' _ h => ih c hc h)
      · exact hnamed hn hn' halike

/-! ### Following a map step -/

/-- The call with other arguments after the first, if it has two. -/
def takeElements (shadow : Expr) (elements : List Expr) : Expr :=
  match shadow.kind with
  | .call ⟨target, function, [variable_, _]⟩ =>
    ⟨shadow.id, .call ⟨target, function, variable_ :: elements⟩⟩
  | _ => shadow

/-- The shadow is a call with two arguments. -/
def HasTwoArguments (e : Expr) : Prop :=
  ∃ target function first second, e.kind = .call ⟨target, function, [first, second]⟩

lemma takeElements_of_not {shadow : Expr} (h : ¬ HasTwoArguments shadow) (elements : List Expr) :
    takeElements shadow elements = shadow := by
  unfold takeElements
  split
  · next target function first second hkind => exact absurd ⟨target, function, first, second, hkind⟩ h
  · rfl

lemma takeElements_call (id : NodeId) (target : Option Expr) (function : String) (first second : Expr)
    (elements : List Expr) :
    takeElements ⟨id, .call ⟨target, function, [first, second]⟩⟩ elements =
      ⟨id, .call ⟨target, function, first :: elements⟩⟩ := rfl

lemma takeElements_id (shadow : Expr) (elements : List Expr) :
    (takeElements shadow elements).id = shadow.id := by
  unfold takeElements
  split <;> rfl

lemma followMapStep_of_some {shadow expanded : Expr} {replaced : NodeId} {elements : List Expr}
    (h : replacedStep? expanded replaced = some elements) :
    followMapStep shadow expanded replaced = takeElements shadow elements := by
  obtain ⟨id, k⟩ := shadow
  unfold followMapStep takeElements
  rw [h]
  cases k with
  | call c =>
    obtain ⟨target, function, args⟩ := c
    match args with
    | [] => rfl
    | [_] => rfl
    | [_, _] => rfl
    | _ :: _ :: _ :: _ => rfl
  | _ => rfl

lemma hasTwoArguments_congr (h : e.kind.outline = e'.kind.outline) (he : HasTwoArguments e) :
    HasTwoArguments e' := by
  obtain ⟨id, k⟩ := e
  obtain ⟨id', k'⟩ := e'
  obtain ⟨target, function, first, second, hkind⟩ := he
  obtain rfl : k = _ := hkind
  cases k' with
  | call c =>
    obtain ⟨target', function', args'⟩ := c
    have hcall := Kind.call.inj h
    have hargs : [first, second].length = args'.length := by
      have := congrArg (fun c : Call Unit => c.args.length) hcall
      simpa using this
    match args', hargs with
    | [first', second'], _ => exact ⟨target', function', first', second', rfl⟩
  | _ => cases h

lemma collapse_takeElements (e : Expr) (elements : List Expr) :
    collapse (takeElements e elements) = takeElements (collapse e) (elements.map collapse) := by
  by_cases htwo : HasTwoArguments e
  · obtain ⟨id, k⟩ := e
    obtain ⟨target, function, first, second, hkind⟩ := htwo
    obtain rfl : k = _ := hkind
    rw [takeElements_call, collapse_of_tag_ne KindTag.noConfusion,
      collapse_of_tag_ne KindTag.noConfusion]
    rfl
  · rw [takeElements_of_not htwo, takeElements_of_not]
    intro hcollapse
    rcases collapse_cases e with ⟨-, hcollapsed⟩ | ⟨houtline, -⟩
    · rw [hcollapsed] at hcollapse
      obtain ⟨_, _, _, _, hkind⟩ := hcollapse
      cases hkind
    · exact htwo (hasTwoArguments_congr houtline hcollapse)

lemma mapIds_takeElements (f : NodeId → NodeId) (e : Expr) (elements : List Expr) :
    (takeElements e elements).mapIds f = takeElements (e.mapIds f) (elements.map (mapIds f)) := by
  by_cases htwo : HasTwoArguments e
  · obtain ⟨id, k⟩ := e
    obtain ⟨target, function, first, second, hkind⟩ := htwo
    obtain rfl : k = _ := hkind
    rw [takeElements_call, mapIds_mk, mapIds_mk]
    rfl
  · rw [takeElements_of_not htwo, takeElements_of_not]
    exact fun h => htwo (hasTwoArguments_congr (outline_mapIds f e) h)

lemma refresh_takeElements (hnone : named? root e.id = none) (elements : List Expr) :
    refresh root.nodesById (takeElements e elements) =
      takeElements (refresh root.nodesById e) (elements.map (refresh root.nodesById)) := by
  obtain ⟨id, k⟩ := e
  rw [refresh_of_not_named hnone]
  by_cases htwo : HasTwoArguments ⟨id, k⟩
  · obtain ⟨target, function, first, second, hkind⟩ := htwo
    obtain rfl : k = _ := hkind
    rw [takeElements_call, refresh_of_not_named hnone]
    rfl
  · rw [takeElements_of_not htwo, takeElements_of_not, refresh_of_not_named hnone]
    exact fun h => htwo (hasTwoArguments_congr (Kind.outline_mapChildren ..) h)

/-- Likeness is kept when both trees take in elements that are alike, unless there is a hole at the
root. -/
lemma alike_takeElements {elements elements' : List Expr} (h : Alike R H e e') (hroot : ¬ H e e')
    (helements : HasTwoArguments e → List.Forall₂ (Alike R H) elements elements') :
    Alike R H (takeElements e elements) (takeElements e' elements') := by
  cases h with
  | hole here => exact absurd here hroot
  | blank ids left right =>
    have hnot {e : Expr} (hblank : e.kind.IsBlank) : ¬ HasTwoArguments e := by
      rintro ⟨_, _, _, _, hkind⟩
      rw [hkind] at hblank
      rcases hblank with htag | htag <;> cases htag
    rw [takeElements_of_not (hnot left), takeElements_of_not (hnot right)]
    exact .blank ids left right
  | node ids outline children =>
    by_cases htwo : HasTwoArguments e
    · have hpairs := helements htwo
      obtain ⟨target', function', first', second', hkind'⟩ := hasTwoArguments_congr outline htwo
      obtain ⟨target, function, first, second, hkind⟩ := htwo
      obtain ⟨id, k⟩ := e
      obtain ⟨id', k'⟩ := e'
      obtain rfl : k = _ := hkind
      obtain rfl : k' = _ := hkind'
      rw [takeElements_call, takeElements_call]
      obtain ⟨htargets, hfunction, -⟩ := Call.mk.inj (Kind.call.inj outline)
      have hlength : target.toList.length = target'.toList.length := by
        cases target <;> cases target' <;> cases htargets <;> rfl
      obtain ⟨htarget, hargs⟩ := (forall₂_append_iff hlength).1 children
      refine .node ids ?_ (List.rel_append htarget (.cons ?_ hpairs))
      · have hunits : (first :: elements).map (fun _ => ()) = (first' :: elements').map (fun _ => ()) := by
          rw [List.map_const', List.map_const', List.length_cons, List.length_cons, hpairs.length_eq]
        exact congrArg Kind.call (Call.mk.injEq .. ▸ ⟨htargets, hfunction, hunits⟩)
      · exact (List.forall₂_cons.1 hargs).1
    · have htwo' : ¬ HasTwoArguments e' := fun h => htwo (hasTwoArguments_congr outline.symm h)
      rw [takeElements_of_not htwo, takeElements_of_not htwo']
      exact .node ids outline children

end MacroCalls

end CelEdit
