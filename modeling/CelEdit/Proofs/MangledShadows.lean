import CelEdit.Proofs.Mirrors

/-!
# Shadows after mangling

Mangling derives the shadows from the renamed tree and then renames the variable that a macro call
declares by its first argument. Where the root of a shadow and this argument stand for no node of
the tree, the two steps commute. So every shadow mirrors the renamed tree, and what it has of its
own stays as it is, up to the declared variable.
-/

namespace CelEdit

open Runs CelEdit.Expr

/-- The place of the first argument of a call. -/
def Kind.firstArgument? {α : Type} : Kind α → Option Position
  | .call ⟨target, _, _ :: _⟩ => some [target.toList.length]
  | _ => none

lemma Kind.firstArgument?_mapChildren {α β : Type} (f : α → β) (k : Kind α) :
    (k.mapChildren f).firstArgument? = k.firstArgument? := by
  cases k with
  | call c =>
    obtain ⟨target, function, args⟩ := c
    cases target <;> cases args <;> rfl
  | _ => rfl

lemma Kind.firstArgument?_eq_some {α : Type} {k : Kind α} {q : Position} :
    k.firstArgument? = some q ↔ ∃ target function first rest,
      k = .call ⟨target, function, first :: rest⟩ ∧ q = [target.toList.length] := by
  constructor
  · intro h
    unfold firstArgument? at h
    split at h
    · next target function first rest =>
      exact ⟨target, function, first, rest, rfl, (Option.some.inj h).symm⟩
    · cases h
  · rintro ⟨target, function, first, rest, rfl, rfl⟩
    rfl

namespace MacroCalls

/-- The shadow with the parts that name nodes copied from the tree, and with comprehensions
collapsed. -/
def reflect (root s : Expr) : Expr := collapse (refresh root.nodesById s)

/-- No part of the shadow is a comprehension, and parts that carry the id of a node are that node,
collapsed. -/
def Shows (root s : Expr) : Prop :=
  ∀ x ∈ s.preorder, x.kind.tag ≠ .comprehension ∧
    ∀ n ∈ root.preorder, x.id.isSet → x.id = n.id → x = collapse n

/-- Neither the root of the shadow nor the first argument of its call carries the id of a node. -/
def HeadApart (root s : Expr) : Prop :=
  ∀ q ∈ [] :: s.kind.firstArgument?.toList, ∀ x ∈ s.at? q, x.id ∉ root.nodeIds

/-- No node above the position is a comprehension or carries the id of a node of the tree. -/
def Exposed (root s : Expr) (q : Position) : Prop :=
  ∀ r, r <+: q → r ≠ q → ∀ x, s.at? r = some x →
    x.kind.tag ≠ .comprehension ∧ x.id ∉ root.nodeIds

variable {root s x n : Expr} {id : NodeId} {k : Kind Expr}

lemma named?_eq_none_of_not_mem (h : id ∉ root.nodeIds) : named? root id = none :=
  named?_eq_none_iff.2 fun n hn _ hid => h (mem_nodeIds.2 ⟨n, hn, hid.symm⟩)

lemma reflect_id (root s : Expr) : (reflect root s).id = s.id := by
  rw [reflect, collapse_id, refresh_id]

lemma reflect_of_named (h : named? root s.id = some n) : reflect root s = collapse n := by
  rw [reflect, refresh_of_named h]

lemma reflect_comprehension (h : named? root id = none) (c : Comprehension Expr) :
    reflect root ⟨id, .comprehension c⟩ = ⟨id, .notSet⟩ := by
  rw [reflect, refresh_of_not_named h]
  exact collapse_comprehension id _

lemma reflect_of_not_named (h : named? root id = none) (htag : k.tag ≠ .comprehension) :
    reflect root ⟨id, k⟩ = ⟨id, k.mapChildren (reflect root)⟩ := by
  rw [reflect, refresh_of_not_named h, collapse_of_tag_ne (by rwa [Kind.tag_mapChildren]),
    Kind.mapChildren_mapChildren]
  rfl

lemma shows_reflect (hroot : root.DistinctIds) (s : Expr) : Shows root (reflect root s) :=
  fun _ hx => (mirrors_refresh hroot s).collapse hx

/-- A shadow that shows the tree is its own reflection. -/
theorem Shows.reflect_eq (h : Shows root s) : reflect root s = s := by
  induction s using Expr.induct with
  | node id k ih =>
    obtain ⟨htag, hself⟩ := h _ (self_mem_preorder _)
    cases hnamed : named? root id with
    | some n =>
      have hset : id.isSet := by
        by_contra hunset
        rw [named?, if_neg hunset] at hnamed
        cases hnamed
      obtain ⟨hn, hid⟩ := mem_of_named? hnamed
      have hreflect : reflect root ⟨id, k⟩ = collapse n := reflect_of_named hnamed
      rw [hreflect, hself n hn hset hid.symm]
    | none =>
      have hchildren : k.mapChildren (reflect root) = k.mapChildren (fun c => c) :=
        Kind.mapChildren_congr fun c hc =>
          ih c hc fun x hx => h x (mem_preorder_mk.2 (.inr ⟨c, hc, hx⟩))
      rw [reflect_of_not_named hnamed htag, hchildren, Kind.mapChildren_id]

/-! ### Places in a reflection -/

lemma shape_collapse (e : Expr) :
    (collapse e).kind.shape = if e.kind.tag = .comprehension then .notSet else e.kind.shape := by
  obtain ⟨id, k⟩ := e
  by_cases htag : k.tag = .comprehension
  · cases k with
    | comprehension c =>
      rw [collapse_comprehension]
      rfl
    | _ => cases htag
  · rw [if_neg htag, collapse_of_tag_ne htag, Kind.shape_mapChildren]

lemma shape_reflect (h : named? root x.id = none) :
    (reflect root x).kind.shape = (collapse x).kind.shape := by
  obtain ⟨id, k⟩ := x
  rw [reflect, refresh_of_not_named h, shape_collapse, shape_collapse, Kind.tag_mapChildren,
    Kind.shape_mapChildren]

lemma reflect_ident (h : named? root id = none) (a : Ident) :
    reflect root ⟨id, .ident a⟩ = ⟨id, .ident a⟩ :=
  reflect_of_not_named h KindTag.noConfusion

lemma firstArgument?_reflect (h : named? root s.id = none) :
    (reflect root s).kind.firstArgument? = s.kind.firstArgument? := by
  obtain ⟨id, k⟩ := s
  by_cases htag : k.tag = .comprehension
  · cases k with
    | comprehension c =>
      rw [reflect_comprehension h]
      rfl
    | _ => cases htag
  · rw [reflect_of_not_named h htag, Kind.firstArgument?_mapChildren]

lemma eq_ident_of_reflect {a : Ident} (h : named? root x.id = none)
    (hx : reflect root x = ⟨id, .ident a⟩) : x = ⟨id, .ident a⟩ := by
  obtain ⟨i, k⟩ := x
  by_cases htag : k.tag = .comprehension
  · cases k with
    | comprehension c =>
      rw [reflect_comprehension h] at hx
      cases hx
    | _ => cases htag
  · rw [reflect_of_not_named h htag] at hx
    cases k with
    | ident b => exact hx
    | _ => cases hx

lemma Exposed.of_cons {i : Nat} {q : Position} {c : Expr} (h : Exposed root s (i :: q))
    (hc : s.children[i]? = some c) :
    s.kind.tag ≠ .comprehension ∧ s.id ∉ root.nodeIds ∧ Exposed root c q := by
  obtain ⟨htag, hid⟩ := h [] List.nil_prefix (List.cons_ne_nil i q).symm s rfl
  refine ⟨htag, hid, ?_⟩
  intro r hr hne x hx
  exact h (i :: r) (List.cons_prefix_cons.2 ⟨rfl, hr⟩) (fun h => hne (List.cons.inj h).2) x
    (at?_cons_eq_some.2 ⟨c, hc, hx⟩)

lemma exposed_firstArgument {q : Position} (hq : s.kind.firstArgument? = some q)
    (hid : s.id ∉ root.nodeIds) : Exposed root s q := by
  obtain ⟨target, function, first, rest, hkind, rfl⟩ := Kind.firstArgument?_eq_some.1 hq
  intro p hp hne x hx
  rcases List.prefix_cons_iff.1 hp with rfl | ⟨u, rfl, hu⟩
  · obtain rfl : s = x := Option.some.inj hx
    rw [hkind]
    exact ⟨KindTag.noConfusion, hid⟩
  · rw [List.prefix_nil.1 hu] at hne
    exact absurd rfl hne

/-- What stands at an exposed place is reflected there. -/
theorem at?_reflect {q : Position} (h : Exposed root s q) (hx : s.at? q = some x) :
    (reflect root s).at? q = some (reflect root x) := by
  induction q generalizing s with
  | nil =>
    cases hx
    rfl
  | cons i q ih =>
    obtain ⟨c, hc, hbelow⟩ := at?_cons_eq_some.1 hx
    obtain ⟨htag, hid, hexposed⟩ := h.of_cons hc
    obtain ⟨id, k⟩ := s
    rw [reflect_of_not_named (named?_eq_none_of_not_mem hid) htag]
    refine at?_cons_eq_some.2 ⟨reflect root c, ?_, ih hexposed hbelow⟩
    have hchild : k.children[i]? = some c := hc
    rw [children, Kind.children_mapChildren, List.getElem?_map, hchild, Option.map_some]

end MacroCalls

/-! ### The declared variable -/

namespace Mangle

open MacroCalls

variable {root s x : Expr} {r : VariableRenaming} {q : Position} {i : NodeId} {a : Ident}

/-- The name that a declared variable gets by a record. -/
def newName (r : VariableRenaming) (name : String) : String :=
  if name = r.oldAccuVar then r.newAccuVar
  else if name = r.oldIterVar then r.newIterVar
  else name

lemma renameVariable_call {id : NodeId} {target : Option Expr} {function : String}
    {rest : List Expr} :
    renameVariable r ⟨id, .call ⟨target, function, ⟨i, .ident a⟩ :: rest⟩⟩ =
      ⟨id, .call ⟨target, function, ⟨i, .ident ⟨newName r a.name⟩⟩ :: rest⟩⟩ := rfl

lemma at?_firstArgument {id : NodeId} {target : Option Expr} {function : String} {first : Expr}
    {rest : List Expr} :
    (Expr.mk id (.call ⟨target, function, first :: rest⟩)).at? [target.toList.length] =
      some first := by
  simp [at?_cons, children, Kind.children]

lemma exists_at_firstArgument (hq : s.kind.firstArgument? = some q) : ∃ x, s.at? q = some x := by
  obtain ⟨id, k⟩ := s
  obtain ⟨target, function, first, rest, rfl, rfl⟩ := Kind.firstArgument?_eq_some.1 hq
  exact ⟨first, at?_firstArgument⟩

lemma exists_call_of_declared (hq : s.kind.firstArgument? = some q)
    (ha : s.at? q = some ⟨i, .ident a⟩) :
    ∃ id target function rest, s = ⟨id, .call ⟨target, function, ⟨i, .ident a⟩ :: rest⟩⟩ := by
  obtain ⟨id, k⟩ := s
  obtain ⟨target, function, first, rest, rfl, rfl⟩ := Kind.firstArgument?_eq_some.1 hq
  rw [at?_firstArgument, Option.some.injEq] at ha
  exact ⟨id, target, function, rest, by rw [ha]⟩

lemma renameVariable_eq_setAt (hq : s.kind.firstArgument? = some q)
    (ha : s.at? q = some ⟨i, .ident a⟩) :
    renameVariable r s = setAt ⟨i, .ident ⟨newName r a.name⟩⟩ q s := by
  obtain ⟨id, target, function, rest, rfl⟩ := exists_call_of_declared hq ha
  obtain rfl : [target.toList.length] = q := Option.some.inj hq
  refine congrArg (Expr.mk id) (Kind.eq_of_shape_of_children ?_ ?_)
  · rw [Kind.shape_withChildren]
    rfl
  · have hsplit : (Kind.call ⟨target, function, ⟨i, .ident a⟩ :: rest⟩).children =
        target.toList ++ ⟨i, .ident a⟩ :: rest := rfl
    exact (children_setAt_split hsplit _ []).symm

lemma renameVariable_eq_self
    (h : ∀ q, s.kind.firstArgument? = some q → ∀ i a, s.at? q ≠ some ⟨i, .ident a⟩) :
    renameVariable r s = s := by
  obtain ⟨id, k⟩ := s
  unfold renameVariable
  split
  · next target function i a rest hkind =>
    dsimp only at hkind
    subst hkind
    exact absurd at?_firstArgument (h _ rfl i a)
  · rfl

/-- A call that declares a variable is changed there, and nothing else is changed at all. -/
lemma renameVariable_cases (r : VariableRenaming) (s : Expr) :
    (∃ q i a, s.kind.firstArgument? = some q ∧ s.at? q = some ⟨i, .ident a⟩ ∧
      renameVariable r s = setAt ⟨i, .ident ⟨newName r a.name⟩⟩ q s) ∨ renameVariable r s = s := by
  by_cases h : ∃ q i a, s.kind.firstArgument? = some q ∧ s.at? q = some ⟨i, .ident a⟩
  · obtain ⟨q, i, a, hq, ha⟩ := h
    exact .inl ⟨q, i, a, hq, ha, renameVariable_eq_setAt hq ha⟩
  · exact .inr (renameVariable_eq_self fun q hq i a ha => h ⟨q, i, a, hq, ha⟩)

/-- Every node keeps its place, its id and, but for the declared variable, its payload. -/
lemma at?_renameVariable (hx : s.at? q = some x) :
    ∃ y, (renameVariable r s).at? q = some y ∧ y.id = x.id ∧ y.kind.tag = x.kind.tag ∧
      (¬ (s.kind.firstArgument? = some q ∧ x.kind.tag = .ident) → y.kind.shape = x.kind.shape) := by
  obtain ⟨p, i, a, hp, ha, hset⟩ | hself := renameVariable_cases r s
  · rw [hset]
    by_cases hprefix : p <+: q
    · obtain ⟨u, rfl⟩ := hprefix
      rw [at?_append, ha, Option.bind_some] at hx
      rw [at?_setAt_append ha]
      cases u with
      | nil =>
        cases hx
        refine ⟨_, rfl, rfl, rfl, ?_⟩
        intro hne
        rw [List.append_nil] at hne
        exact absurd ⟨hp, rfl⟩ hne
      | cons j u => simp [at?_cons, children, Kind.children] at hx
    · have hsame := at?_setAt_of_not_prefix hprefix ⟨i, .ident ⟨newName r a.name⟩⟩ s
      rw [hx, Option.map_some, Option.map_eq_some_iff] at hsame
      obtain ⟨y, hy, hpair⟩ := hsame
      obtain ⟨hid, hshape⟩ := Prod.mk.inj hpair
      exact ⟨y, hy, hid, Kind.tag_eq_of_outline_eq (Kind.outline_eq_of_shape_eq hshape),
        fun _ => hshape⟩
  · exact ⟨x, by rw [hself, hx], rfl, rfl, fun _ => rfl⟩

lemma exposed_renameVariable (h : Exposed root s q) (hx : s.at? q = some x) :
    Exposed root (renameVariable r s) q := by
  intro p hp hne y hy
  obtain ⟨u, rfl⟩ := hp
  rw [at?_append, Option.bind_eq_some_iff] at hx
  obtain ⟨z, hz, -⟩ := hx
  obtain ⟨y', hy', hid, htag, -⟩ := at?_renameVariable (r := r) hz
  obtain rfl := Option.some.inj (hy.symm.trans hy')
  rw [hid, htag]
  exact h p (List.prefix_append ..) hne z hz

/-- Where the root of a shadow and the declared variable stand for no node of the tree, the variable
may be renamed before or after the shadow is derived. -/
theorem renameVariable_reflect (h : HeadApart root s) :
    renameVariable r (reflect root s) = reflect root (renameVariable r s) := by
  have hid : s.id ∉ root.nodeIds := h [] List.mem_cons_self s rfl
  have hfirst {q : Position} {x : Expr} (hq : s.kind.firstArgument? = some q)
      (hx : s.at? q = some x) : named? root x.id = none :=
    named?_eq_none_of_not_mem
      (h q (List.mem_cons_of_mem _ (Option.mem_toList.2 hq)) x hx)
  have hroot := named?_eq_none_of_not_mem hid
  by_cases hdeclares : ∃ q i a, s.kind.firstArgument? = some q ∧ s.at? q = some ⟨i, .ident a⟩
  · obtain ⟨q, i, a, hq, ha⟩ := hdeclares
    have hleaf := reflect_ident (hfirst hq ha)
    obtain ⟨id, target, function, rest, rfl⟩ := exists_call_of_declared hq ha
    have hcall (args : List Expr) : reflect root ⟨id, .call ⟨target, function, args⟩⟩ =
        ⟨id, .call ⟨target.map (reflect root), function, args.map (reflect root)⟩⟩ :=
      reflect_of_not_named hroot KindTag.noConfusion
    rw [renameVariable_call, hcall, hcall, List.map_cons, List.map_cons, hleaf, hleaf,
      renameVariable_call]
  · rw [renameVariable_eq_self fun q hq i a ha => hdeclares ⟨q, i, a, hq, ha⟩]
    apply renameVariable_eq_self
    intro q hq i a ha
    rw [firstArgument?_reflect hroot] at hq
    obtain ⟨x, hx⟩ := exists_at_firstArgument hq
    rw [at?_reflect (exposed_firstArgument hq hid) hx, Option.some.injEq] at ha
    exact hdeclares ⟨q, i, a, hq, by rw [hx, eq_ident_of_reflect (hfirst hq hx) ha]⟩

/-! ### The table -/

/-- The shadow of a key with its variable renamed by the record of this key, if there is one. -/
def renameAt (records : List VariableRenaming) (key : NodeId) (s : Expr) : Expr :=
  (records.find? (fun r => r.id = key)).elim s (fun r => renameVariable r s)

variable {records : List VariableRenaming} {calls : IdMap Expr} {key : NodeId}

lemma renameAt_reflect (h : HeadApart root s) :
    renameAt records key (reflect root s) = reflect root (renameAt records key s) := by
  unfold renameAt
  cases records.find? (fun r => r.id = key) with
  | none => rfl
  | some r => exact renameVariable_reflect h

/-- No two records are of one comprehension, so each shadow is renamed once. -/
lemma get?_renameVariables (hnodup : (records.map VariableRenaming.id).Nodup) :
    (renameVariables records calls).get? key = (calls.get? key).map (renameAt records key) := by
  induction records generalizing calls with
  | nil => exact (Option.map_id' ..).symm
  | cons r records ih =>
    have hstep : renameVariables (r :: records) calls =
        renameVariables records (calls.modify r.id (renameVariable r)) := rfl
    rw [List.map_cons, List.nodup_cons] at hnodup
    rw [hstep, ih hnodup.2, IdMap.get?_modify, Option.map_map]
    congr 1
    funext s
    by_cases hkey : r.id = key
    · have hnone : records.find? (fun r => r.id = key) = none := by
        rw [List.find?_eq_none]
        intro r' hr' hid
        exact hnodup.1 (List.mem_map.2 ⟨r', hr', (of_decide_eq_true hid).trans hkey.symm⟩)
      simp [renameAt, hkey, hnone]
    · simp [renameAt, hkey, Ne.symm hkey]

end Mangle

namespace MacroCalls

variable {root t : Expr} {calls : IdMap Expr} {key : NodeId}

/-- Without an exchange of ids the shadows that are kept are reflections, under their keys. -/
lemma mem_derived_keep :
    (key, t) ∈ (derived none root (fun i => i) calls).entries ↔
      key ∈ root.nodeIds ∧ ∃ s, (key, s) ∈ calls.entries ∧ t = reflect root s := by
  constructor
  · intro h
    obtain ⟨⟨key', s⟩, hmem, expanded, hnode, rfl, rfl⟩ := exists_of_mem_derived h
    refine ⟨mem_nodeIds.2 ⟨expanded, mem_of_nodesById hnode⟩, s, hmem, ?_⟩
    rw [mapIds_id]
    rfl
  · rintro ⟨hkey, s, hmem, rfl⟩
    obtain ⟨n, hn, rfl⟩ := mem_nodeIds.1 hkey
    obtain ⟨expanded, hnode⟩ := exists_nodesById hn
    have hkept : (n.id, derive none root expanded (s.mapIds fun i => i)) ∈
        (derived none root (fun i => i) calls).entries :=
      mem_derived hmem hnode (fun other hother hid => IdMap.entry_eq_of_key hother hmem hid)
    rw [mapIds_id] at hkept
    exact hkept

end MacroCalls

namespace Workspace

open MacroCalls Mangle

variable {budget : Nat} {w v : Workspace} {iterPrefix accuPrefix : String}
  {records : List VariableRenaming} {key : NodeId} {s s' : Expr}

/-- No root of a shadow and no first argument of its call carries the id of a node. -/
def HeadsApart (w : Workspace) : Prop :=
  ∀ e ∈ w.source.macroCalls.entries, HeadApart w.root e.2

instance (w : Workspace) : Decidable w.HeadsApart :=
  inferInstanceAs (Decidable (∀ e ∈ _, ∀ q ∈ _, ∀ x ∈ _, _))

/-- What mangling does when there is a comprehension. -/
structure Mangled (w v : Workspace) (records : List VariableRenaming) : Prop where
  root : v.root.forgetNames = w.root.forgetNames
  source : v.source = { w.source with macroCalls := v.source.macroCalls }
  olds : records.map before = w.root.binders
  news : records.map after = v.root.binders
  entries : ∀ key t, (key, t) ∈ v.source.macroCalls.entries ↔ key ∈ w.root.nodeIds ∧
    ∃ s, (key, s) ∈ w.source.macroCalls.entries ∧ t = reflect v.root (renameAt records key s)

theorem mangled_of_mangle (hset : ∀ i ∈ w.root.slots, i.isSet) (hdistinct : w.root.DistinctIds)
    (hheads : w.HeadsApart) (hrecords : records ≠ [])
    (h : w.mangle budget iterPrefix accuPrefix = .ok (v, records)) : Mangled w v records := by
  obtain ⟨root, b, hrun, ⟨hnil, -⟩ | ⟨-, calls, hcalls, rfl⟩⟩ := mangle_eq_ok_iff.1 h
  · exact absurd hnil hrecords
  obtain ⟨-, rfl⟩ := rederiveKeeping_eq_ok_iff.1 hcalls
  have hroot := forgetNames_renameIn hrun
  have hids := nodeIds_eq_of_forgetNames_eq hroot
  obtain ⟨records', hall, holds, hnews⟩ := records_renameIn hrun
  obtain rfl : records = records' := hall
  have hnodup : (records.map VariableRenaming.id).Nodup := by
    have hfst : records.map VariableRenaming.id = w.root.binders.map Prod.fst := by
      rw [← holds, List.map_map]
      rfl
    rw [hfst]
    exact (nodup_nodeIds hset hdistinct).sublist (binders_sublist_nodeIds w.root)
  have happart {key : NodeId} {s : Expr} (hs : (key, s) ∈ w.source.macroCalls.entries) :
      HeadApart root s := by
    rw [HeadApart, hids]
    exact hheads _ hs
  refine ⟨hroot, rfl, holds, hnews, ?_⟩
  intro key t
  rw [← hids]
  dsimp only
  rw [← IdMap.get?_eq_some_iff, get?_renameVariables hnodup, Option.map_eq_some_iff]
  simp only [IdMap.get?_eq_some_iff, mem_derived_keep]
  constructor
  · rintro ⟨_, ⟨hkey, s, hs, rfl⟩, rfl⟩
    exact ⟨hkey, s, hs, renameAt_reflect (happart hs)⟩
  · rintro ⟨hkey, s, hs, rfl⟩
    exact ⟨reflect root s, ⟨hkey, s, hs, rfl⟩, renameAt_reflect (happart hs)⟩

namespace Mangled

lemma nodeIds_eq (h : Mangled w v records) : v.root.nodeIds = w.root.nodeIds :=
  nodeIds_eq_of_forgetNames_eq h.root

lemma distinct (h : Mangled w v records) (hdistinct : w.root.DistinctIds) : v.root.DistinctIds := by
  rw [DistinctIds, ← slots_forgetNames, h.root, slots_forgetNames]
  exact hdistinct

lemma mem_nodeIds_of_entry (h : Mangled w v records) {e : NodeId × Expr}
    (he : e ∈ v.source.macroCalls.entries) : e.1 ∈ v.root.nodeIds := by
  rw [h.nodeIds_eq]
  exact ((h.entries e.1 e.2).1 he).1

theorem mirrored (h : Mangled w v records) (hdistinct : w.root.DistinctIds) : v.Mirrored := by
  rintro ⟨key, t⟩ ht
  obtain ⟨-, s, -, rfl⟩ := (h.entries key t).1 ht
  exact shows_reflect (h.distinct hdistinct) _

lemma mem_keys_iff (h : Mangled w v records) :
    key ∈ v.source.macroCalls.keys ↔ key ∈ w.source.macroCalls.keys ∧ key ∈ w.root.nodeIds := by
  simp only [IdMap.keys, List.mem_map, Prod.exists, exists_and_right, exists_eq_right, h.entries]
  constructor
  · rintro ⟨_, hkey, s, hs, rfl⟩
    exact ⟨⟨s, hs⟩, hkey⟩
  · rintro ⟨⟨s, hs⟩, hkey⟩
    exact ⟨_, hkey, s, hs, rfl⟩

/-- The record of a comprehension has its old and its new names. -/
lemma exists_record (h : Mangled w v records) (hset : ∀ i ∈ w.root.slots, i.isSet)
    (hdistinct : w.root.DistinctIds) {c : Comprehension Expr}
    (hc : ⟨key, .comprehension c⟩ ∈ w.root.preorder) :
    ∃ c', ⟨key, .comprehension c'⟩ ∈ v.root.preorder ∧
      records.find? (fun r => r.id = key) =
        some ⟨key, c.iterVar, c'.iterVar, c.accuVar, c'.accuVar⟩ := by
  have hbinder : (key, c.iterVar, c.accuVar) ∈ records.map before :=
    h.olds ▸ mem_binders.2 ⟨c, hc, rfl, rfl⟩
  obtain ⟨r₀, hr₀, hbefore⟩ := List.mem_map.1 hbinder
  have hfound : (records.find? (fun r => r.id = key)).isSome := by
    rw [List.find?_isSome]
    exact ⟨r₀, hr₀, decide_eq_true (congrArg Prod.fst hbefore)⟩
  obtain ⟨r, hr⟩ := Option.isSome_iff_exists.1 hfound
  have hmem := List.mem_of_find?_eq_some hr
  have hid := List.find?_some hr
  rw [decide_eq_true_iff] at hid
  have hold : before r ∈ w.root.binders := h.olds ▸ List.mem_map_of_mem hmem
  have hnew : after r ∈ v.root.binders := h.news ▸ List.mem_map_of_mem hmem
  obtain ⟨d, hd, hiter, haccu⟩ := mem_binders.1 hold
  obtain ⟨c', hc', hiter', haccu'⟩ := mem_binders.1 hnew
  obtain ⟨id, oldIter, newIter, oldAccu, newAccu⟩ := r
  dsimp only at hid
  subst hid
  -- the record that is found is that of the comprehension, since ids are distinct
  have hsame : (⟨id, .comprehension c⟩ : Expr) = ⟨id, .comprehension d⟩ :=
    hdistinct.node_eq hc hd (hset _ (id_mem_slots hc)) rfl
  cases hsame
  cases hiter
  cases haccu
  cases hiter'
  cases haccu'
  exact ⟨c', hc', hr⟩

lemma find?_eq_none (h : Mangled w v records)
    (hkey : ¬ ∃ c, ⟨key, .comprehension c⟩ ∈ w.root.preorder) :
    records.find? (fun r => r.id = key) = none := by
  rw [List.find?_eq_none]
  intro r hr hid
  have hold : before r ∈ w.root.binders := h.olds ▸ List.mem_map_of_mem hr
  obtain ⟨c, hc, -⟩ := mem_binders.1 hold
  rw [of_decide_eq_true hid] at hc
  exact hkey ⟨c, hc⟩

end Mangled

/-- The place is that of the variable that the macro call of a comprehension declares. -/
def Declares (w : Workspace) (key : NodeId) (s : Expr) (q : Position) : Prop :=
  s.kind.firstArgument? = some q ∧ (∃ i a, s.at? q = some ⟨i, .ident a⟩) ∧
    ∃ c, ⟨key, .comprehension c⟩ ∈ w.root.preorder

/-- What becomes of the shadow of a key when `w` is mangled into `v`. Every node stays at its place,
down to those that stand for nodes of the tree; the nodes above these keep their payload; and the
declared variable gets the new name of the accumulator or of the iteration variable, if it has the
old one. -/
structure ShadowKept (w v : Workspace) (key : NodeId) (s s' : Expr) : Prop where
  place : ∀ q x, Exposed w.root s q → s.at? q = some x → ∃ y, s'.at? q = some y ∧ y.id = x.id
  payload : ∀ q x y, Exposed w.root s q → s.at? q = some x → s'.at? q = some y →
    x.id ∉ w.root.nodeIds → ¬ w.Declares key s q → y.kind.shape = (collapse x).kind.shape
  declared : ∀ c q i a, ⟨key, .comprehension c⟩ ∈ w.root.preorder →
    s.kind.firstArgument? = some q → s.at? q = some ⟨i, .ident a⟩ →
    ∃ c' : Comprehension Expr, ⟨key, .comprehension c'⟩ ∈ v.root.preorder ∧
      s'.at? q = some ⟨i, .ident ⟨if a.name = c.accuVar then c'.accuVar
        else if a.name = c.iterVar then c'.iterVar else a.name⟩⟩

lemma Mangled.at?_renameAt (h : Mangled w v records) (key : NodeId) {q : Position} {x : Expr}
    (hexposed : Exposed w.root s q) (hx : s.at? q = some x) :
    ∃ z, (renameAt records key s).at? q = some z ∧ Exposed v.root (renameAt records key s) q ∧
      z.id = x.id ∧ (¬ w.Declares key s q → z.kind.shape = x.kind.shape) := by
  rw [Exposed, ← h.nodeIds_eq] at hexposed
  unfold renameAt
  cases hfind : records.find? (fun r => r.id = key) with
  | none => exact ⟨x, hx, hexposed, rfl, fun _ => rfl⟩
  | some r =>
    obtain ⟨z, hz, hid, -, hshape⟩ := at?_renameVariable (r := r) hx
    refine ⟨z, hz, exposed_renameVariable hexposed hx, hid, ?_⟩
    intro hdeclares
    apply hshape
    rintro ⟨hq, hident⟩
    refine hdeclares ⟨hq, ?_, ?_⟩
    · obtain ⟨i, k⟩ := x
      cases k with
      | ident a => exact ⟨i, a, hx⟩
      | _ => cases hident
    · by_contra hnone
      rw [h.find?_eq_none hnone] at hfind
      cases hfind

lemma Mangled.shadowKept (h : Mangled w v records) (hset : ∀ i ∈ w.root.slots, i.isSet)
    (hdistinct : w.root.DistinctIds) (hheads : w.HeadsApart)
    (hs : (key, s) ∈ w.source.macroCalls.entries) (hs' : (key, s') ∈ v.source.macroCalls.entries) :
    ShadowKept w v key s s' := by
  obtain ⟨-, s₀, hs₀, rfl⟩ := (h.entries key s').1 hs'
  cases IdMap.entry_eq_of_key hs hs₀ rfl
  refine ⟨?place, ?payload, ?declared⟩
  case place =>
    intro q x hexposed hx
    obtain ⟨z, hz, hexposed', hid, -⟩ := h.at?_renameAt key hexposed hx
    exact ⟨reflect v.root z, at?_reflect hexposed' hz, by rw [reflect_id, hid]⟩
  case payload =>
    intro q x y hexposed hx hy hown hdeclares
    obtain ⟨z, hz, hexposed', hid, hshape⟩ := h.at?_renameAt key hexposed hx
    rw [at?_reflect hexposed' hz, Option.some.injEq] at hy
    have hnamed : named? v.root z.id = none := by
      rw [hid]
      exact named?_eq_none_of_not_mem (h.nodeIds_eq ▸ hown)
    have hsame := hshape hdeclares
    rw [← hy, shape_reflect hnamed, shape_collapse, shape_collapse, hsame,
      Kind.tag_eq_of_outline_eq (Kind.outline_eq_of_shape_eq hsame)]
  case declared =>
    intro c q i a hc hq ha
    obtain ⟨c', hc', hfind⟩ := h.exists_record hset hdistinct hc
    refine ⟨c', hc', ?_⟩
    have happart := hheads _ hs
    have hexposed := exposed_firstArgument hq (happart [] List.mem_cons_self s rfl)
    obtain ⟨z, -, hexposed', -⟩ := h.at?_renameAt key hexposed ha
    have hown := happart q (List.mem_cons_of_mem _ (Option.mem_toList.2 hq)) _ ha
    rw [← h.nodeIds_eq] at hown
    have hrenamed := at?_setAt_append ha
      ⟨i, .ident ⟨newName ⟨key, c.iterVar, c'.iterVar, c.accuVar, c'.accuVar⟩ a.name⟩⟩ []
    rw [List.append_nil, ← renameVariable_eq_setAt hq ha] at hrenamed
    have hrecord : renameAt records key s =
        renameVariable ⟨key, c.iterVar, c'.iterVar, c.accuVar, c'.accuVar⟩ s := by
      rw [renameAt, hfind]
      rfl
    rw [hrecord] at hexposed' ⊢
    rw [at?_reflect hexposed' hrenamed, reflect_ident (named?_eq_none_of_not_mem hown)]
    rfl

lemma records_ne_nil (h : w.mangle budget iterPrefix accuPrefix = .ok (v, records)) {n : Expr}
    (hn : n ∈ w.root.preorder) (htag : n.kind.tag = .comprehension) : records ≠ [] := by
  obtain ⟨root, b, hrun, -⟩ := mangle_eq_ok_iff.1 h
  obtain ⟨records', hall, holds, -⟩ := records_renameIn hrun
  obtain rfl : records = records' := hall
  rintro rfl
  obtain ⟨id, k⟩ := n
  cases k with
  | comprehension c =>
    have hbinder := mem_binders.2 ⟨c, hn, rfl, rfl⟩
    rw [← holds] at hbinder
    cases hbinder
  | _ => cases htag

/-- Mangling keeps the macro calls in line with the renamed tree. It changes only the names of
variables in the tree, and of the metadata only the macro calls; it keeps those whose key names a
node; every part of a shadow that carries the id of a node is this node after renaming; and what a
shadow has of its own stays, up to the variable that it declares. -/
theorem mangle_aligns_shadows (hset : ∀ i ∈ w.root.slots, i.isSet) (hdistinct : w.root.DistinctIds)
    (hheads : w.HeadsApart) (hcomprehension : ∃ n ∈ w.root.preorder, n.kind.tag = .comprehension)
    (h : w.mangle budget iterPrefix accuPrefix = .ok (v, records)) :
    v.root.forgetNames = w.root.forgetNames ∧
      v.source = { w.source with macroCalls := v.source.macroCalls } ∧
      (∀ key, key ∈ v.source.macroCalls.keys ↔
        key ∈ w.source.macroCalls.keys ∧ key ∈ w.root.nodeIds) ∧
      v.Mirrored ∧
      ∀ key s s', (key, s) ∈ w.source.macroCalls.entries →
        (key, s') ∈ v.source.macroCalls.entries → ShadowKept w v key s s' := by
  obtain ⟨n, hn, htag⟩ := hcomprehension
  have hmangled := mangled_of_mangle hset hdistinct hheads (records_ne_nil h hn htag) h
  refine ⟨hmangled.root, hmangled.source, fun key => hmangled.mem_keys_iff,
    hmangled.mirrored hdistinct, ?_⟩
  intro key s s' hs hs'
  exact hmangled.shadowKept hset hdistinct hheads hs hs'

/-- One label for both variables. The outer macro declares the iteration variable and the inner one
the accumulator; both shadows are stale. The call keeps its argument, since it binds nothing, and
the entry of no node is dropped. -/
theorem mangle_aligns_shadows_nested :
    let inner : Expr := ⟨⟨10⟩, .comprehension ⟨"y", ⟨⟨11⟩, .ident ⟨"x"⟩⟩, "acc",
      ⟨⟨12⟩, .constant (.bool true)⟩, ⟨⟨13⟩, .ident ⟨"acc"⟩⟩, ⟨⟨14⟩, .ident ⟨"y"⟩⟩,
      ⟨⟨15⟩, .ident ⟨"acc"⟩⟩⟩⟩
    let step : Expr := ⟨⟨5⟩, .call ⟨none, "f", [⟨⟨6⟩, .ident ⟨"x"⟩⟩, inner]⟩⟩
    let calls : IdMap Expr := .ofList [
      (⟨1⟩, ⟨.unset, .call ⟨some ⟨⟨2⟩, .ident ⟨"old"⟩⟩, "all",
        [⟨⟨20⟩, .ident ⟨"x"⟩⟩, ⟨⟨5⟩, .notSet⟩]⟩⟩),
      (⟨10⟩, ⟨⟨21⟩, .call ⟨some ⟨⟨22⟩, .list ⟨[⟨⟨11⟩, .ident ⟨"old"⟩⟩, inner], .empty⟩⟩, "exists",
        [⟨⟨23⟩, .ident ⟨"acc"⟩⟩, ⟨⟨14⟩, .notSet⟩]⟩⟩),
      (⟨5⟩, ⟨⟨24⟩, .call ⟨none, "f", [⟨⟨25⟩, .ident ⟨"x"⟩⟩]⟩⟩),
      (⟨99⟩, ⟨⟨26⟩, .ident ⟨"x"⟩⟩)]
    let w : Workspace := ⟨⟨⟨1⟩, .comprehension ⟨"x", ⟨⟨2⟩, .ident ⟨"xs"⟩⟩, "acc",
      ⟨⟨3⟩, .constant (.bool true)⟩, ⟨⟨4⟩, .ident ⟨"acc"⟩⟩, step, ⟨⟨7⟩, .ident ⟨"acc"⟩⟩⟩⟩,
      { SourceInfo.empty with macroCalls := calls }⟩
    (∀ i ∈ w.root.slots, i.isSet) ∧ w.root.DistinctIds ∧ w.HeadsApart ∧
      (∃ n ∈ w.root.preorder, n.kind.tag = .comprehension) ∧
      ∃ v records, w.mangle 40 "v" "v" = .ok (v, records) ∧
        v.source.macroCalls.entries = [
          (⟨1⟩, ⟨.unset, .call ⟨some ⟨⟨2⟩, .ident ⟨"xs"⟩⟩, "all", [⟨⟨20⟩, .ident ⟨"v0"⟩⟩,
            ⟨⟨5⟩, .call ⟨none, "f", [⟨⟨6⟩, .ident ⟨"v0"⟩⟩, ⟨⟨10⟩, .notSet⟩]⟩⟩]⟩⟩),
          (⟨5⟩, ⟨⟨24⟩, .call ⟨none, "f", [⟨⟨25⟩, .ident ⟨"x"⟩⟩]⟩⟩),
          (⟨10⟩, ⟨⟨21⟩, .call
            ⟨some ⟨⟨22⟩, .list ⟨[⟨⟨11⟩, .ident ⟨"v0"⟩⟩, ⟨⟨10⟩, .notSet⟩], .empty⟩⟩, "exists",
              [⟨⟨23⟩, .ident ⟨"v1"⟩⟩, ⟨⟨14⟩, .ident ⟨"v1"⟩⟩]⟩⟩)] ∧
        v.root.forgetNames = w.root.forgetNames ∧ v.Mirrored ∧
        ∀ key s s', (key, s) ∈ w.source.macroCalls.entries →
          (key, s') ∈ v.source.macroCalls.entries → ShadowKept w v key s s' := by
  intro inner step calls w
  have hset : ∀ i ∈ w.root.slots, i.isSet := by decide +kernel
  have hdistinct : w.root.DistinctIds := by decide +kernel
  have hheads : w.HeadsApart := by decide +kernel
  have hcomprehension : ∃ n ∈ w.root.preorder, n.kind.tag = .comprehension := by decide +kernel
  have hentries : (w.mangle 40 "v" "v").toOption.map (fun p => p.1.source.macroCalls.entries) =
      some [
        (⟨1⟩, ⟨.unset, .call ⟨some ⟨⟨2⟩, .ident ⟨"xs"⟩⟩, "all", [⟨⟨20⟩, .ident ⟨"v0"⟩⟩,
          ⟨⟨5⟩, .call ⟨none, "f", [⟨⟨6⟩, .ident ⟨"v0"⟩⟩, ⟨⟨10⟩, .notSet⟩]⟩⟩]⟩⟩),
        (⟨5⟩, ⟨⟨24⟩, .call ⟨none, "f", [⟨⟨25⟩, .ident ⟨"x"⟩⟩]⟩⟩),
        (⟨10⟩, ⟨⟨21⟩, .call ⟨some ⟨⟨22⟩, .list ⟨[⟨⟨11⟩, .ident ⟨"v0"⟩⟩, ⟨⟨10⟩, .notSet⟩], .empty⟩⟩,
          "exists", [⟨⟨23⟩, .ident ⟨"v1"⟩⟩, ⟨⟨14⟩, .ident ⟨"v1"⟩⟩]⟩⟩)] := by
    decide +kernel
  cases hmangle : w.mangle 40 "v" "v" with
  | error err =>
    rw [hmangle] at hentries
    cases hentries
  | ok p =>
    rw [hmangle] at hentries
    obtain ⟨hroot, -, -, hmirrored, hkept⟩ :=
      mangle_aligns_shadows hset hdistinct hheads hcomprehension hmangle
    exact ⟨hset, hdistinct, hheads, hcomprehension, p.1, p.2, rfl, Option.some.inj hentries, hroot,
      hmirrored, hkept⟩

end Workspace

end CelEdit
