import CelEdit.Expr.Equality
import CelEdit.Proofs.Runs
import Mathlib.Tactic.Tauto

/-!
# One layer of a tree

A kind is made of three parts that edits treat apart: its outline, the ids of its entries, and its
children. Traversals thread a state through the entry ids or through the children and keep the
other parts.
-/

namespace CelEdit.Kind

open Runs

variable {α β γ : Type}

/-- Applies a function to every entry id. -/
def mapEntryIds (f : NodeId → NodeId) (k : Kind α) : Kind α :=
  Id.run (k.traverseEntryIds (fun id => pure (f id)))

/-- What a node says about itself, without ids and children. -/
def outline (k : Kind α) : Kind Unit := k.shape.mapEntryIds (fun _ => .unset)

lemma mapEntryIds_struct (f : NodeId → NodeId) (s : StructLiteral α) :
    mapEntryIds f (.struct s) =
      .struct ⟨s.messageName, s.entries.map (fun e => { e with id := f e.id })⟩ := by
  simp [mapEntryIds, traverseEntryIds]

lemma mapEntryIds_map (f : NodeId → NodeId) (literal : MapLiteral α) :
    mapEntryIds f (.map literal) = .map ⟨literal.entries.map (fun e => { e with id := f e.id })⟩ := by
  simp [mapEntryIds, traverseEntryIds]

@[simp] lemma children_mapEntryIds (f : NodeId → NodeId) (k : Kind α) :
    (k.mapEntryIds f).children = k.children := by
  cases k with
  | struct s => simp [mapEntryIds_struct, children, Function.comp_def]
  | map literal => simp [mapEntryIds_map, children, List.flatMap_map]
  | _ => rfl

@[simp] lemma entryIds_mapEntryIds (f : NodeId → NodeId) (k : Kind α) :
    (k.mapEntryIds f).entryIds = k.entryIds.map f := by
  cases k with
  | struct s => simp [mapEntryIds_struct, entryIds, Function.comp_def]
  | map literal => simp [mapEntryIds_map, entryIds, Function.comp_def]
  | _ => rfl

@[simp] lemma entryIds_mapChildren (f : α → β) (k : Kind α) :
    (k.mapChildren f).entryIds = k.entryIds := by
  cases k <;> simp [mapChildren, entryIds, Function.comp_def]

@[simp] lemma entryIds_shape (k : Kind α) : k.shape.entryIds = k.entryIds :=
  entryIds_mapChildren _ k

lemma mapEntryIds_mapChildren (f : NodeId → NodeId) (g : α → β) (k : Kind α) :
    (k.mapChildren g).mapEntryIds f = (k.mapEntryIds f).mapChildren g := by
  cases k with
  | struct s => simp [mapEntryIds_struct, mapChildren]
  | map literal => simp [mapEntryIds_map, mapChildren]
  | _ => rfl

lemma mapEntryIds_mapEntryIds (f g : NodeId → NodeId) (k : Kind α) :
    (k.mapEntryIds f).mapEntryIds g = k.mapEntryIds (g ∘ f) := by
  cases k with
  | struct s => simp [mapEntryIds_struct]
  | map literal => simp [mapEntryIds_map]
  | _ => rfl

lemma mapChildren_mapChildren (f : α → β) (g : β → γ) (k : Kind α) :
    (k.mapChildren f).mapChildren g = k.mapChildren (g ∘ f) := by
  cases k <;> simp [mapChildren]

lemma mapChildren_congr {f g : α → β} {k : Kind α} (h : ∀ c ∈ k.children, f c = g c) :
    k.mapChildren f = k.mapChildren g := by
  apply eq_of_shape_of_children
  · rw [shape_mapChildren, shape_mapChildren]
  · rw [children_mapChildren, children_mapChildren]
    exact List.map_congr_left h

lemma mapChildren_id (k : Kind α) : k.mapChildren (fun c => c) = k := by
  apply eq_of_shape_of_children
  · rw [shape_mapChildren]
  · rw [children_mapChildren, List.map_id']

@[simp] lemma outline_mapChildren (f : α → β) (k : Kind α) :
    (k.mapChildren f).outline = k.outline := by
  rw [outline, shape_mapChildren, outline]

lemma shape_mapEntryIds (f : NodeId → NodeId) (k : Kind α) :
    (k.mapEntryIds f).shape = k.shape.mapEntryIds f :=
  (mapEntryIds_mapChildren f _ k).symm

@[simp] lemma outline_mapEntryIds (f : NodeId → NodeId) (k : Kind α) :
    (k.mapEntryIds f).outline = k.outline := by
  rw [outline, shape_mapEntryIds, mapEntryIds_mapEntryIds]
  rfl

lemma outline_eq_of_shape_eq {k : Kind α} {l : Kind β} (h : k.shape = l.shape) :
    k.outline = l.outline := by
  rw [outline, outline, h]

lemma tag_mapChildren (f : α → β) (k : Kind α) : (k.mapChildren f).tag = k.tag := by
  cases k <;> rfl

lemma tag_eq_of_outline_eq {k : Kind α} {l : Kind β} (h : k.outline = l.outline) : k.tag = l.tag := by
  have htag : ∀ {γ : Type} (k : Kind γ), k.outline.tag = k.tag := by
    intro γ k
    cases k <;> rfl
  rw [← htag k, h, htag l]

lemma entryIds_eq_of_shape_eq {k : Kind α} {l : Kind β} (h : k.shape = l.shape) :
    k.entryIds = l.entryIds := by
  rw [← entryIds_shape k, h, entryIds_shape]

lemma eq_of_mapEntryIds_unset {k l : Kind α}
    (hrest : k.mapEntryIds (fun _ => .unset) = l.mapEntryIds (fun _ => .unset))
    (hid : k.entryIds = l.entryIds) : k = l := by
  cases k with
  | struct s =>
    cases l with
    | struct t =>
      simp only [mapEntryIds_struct, struct.injEq, StructLiteral.mk.injEq] at hrest
      cases s
      cases t
      simp only at hrest
      rw [hrest.1, eq_of_map_eq_of_map_eq (fun a b => by cases a; cases b; simp_all) hrest.2 hid]
    | map t => simp [mapEntryIds_struct, mapEntryIds_map] at hrest
    | _ => exact absurd hrest (by simp [mapEntryIds, traverseEntryIds])
  | map s =>
    cases l with
    | map t =>
      simp only [mapEntryIds_map, map.injEq, MapLiteral.mk.injEq] at hrest
      cases s
      cases t
      simp only at hrest
      rw [eq_of_map_eq_of_map_eq (fun a b => by cases a; cases b; simp_all) hrest hid]
    | struct t => simp [mapEntryIds_struct, mapEntryIds_map] at hrest
    | _ => exact absurd hrest (by simp [mapEntryIds, traverseEntryIds])
  | _ =>
    cases l with
    | struct t => exact absurd hrest (by simp [mapEntryIds, traverseEntryIds])
    | map t => exact absurd hrest (by simp [mapEntryIds, traverseEntryIds])
    | _ => exact hrest

/-- A kind is determined by its outline, its entry ids and its children. -/
theorem eq_of_outline {k l : Kind α} (houtline : k.outline = l.outline)
    (hentries : k.entryIds = l.entryIds) (hchildren : k.children = l.children) : k = l := by
  apply eq_of_shape_of_children _ hchildren
  apply eq_of_mapEntryIds_unset houtline
  rw [entryIds_shape, entryIds_shape, hentries]

lemma length_entryIds_eq {k : Kind α} {l : Kind β} (h : k.outline = l.outline) :
    k.entryIds.length = l.entryIds.length := by
  have hlength {γ : Type} (j : Kind γ) : j.outline.entryIds.length = j.entryIds.length := by
    simp [outline]
  rw [← hlength k, h, hlength l]

/-! ### Traversals -/

section Traversals

variable {m : Type → Type} {σ : Type} [Monad m] [Runs m σ]

lemma thread_field {δ ε : Type} (get : α → β) (get' : γ → δ) (rest : α → ε) (rest' : γ → ε)
    (put : α → δ → γ) (hput : ∀ a c d, c = put a d ↔ rest' c = rest a ∧ get' c = d) (f : β → m δ)
    (as : List α) (cs : List γ) (s t : σ) :
    Thread (fun a => Ends (do
      let d ← f (get a)
      pure (put a d))) as s cs t ↔
    cs.map rest' = as.map rest ∧ Thread (fun b => Ends (f b)) (as.map get) s (cs.map get') t := by
  induction as generalizing cs s with
  | nil =>
    simp only [Thread.nil_iff, List.map_nil, List.map_eq_nil_iff]
    exact ⟨fun h => ⟨h.1, h⟩, fun h => h.2⟩
  | cons a as ih =>
    simp only [Thread.cons_iff, ends_bind, ends_pure, List.map_cons, ih]
    constructor
    · rintro ⟨c, cs, u, rfl, ⟨d, _, hd, hc, rfl⟩, hrest, hthread⟩
      obtain ⟨hc', rfl⟩ := (hput ..).1 hc
      exact ⟨by rw [List.map_cons, hc', hrest], get' c, _, _, rfl, hd, hthread⟩
    · rintro ⟨hrest, d, ds, u, hds, hd, hthread⟩
      obtain _ | ⟨c, cs⟩ := cs
      · simp at hds
      · simp only [List.map_cons, List.cons.injEq] at hrest hds
        refine ⟨c, cs, u, rfl, ⟨d, u, hd, ?_, rfl⟩, hrest.2, hds.2 ▸ hthread⟩
        exact (hput ..).2 ⟨hrest.1, hds.1⟩

lemma thread_structValues (f : α → m β) (es : List (StructEntry α)) (fs : List (StructEntry β))
    (s t : σ) :
    Thread (fun e : StructEntry α => Ends (do
      let value ← f e.value
      pure (StructEntry.mk e.id e.fieldKey value e.optionalEntry))) es s fs t ↔
    fs.map (fun e => StructEntry.mk e.id e.fieldKey () e.optionalEntry) =
        es.map (fun e => StructEntry.mk e.id e.fieldKey () e.optionalEntry) ∧
      Thread (fun c => Ends (f c)) (es.map StructEntry.value) s (fs.map StructEntry.value) t := by
  apply thread_field
  intro e e' value
  cases e'
  simp only [StructEntry.mk.injEq]
  tauto

lemma thread_mapEntries (f : α → m β) (es : List (MapEntry α)) (fs : List (MapEntry β)) (s t : σ) :
    Thread (fun e : MapEntry α => Ends (do
      let key ← f e.key
      let value ← f e.value
      pure (MapEntry.mk e.id key value e.optionalEntry))) es s fs t ↔
    fs.map (fun e => MapEntry.mk e.id () () e.optionalEntry) =
        es.map (fun e => MapEntry.mk e.id () () e.optionalEntry) ∧
      Thread (fun c => Ends (f c)) (es.flatMap (fun e => [e.key, e.value])) s
        (fs.flatMap (fun e => [e.key, e.value])) t := by
  induction es generalizing fs s with
  | nil =>
    cases fs <;> simp
  | cons e es ih =>
    simp only [Thread.cons_iff, ends_bind, ends_pure, List.map_cons, ih, List.flatMap_cons,
      List.cons_append, List.nil_append]
    constructor
    · rintro ⟨_, fs, u, rfl, ⟨key, v, hkey, value, _, hvalue, rfl, rfl⟩, hlabels, hrest⟩
      exact ⟨by simp [hlabels], key, _, v, rfl, hkey, value, _, _, rfl, hvalue, hrest⟩
    · rintro ⟨hlabels, key, rest, v, hflat, hkey, value, values, u, hrest', hvalue, hrest⟩
      obtain _ | ⟨f', fs⟩ := fs
      · simp at hlabels
      · subst hrest'
        simp only [List.map_cons, List.cons.injEq, MapEntry.mk.injEq, true_and] at hlabels
        simp only [List.flatMap_cons, List.cons_append, List.nil_append, List.cons.injEq] at hflat
        obtain ⟨⟨hid, hoptional⟩, hlabels⟩ := hlabels
        obtain ⟨hkeys, hvalues, hflat⟩ := hflat
        refine ⟨f', fs, u, rfl, ⟨key, v, hkey, value, u, hvalue, ?_, rfl⟩, hlabels, hflat ▸ hrest⟩
        rw [← hid, ← hoptional, ← hkeys, ← hvalues]

/-- Traversing a kind threads the state through its children and keeps the rest. -/
theorem ends_traverse [LawfulMonad m] (f : α → m β) (k : Kind α) (s t : σ) (l : Kind β) :
    Ends (k.traverse f) s l t ↔
      l.shape = k.shape ∧ Thread (fun c => Ends (f c)) k.children s l.children t := by
  cases k with
  | notSet =>
    cases l <;> simp [traverse, ends_pure, shape, mapChildren, children]
  | constant c =>
    cases l <;> simp [traverse, ends_pure, shape, mapChildren, children]
  | ident i =>
    cases l <;> simp [traverse, ends_pure, shape, mapChildren, children]
  | select c =>
    simp only [traverse, ends_bind, ends_pure, children, Thread.cons_iff, Thread.nil_iff]
    constructor
    · rintro ⟨operand, _, hoperand, rfl, rfl⟩
      exact ⟨rfl, operand, [], t, rfl, hoperand, rfl, rfl⟩
    · rintro ⟨hshape, operand, _, u, hchildren, hoperand, rfl, rfl⟩
      refine ⟨operand, t, hoperand, eq_of_shape_of_children hshape ?_, rfl⟩
      simp [hchildren, children]
  | call c =>
    simp only [traverse, ends_bind, ends_pure, children, ends_optionMapM, ends_listMapM]
    constructor
    · rintro ⟨target, u, htarget, args, _, hargs, rfl, rfl⟩
      refine ⟨?_, htarget.append hargs⟩
      simp only [shape, mapChildren, call.injEq, Call.mk.injEq, true_and, map_unit_eq_iff,
        option_map_unit_eq_iff]
      exact ⟨htarget.length_eq, hargs.length_eq⟩
    · rintro ⟨hshape, h⟩
      cases l <;> simp only [shape, mapChildren, reduceCtorEq, call.injEq, Call.mk.injEq,
        map_unit_eq_iff, option_map_unit_eq_iff] at hshape
      obtain ⟨u, htarget, hargs⟩ := Thread.split hshape.1 h
      exact ⟨_, u, htarget, _, t, hargs, by rw [← hshape.2.1], rfl⟩
  | list c =>
    simp only [traverse, ends_bind, ends_pure, children, ends_listMapM]
    constructor
    · rintro ⟨elements, _, helements, rfl, rfl⟩
      refine ⟨?_, helements⟩
      simp only [shape, mapChildren, list.injEq, ListLiteral.mk.injEq, and_true, map_unit_eq_iff]
      exact helements.length_eq
    · rintro ⟨hshape, h⟩
      cases l <;> simp only [shape, mapChildren, reduceCtorEq, list.injEq,
        ListLiteral.mk.injEq] at hshape
      exact ⟨_, t, h, by rw [← hshape.2], rfl⟩
  | struct literal =>
    simp only [traverse, ends_bind, ends_pure, children, ends_listMapM, thread_structValues]
    constructor
    · rintro ⟨entries, _, ⟨hlabels, hentries⟩, rfl, rfl⟩
      exact ⟨by simp only [shape, mapChildren, hlabels], hentries⟩
    · rintro ⟨hshape, h⟩
      cases l <;> simp only [shape, mapChildren, reduceCtorEq, struct.injEq,
        StructLiteral.mk.injEq] at hshape
      exact ⟨_, t, ⟨hshape.2, h⟩, by rw [← hshape.1], rfl⟩
  | map literal =>
    simp only [traverse, ends_bind, ends_pure, children, ends_listMapM, thread_mapEntries]
    constructor
    · rintro ⟨entries, _, ⟨hlabels, hentries⟩, rfl, rfl⟩
      exact ⟨by simp only [shape, mapChildren, hlabels], hentries⟩
    · rintro ⟨hshape, h⟩
      cases l <;> simp only [shape, mapChildren, reduceCtorEq, map.injEq,
        MapLiteral.mk.injEq] at hshape
      exact ⟨_, t, ⟨hshape, h⟩, rfl, rfl⟩
  | comprehension c =>
    simp only [traverse, ends_bind, ends_pure, children, Thread.cons_iff, Thread.nil_iff]
    constructor
    · rintro ⟨range, u₁, hrange, init, u₂, hinit, condition, u₃, hcondition, step, u₄, hstep,
        result, _, hresult, rfl, rfl⟩
      exact ⟨rfl, range, _, u₁, rfl, hrange, init, _, u₂, rfl, hinit, condition, _, u₃, rfl,
        hcondition, step, _, u₄, rfl, hstep, result, _, t, rfl, hresult, rfl, rfl⟩
    · rintro ⟨hshape, range, _, u₁, hchildren, hrange, init, _, u₂, rfl, hinit, condition, _, u₃,
        rfl, hcondition, step, _, u₄, rfl, hstep, result, _, u₅, rfl, hresult, rfl, rfl⟩
      refine ⟨range, u₁, hrange, init, u₂, hinit, condition, u₃, hcondition, step, u₄, hstep,
        result, t, hresult, eq_of_shape_of_children hshape ?_, rfl⟩
      simp [hchildren, children]

lemma thread_structIds (f : NodeId → m NodeId) (es fs : List (StructEntry α)) (s t : σ) :
    Thread (fun e : StructEntry α => Ends (do
      let id ← f e.id
      pure { e with id := id })) es s fs t ↔
    fs.map (fun e => { e with id := NodeId.unset }) = es.map (fun e => { e with id := NodeId.unset }) ∧
      Thread (fun id => Ends (f id)) (es.map StructEntry.id) s (fs.map StructEntry.id) t := by
  apply thread_field
  intro e e' id
  cases e'
  simp only [StructEntry.mk.injEq]
  tauto

lemma thread_mapIds (f : NodeId → m NodeId) (es fs : List (MapEntry α)) (s t : σ) :
    Thread (fun e : MapEntry α => Ends (do
      let id ← f e.id
      pure { e with id := id })) es s fs t ↔
    fs.map (fun e => { e with id := NodeId.unset }) = es.map (fun e => { e with id := NodeId.unset }) ∧
      Thread (fun id => Ends (f id)) (es.map MapEntry.id) s (fs.map MapEntry.id) t := by
  apply thread_field
  intro e e' id
  cases e'
  simp only [MapEntry.mk.injEq]
  tauto

/-- Traversing the entry ids threads the state through them and keeps the rest. -/
theorem ends_traverseEntryIds [LawfulMonad m] (f : NodeId → m NodeId) (k l : Kind α) (s t : σ) :
    Ends (k.traverseEntryIds f) s l t ↔
      l.mapEntryIds (fun _ => .unset) = k.mapEntryIds (fun _ => .unset) ∧
        Thread (fun id => Ends (f id)) k.entryIds s l.entryIds t := by
  cases k with
  | struct literal =>
    simp only [traverseEntryIds, ends_bind, ends_pure, entryIds, ends_listMapM, thread_structIds,
      mapEntryIds_struct]
    constructor
    · rintro ⟨entries, _, ⟨hlabels, hids⟩, rfl, rfl⟩
      exact ⟨by rw [mapEntryIds_struct, hlabels], hids⟩
    · rintro ⟨hrest, h⟩
      cases l with
      | struct literal' =>
        simp only [mapEntryIds_struct, struct.injEq, StructLiteral.mk.injEq] at hrest
        exact ⟨_, t, ⟨hrest.2, h⟩, by rw [← hrest.1], rfl⟩
      | map literal' => simp [mapEntryIds_map] at hrest
      | _ => exact absurd hrest (by simp [mapEntryIds, traverseEntryIds])
  | map literal =>
    simp only [traverseEntryIds, ends_bind, ends_pure, entryIds, ends_listMapM, thread_mapIds,
      mapEntryIds_map]
    constructor
    · rintro ⟨entries, _, ⟨hlabels, hids⟩, rfl, rfl⟩
      exact ⟨by rw [mapEntryIds_map, hlabels], hids⟩
    · rintro ⟨hrest, h⟩
      cases l with
      | map literal' =>
        simp only [mapEntryIds_map, map.injEq, MapLiteral.mk.injEq] at hrest
        exact ⟨_, t, ⟨hrest, h⟩, rfl, rfl⟩
      | struct literal' => simp [mapEntryIds_struct] at hrest
      | _ => exact absurd hrest (by simp [mapEntryIds, traverseEntryIds])
  | _ =>
    simp only [traverseEntryIds, ends_pure, entryIds, Thread.nil_iff]
    constructor
    · rintro ⟨rfl, rfl⟩
      exact ⟨rfl, rfl, rfl⟩
    · rintro ⟨hrest, hids, rfl⟩
      exact ⟨eq_of_mapEntryIds_unset hrest hids, rfl⟩

end Traversals

/-! ### Refilling -/

/-- The next value of a list, or the old one when none is left. -/
def takeNext (a : α) : StateM (List α) α := fun as =>
  match as with
  | [] => (a, [])
  | b :: bs => (b, bs)

/-- The kind with other children in the places of its own. -/
def withChildren (k : Kind α) (cs : List α) : Kind α := (k.traverse takeNext cs).1

/-- The kind with other entry ids in the places of its own. -/
def withEntryIds (k : Kind α) (ids : List NodeId) : Kind α := (k.traverseEntryIds takeNext ids).1

lemma thread_takeNext {as bs cs ds : List α} (hlength : cs.length = as.length)
    (h : Thread (fun a => Ends (takeNext a)) as cs bs ds) : bs = cs := by
  induction h with
  | nil => exact (List.length_eq_zero_iff.1 hlength).symm
  | @cons a as b bs s t u head _ ih =>
    obtain _ | ⟨c, cs⟩ := s
    · simp at hlength
    · cases head
      rw [ih (by simpa using hlength)]

lemma shape_withChildren (k : Kind α) (cs : List α) : (k.withChildren cs).shape = k.shape :=
  ((ends_traverse takeNext k cs _ _).1 rfl).1

lemma children_withChildren {k : Kind α} {cs : List α} (h : cs.length = k.children.length) :
    (k.withChildren cs).children = cs :=
  thread_takeNext h ((ends_traverse takeNext k cs _ _).1 rfl).2

lemma withChildren_children (k : Kind α) : k.withChildren k.children = k :=
  eq_of_shape_of_children (shape_withChildren ..) (children_withChildren rfl)

lemma mapEntryIds_withEntryIds (k : Kind α) (ids : List NodeId) :
    (k.withEntryIds ids).mapEntryIds (fun _ => .unset) = k.mapEntryIds (fun _ => .unset) :=
  ((ends_traverseEntryIds takeNext k _ ids _).1 rfl).1

lemma entryIds_withEntryIds {k : Kind α} {ids : List NodeId} (h : ids.length = k.entryIds.length) :
    (k.withEntryIds ids).entryIds = ids :=
  thread_takeNext h ((ends_traverseEntryIds takeNext k _ ids _).1 rfl).2

end CelEdit.Kind
