import CelEdit.Expr.Navigation
import CelEdit.Proofs.Layers
import Mathlib.Data.List.Nodup

/-!
# Trees and their ids

Equations for the functions on trees, and the two parts of a tree that renumbering keeps apart: the
tree without its ids, and the list of its ids. Together they determine the tree.
-/

namespace CelEdit.Expr

/-- The ids of nodes and entries: each node, then its own entries, then its children. -/
def slots : Expr → List NodeId := fold fun id k => id :: k.entryIds ++ k.children.flatMap Prod.snd

/-- No id is given to two nodes or entries. -/
def DistinctIds (e : Expr) : Prop := (e.slots.filter NodeId.isSet).Nodup

instance (e : Expr) : Decidable e.DistinctIds := inferInstanceAs (Decidable (List.Nodup _))

/-- Applies a function to the ids of nodes and entries. -/
def mapIds (f : NodeId → NodeId) : Expr → Expr :=
  fold fun id k => ⟨f id, (k.mapChildren Prod.snd).mapEntryIds f⟩

variable {ι κ : Type}

section Equations

variable {β : Type} (f : Expr ι → β) (id : ι) (k : Kind (Expr ι))

lemma children_paired :
    (k.mapChildren (fun c => (c, f c))).children = k.children.map (fun c => (c, f c)) :=
  Kind.children_mapChildren ..

lemma fst_paired : (k.mapChildren (fun c => (c, f c))).mapChildren Prod.fst = k :=
  (Kind.mapChildren_mapChildren ..).trans (Kind.mapChildren_id k)

lemma snd_paired : (k.mapChildren (fun c => (c, f c))).mapChildren Prod.snd = k.mapChildren f :=
  Kind.mapChildren_mapChildren ..

lemma assemble_paired : assemble id (k.mapChildren (fun c => (c, f c))) = ⟨id, k⟩ := by
  rw [assemble, fst_paired]

end Equations

lemma slots_mk (id : NodeId) (k : Kind Expr) :
    slots ⟨id, k⟩ = id :: k.entryIds ++ k.children.flatMap slots := by
  conv_lhs => unfold slots
  rw [fold_eq, Kind.entryIds_mapChildren, children_paired, List.flatMap_map]
  rfl

lemma mapIds_mk (f : NodeId → NodeId) (id : NodeId) (k : Kind Expr) :
    mapIds f ⟨id, k⟩ = ⟨f id, (k.mapChildren (mapIds f)).mapEntryIds f⟩ := by
  conv_lhs => unfold mapIds
  rw [fold_eq, snd_paired]
  rfl

lemma relabel_mk (f : ι → κ) (id : ι) (k : Kind (Expr ι)) :
    relabel f ⟨id, k⟩ = ⟨f id, k.mapChildren (relabel f)⟩ := by
  conv_lhs => unfold relabel
  rw [fold_eq, snd_paired]
  rfl

lemma preorder_mk (id : ι) (k : Kind (Expr ι)) :
    preorder ⟨id, k⟩ = ⟨id, k⟩ :: k.children.flatMap preorder := by
  conv_lhs => unfold preorder
  rw [fold_eq, assemble_paired, children_paired, List.flatMap_map]
  rfl

lemma find?_mk (target id : NodeId) (k : Kind Expr) :
    find? target ⟨id, k⟩ =
      if id = target then some ⟨id, k⟩ else k.children.findSome? (find? target) := by
  conv_lhs => unfold find?
  rw [fold_eq, assemble_paired, children_paired, List.findSome?_map]
  rfl

lemma maxId_mk (id : NodeId) (k : Kind Expr) :
    maxId ⟨id, k⟩ = NodeId.largest id (k.entryIds ++ k.children.map maxId) := by
  conv_lhs => unfold maxId
  rw [fold_eq, Kind.entryIds_mapChildren, children_paired, List.map_map]
  rfl

/-! ### Shape and ids -/

lemma eraseIds_mk (id : NodeId) (k : Kind Expr) :
    eraseIds ⟨id, k⟩ = ⟨.unset, (k.mapChildren eraseIds).mapEntryIds (fun _ => .unset)⟩ :=
  mapIds_mk _ id k

lemma eraseIds_eq_iff (id id' : NodeId) (k k' : Kind Expr) :
    eraseIds ⟨id, k⟩ = eraseIds ⟨id', k'⟩ ↔
      k.outline = k'.outline ∧ k.children.map eraseIds = k'.children.map eraseIds := by
  rw [eraseIds_mk, eraseIds_mk]
  constructor
  · intro h
    have hkind := (Expr.mk.inj h).2
    constructor
    · simpa using congrArg Kind.outline hkind
    · simpa using congrArg Kind.children hkind
  · rintro ⟨houtline, hchildren⟩
    congr 1
    apply Kind.eq_of_outline
    · simpa using houtline
    · simp only [Kind.entryIds_mapEntryIds, Kind.entryIds_mapChildren, List.map_const',
        Kind.length_entryIds_eq houtline]
    · simpa using hchildren

lemma forall₂_of_map_eraseIds {cs cs' : List Expr} (h : cs.map eraseIds = cs'.map eraseIds) :
    List.Forall₂ (fun c c' => c.eraseIds = c'.eraseIds) cs cs' := by
  rw [← List.forall₂_eq_eq_eq, List.forall₂_map_left_iff, List.forall₂_map_right_iff] at h
  exact h

/-- Induction over two trees that differ in their ids only. -/
theorem induct₂ {P : Expr → Expr → Prop}
    (node : ∀ id id' k k', Kind.outline k = Kind.outline k' →
      List.Forall₂ (fun c c' => c.eraseIds = c'.eraseIds ∧ P c c') k.children k'.children →
      P ⟨id, k⟩ ⟨id', k'⟩)
    (e e' : Expr) (h : e.eraseIds = e'.eraseIds) : P e e' := by
  induction e using induct generalizing e' with
  | node id k ih =>
    obtain ⟨id', k'⟩ := e'
    obtain ⟨houtline, hchildren⟩ := (eraseIds_eq_iff ..).1 h
    apply node id id' k k' houtline
    have hpairs := forall₂_of_map_eraseIds hchildren
    rw [List.forall₂_iff_zip] at hpairs ⊢
    refine ⟨hpairs.1, fun {c c'} hc => ?_⟩
    have herased := hpairs.2 hc
    exact ⟨herased, ih c (List.of_mem_zip hc).1 c' herased⟩

lemma length_slots_eq {e e' : Expr} (h : e.eraseIds = e'.eraseIds) :
    e.slots.length = e'.slots.length := by
  apply induct₂ _ e e' h
  intro id id' k k' houtline hchildren
  have hflat : (k.children.flatMap slots).length = (k'.children.flatMap slots).length := by
    generalize k.children = cs, k'.children = cs' at hchildren
    induction hchildren with
    | nil => rfl
    | cons hc _ ih =>
      rw [List.flatMap_cons, List.flatMap_cons, List.length_append, List.length_append, hc.2, ih]
  simp only [slots_mk, List.cons_append, List.length_cons, List.length_append,
    Kind.length_entryIds_eq houtline, hflat]

lemma nodeCount_eq {e e' : Expr} (h : e.eraseIds = e'.eraseIds) : e.nodeCount = e'.nodeCount := by
  apply induct₂ _ e e' h
  intro id id' k k' _ hchildren
  have hcounts : k.children.map nodeCount = k'.children.map nodeCount := by
    generalize k.children = cs, k'.children = cs' at hchildren
    induction hchildren with
    | nil => rfl
    | cons hc _ ih => rw [List.map_cons, List.map_cons, hc.2, ih]
  rw [nodeCount_mk, nodeCount_mk, hcounts]

lemma length_flatMap_slots_eq {cs cs' : List Expr} (h : cs.map eraseIds = cs'.map eraseIds) :
    (cs.flatMap slots).length = (cs'.flatMap slots).length := by
  have hpairs := forall₂_of_map_eraseIds h
  clear h
  induction hpairs with
  | nil => rfl
  | cons hc _ ih =>
    rw [List.flatMap_cons, List.flatMap_cons, List.length_append, List.length_append,
      length_slots_eq hc, ih]

/-- The second tree is the first one with ids exchanged according to a relation. -/
def Relabels (R : NodeId → NodeId → Prop) (e e' : Expr) : Prop :=
  e'.eraseIds = e.eraseIds ∧ List.Forall₂ R e.slots e'.slots

lemma forall₂_slots_iff {R : NodeId → NodeId → Prop} {cs cs' : List Expr} :
    cs'.map eraseIds = cs.map eraseIds ∧
      List.Forall₂ R (cs.flatMap slots) (cs'.flatMap slots) ↔
    List.Forall₂ (Relabels R) cs cs' := by
  constructor
  · rintro ⟨hshape, hslots⟩
    have hpairs := forall₂_of_map_eraseIds hshape.symm
    clear hshape
    induction hpairs with
    | nil => exact .nil
    | cons hc _ ih =>
      rw [List.flatMap_cons, List.flatMap_cons, forall₂_append_iff (length_slots_eq hc)] at hslots
      exact .cons ⟨hc.symm, hslots.1⟩ (ih hslots.2)
  · intro h
    induction h with
    | nil => exact ⟨rfl, .nil⟩
    | cons hc _ ih =>
      rw [List.map_cons, List.map_cons, hc.1, ih.1, List.flatMap_cons, List.flatMap_cons]
      exact ⟨rfl, List.rel_append hc.2 ih.2⟩

/-- Relabelling goes node by node. -/
theorem relabels_mk_iff {R : NodeId → NodeId → Prop} {id id' : NodeId} {k k' : Kind Expr} :
    Relabels R ⟨id, k⟩ ⟨id', k'⟩ ↔ R id id' ∧ k'.outline = k.outline ∧
      List.Forall₂ R k.entryIds k'.entryIds ∧ List.Forall₂ (Relabels R) k.children k'.children := by
  rw [Relabels, eraseIds_eq_iff, slots_mk, slots_mk, ← forall₂_slots_iff]
  simp only [List.cons_append, List.forall₂_cons]
  constructor
  · rintro ⟨⟨houtline, hchildren⟩, hid, hslots⟩
    rw [forall₂_append_iff (Kind.length_entryIds_eq houtline.symm)] at hslots
    exact ⟨hid, houtline, hslots.1, hchildren, hslots.2⟩
  · rintro ⟨hid, houtline, hentries, hchildren, hslots⟩
    exact ⟨⟨houtline, hchildren⟩, hid, List.rel_append hentries hslots⟩

lemma Relabels.id {R : NodeId → NodeId → Prop} {e e' : Expr} (h : Relabels R e e') :
    R e.id e'.id := by
  cases e
  cases e'
  exact (relabels_mk_iff.1 h).1

lemma eq_of_relabels_eq {e e' : Expr} (h : Relabels Eq e e') : e' = e := by
  apply induct₂ (P := fun e e' => Relabels Eq e e' → e' = e) _ e e' h.1.symm h
  intro id id' k k' _ hchildren h
  obtain ⟨rfl, houtline, hentries, hpairs⟩ := relabels_mk_iff.1 h
  congr 1
  apply Kind.eq_of_outline houtline
  · rw [List.forall₂_eq_eq_eq] at hentries
    exact hentries.symm
  · clear h houtline hentries
    generalize k.children = cs, k'.children = cs' at hchildren hpairs
    induction hchildren with
    | nil => rfl
    | cons hc _ ih =>
      obtain ⟨hhead, htail⟩ := List.forall₂_cons.1 hpairs
      rw [hc.2 hhead, ih htail]

/-- A tree is determined by its shape and the list of its ids. -/
theorem eq_of_eraseIds_of_slots {e e' : Expr} (hshape : e.eraseIds = e'.eraseIds)
    (hslots : e.slots = e'.slots) : e = e' := by
  apply eq_of_relabels_eq
  refine ⟨hshape, ?_⟩
  rw [hslots]
  exact List.forall₂_same.2 (fun _ _ => rfl)

lemma exists_children_slots_eq {cs : List Expr}
    (ih : ∀ c ∈ cs, ∀ js : List NodeId, js.length = c.slots.length →
      ∃ c' : Expr, c'.eraseIds = c.eraseIds ∧ c'.slots = js)
    (js : List NodeId) (h : js.length = (cs.flatMap slots).length) :
    ∃ cs' : List Expr, cs'.map eraseIds = cs.map eraseIds ∧ cs'.flatMap slots = js := by
  induction cs generalizing js with
  | nil =>
    rw [List.flatMap_nil, List.length_nil, List.length_eq_zero_iff] at h
    exact ⟨[], rfl, h.symm⟩
  | cons c cs ihcs =>
    rw [List.flatMap_cons, List.length_append] at h
    obtain ⟨c', hshape, hslots⟩ :=
      ih c List.mem_cons_self (js.take c.slots.length) (by rw [List.length_take]; omega)
    obtain ⟨cs', hshapes, hrest⟩ :=
      ihcs (fun d hd => ih d (List.mem_cons_of_mem _ hd)) (js.drop c.slots.length)
        (by rw [List.length_drop]; omega)
    refine ⟨c' :: cs', by rw [List.map_cons, List.map_cons, hshape, hshapes], ?_⟩
    rw [List.flatMap_cons, hslots, hrest, List.take_append_drop]

/-- As many ids as a tree has can be given to a tree of its shape. -/
theorem exists_slots_eq (e : Expr) {js : List NodeId} (h : js.length = e.slots.length) :
    ∃ e' : Expr, e'.eraseIds = e.eraseIds ∧ e'.slots = js := by
  induction e using induct generalizing js with
  | node id k ih =>
    rw [slots_mk, List.cons_append, List.length_cons, List.length_append] at h
    obtain _ | ⟨j, js⟩ := js
    · cases h
    rw [List.length_cons, Nat.add_right_cancel_iff] at h
    have hentries : (js.take k.entryIds.length).length = k.entryIds.length := by
      rw [List.length_take]
      omega
    obtain ⟨cs, hshapes, hslots⟩ := exists_children_slots_eq (fun c hc js => ih c hc)
      (js.drop k.entryIds.length) (by rw [List.length_drop]; omega)
    have hrest := Kind.mapEntryIds_withEntryIds k (js.take k.entryIds.length)
    have houtline := congrArg Kind.outline hrest
    have hchildren := congrArg Kind.children hrest
    simp only [Kind.outline_mapEntryIds] at houtline
    simp only [Kind.children_mapEntryIds] at hchildren
    have hcs : cs.length = (k.withEntryIds (js.take k.entryIds.length)).children.length := by
      rw [hchildren, ← List.length_map (f := eraseIds), hshapes, List.length_map]
    have hshape := Kind.shape_withChildren (k.withEntryIds (js.take k.entryIds.length)) cs
    refine ⟨⟨j, (k.withEntryIds (js.take k.entryIds.length)).withChildren cs⟩, ?_, ?_⟩
    · rw [eraseIds_eq_iff, Kind.outline_eq_of_shape_eq hshape, Kind.children_withChildren hcs]
      exact ⟨houtline, hshapes⟩
    · rw [slots_mk, Kind.entryIds_eq_of_shape_eq hshape, Kind.entryIds_withEntryIds hentries,
        Kind.children_withChildren hcs, hslots, List.cons_append, List.take_append_drop]

lemma relabels_mapIds (f : NodeId → NodeId) (e : Expr) :
    Relabels (fun i j => j = f i) e (e.mapIds f) := by
  induction e using induct with
  | node id k ih =>
    rw [mapIds_mk, relabels_mk_iff]
    refine ⟨rfl, by simp, ?_, ?_⟩
    · rw [Kind.entryIds_mapEntryIds, Kind.entryIds_mapChildren, List.forall₂_map_right_iff]
      exact List.forall₂_same.2 (fun _ _ => rfl)
    · rw [Kind.children_mapEntryIds, Kind.children_mapChildren, List.forall₂_map_right_iff]
      exact List.forall₂_same.2 ih

lemma slots_mapIds (f : NodeId → NodeId) (e : Expr) : (e.mapIds f).slots = e.slots.map f :=
  forall₂_eq_map_iff.1 (relabels_mapIds f e).2

lemma eraseIds_mapIds (f : NodeId → NodeId) (e : Expr) : (e.mapIds f).eraseIds = e.eraseIds :=
  (relabels_mapIds f e).1

lemma eq_mapIds {f : NodeId → NodeId} {e e' : Expr} (hshape : e'.eraseIds = e.eraseIds)
    (hslots : e'.slots = e.slots.map f) : e' = e.mapIds f := by
  apply eq_of_eraseIds_of_slots
  · rw [hshape, eraseIds_mapIds]
  · rw [hslots, slots_mapIds]

lemma id_mapIds (f : NodeId → NodeId) (e : Expr) : (e.mapIds f).id = f e.id := by
  obtain ⟨id, k⟩ := e
  rw [mapIds_mk]

lemma mapIds_mapIds (f g : NodeId → NodeId) (e : Expr) :
    (e.mapIds f).mapIds g = e.mapIds (g ∘ f) := by
  apply eq_mapIds
  · rw [eraseIds_mapIds, eraseIds_mapIds]
  · rw [slots_mapIds, slots_mapIds, List.map_map]

lemma mapIds_id (e : Expr) : e.mapIds (fun i => i) = e := by
  symm
  apply eq_mapIds rfl
  rw [List.map_id']

/-! ### Nodes in pre-order -/

lemma mem_preorder_mk {x : Expr ι} {id : ι} {k : Kind (Expr ι)} :
    x ∈ preorder ⟨id, k⟩ ↔ x = ⟨id, k⟩ ∨ ∃ c ∈ k.children, x ∈ c.preorder := by
  rw [preorder_mk, List.mem_cons, List.mem_flatMap]

lemma forall_mem_preorder_mk {P : Expr ι → Prop} {id : ι} {k : Kind (Expr ι)} :
    (∀ x ∈ preorder ⟨id, k⟩, P x) ↔ P ⟨id, k⟩ ∧ ∀ c ∈ k.children, ∀ x ∈ c.preorder, P x := by
  rw [preorder_mk, List.forall_mem_cons, List.forall_mem_flatMap]

lemma self_mem_preorder (e : Expr ι) : e ∈ e.preorder := by
  cases e
  exact mem_preorder_mk.2 (.inl rfl)

lemma mem_preorder_of_mem_children {c e : Expr ι} (h : c ∈ e.children) : c ∈ e.preorder := by
  cases e
  exact mem_preorder_mk.2 (.inr ⟨c, h, self_mem_preorder c⟩)

lemma mem_preorder_trans {x y e : Expr ι} (hxy : x ∈ y.preorder) (hye : y ∈ e.preorder) :
    x ∈ e.preorder := by
  induction e using induct with
  | node id k ih =>
    rcases mem_preorder_mk.1 hye with rfl | ⟨c, hc, hyc⟩
    · exact hxy
    · exact mem_preorder_mk.2 (.inr ⟨c, hc, ih c hc hyc⟩)

lemma slots_sublist_of_mem_preorder {x e : Expr} (h : x ∈ e.preorder) : x.slots.Sublist e.slots := by
  induction e using induct with
  | node id k ih =>
    rcases mem_preorder_mk.1 h with rfl | ⟨c, hc, hx⟩
    · exact List.Sublist.refl _
    · have hflat : c.slots.Sublist (k.children.flatMap slots) := by
        rw [List.flatMap_def]
        exact List.sublist_flatten_of_mem (List.mem_map_of_mem hc)
      rw [slots_mk]
      exact ((ih c hc hx).trans hflat).trans (List.sublist_append_right ..)

lemma ids_sublist_slots (e : Expr) : (e.preorder.map Expr.id).Sublist e.slots := by
  induction e using induct with
  | node id k ih =>
    have hchildren : ∀ cs : List Expr, (∀ c ∈ cs, (c.preorder.map Expr.id).Sublist c.slots) →
        ((cs.flatMap preorder).map Expr.id).Sublist (cs.flatMap slots) := by
      intro cs
      induction cs with
      | nil => exact fun _ => List.Sublist.refl _
      | cons c cs ihcs =>
        intro hcs
        rw [List.flatMap_cons, List.flatMap_cons, List.map_append]
        exact (hcs c List.mem_cons_self).append
          (ihcs (fun d hd => hcs d (List.mem_cons_of_mem _ hd)))
    rw [preorder_mk, slots_mk, List.map_cons, List.cons_append]
    exact ((hchildren _ ih).trans (List.sublist_append_right ..)).cons_cons id

lemma id_mem_slots {x e : Expr} (h : x ∈ e.preorder) : x.id ∈ e.slots :=
  (ids_sublist_slots e).subset (List.mem_map_of_mem h)

lemma DistinctIds.of_mem_preorder {x e : Expr} (he : e.DistinctIds) (h : x ∈ e.preorder) :
    x.DistinctIds :=
  List.Nodup.sublist ((slots_sublist_of_mem_preorder h).filter _) he

/-- In a tree with distinct ids an id that is set names one node. -/
theorem DistinctIds.node_eq {x y e : Expr} (he : e.DistinctIds) (hx : x ∈ e.preorder)
    (hy : y ∈ e.preorder) (hset : x.id.isSet) (hid : x.id = y.id) : x = y := by
  have hnodup : ((e.preorder.filter (fun n => n.id.isSet)).map Expr.id).Nodup := by
    have hsublist := (ids_sublist_slots e).filter NodeId.isSet
    rw [List.filter_map] at hsublist
    exact List.Nodup.sublist hsublist he
  apply List.inj_on_of_nodup_map hnodup _ _ hid
  · exact List.mem_filter.2 ⟨hx, hset⟩
  · exact List.mem_filter.2 ⟨hy, hid ▸ hset⟩

end CelEdit.Expr

namespace CelEdit.NodeId

lemma isSet_iff {i : NodeId} : i.isSet = true ↔ i ≠ unset := by
  rw [isSet, bne_iff_ne]

lemma isSet_of_lt {i j : NodeId} (h : i.toNat < j.toNat) : j.isSet = true := by
  rw [isSet_iff]
  rintro rfl
  exact Nat.not_lt_zero _ h

lemma le_largest (base : NodeId) (ids : List NodeId) :
    base.toNat ≤ (largest base ids).toNat ∧ ∀ i ∈ ids, i.toNat ≤ (largest base ids).toNat := by
  induction ids generalizing base with
  | nil => simp [largest]
  | cons i ids ih =>
    have hstep : largest base (i :: ids) = largest (if base.value < i.value then i else base) ids := rfl
    rw [hstep]
    obtain ⟨hbase, hids⟩ := ih (if base.value < i.value then i else base)
    have hle : base.toNat ≤ (if base.value < i.value then i else base).toNat ∧
        i.toNat ≤ (if base.value < i.value then i else base).toNat := by
      by_cases hlt : base.value < i.value
      · rw [if_pos hlt]
        exact ⟨Nat.le_of_lt (UInt64.lt_iff_toNat_lt.1 hlt), Nat.le_refl _⟩
      · rw [if_neg hlt]
        exact ⟨Nat.le_refl _, Nat.le_of_not_lt (fun h => hlt (UInt64.lt_iff_toNat_lt.2 h))⟩
    refine ⟨by omega, fun j hj => ?_⟩
    rcases List.mem_cons.1 hj with rfl | hj
    · omega
    · exact hids j hj

end CelEdit.NodeId

namespace CelEdit.Expr

lemma toNat_le_maxId {e : Expr} {i : NodeId} (h : i ∈ e.slots) : i.toNat ≤ e.maxId.toNat := by
  induction e using induct with
  | node id k ih =>
    rw [maxId_mk]
    obtain ⟨hbase, hids⟩ := NodeId.le_largest id (k.entryIds ++ k.children.map maxId)
    rw [slots_mk, List.cons_append, List.mem_cons, List.mem_append, List.mem_flatMap] at h
    rcases h with rfl | h | ⟨c, hc, hi⟩
    · exact hbase
    · exact hids i (List.mem_append_left _ h)
    · have hchild := ih c hc hi
      have hlargest := hids _ (List.mem_append_right _ (List.mem_map_of_mem hc))
      omega

end CelEdit.Expr
