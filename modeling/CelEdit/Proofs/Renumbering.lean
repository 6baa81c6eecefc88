import CelEdit.Proofs.Supplies

/-!
# Renumbering

A walk that renumbers a tree keeps its shape, pays for its nodes and hands the ids of the tree, in
order, to the renaming. Conversely every such run of the renaming is a run of the walk.
-/

namespace CelEdit.Expr

open Runs

section Node

variable {m : Type → Type} {σ : Type} [Monad m] [LawfulMonad m] [Runs m σ]

/-- One node of a renumbering walk: its id, the ids of its entries, then its children. -/
lemma ends_renumberNode (f : NodeId → m NodeId) (walk : Expr → m Expr) (id id' : NodeId)
    (k k' : Kind Expr) (s t : σ) :
    Ends (do
      let id ← f id
      let k ← (k.mapChildren (fun c => (c, walk c))).traverseEntryIds f
      let k ← k.traverse Prod.snd
      pure (Expr.mk id k)) s ⟨id', k'⟩ t ↔
    ∃ s₁ s₂, Ends (f id) s id' s₁ ∧ k'.outline = k.outline ∧
      Thread (fun i => Ends (f i)) k.entryIds s₁ k'.entryIds s₂ ∧
      Thread (fun c => Ends (walk c)) k.children s₂ k'.children t := by
  simp only [ends_bind, ends_pure, Kind.ends_traverse, Kind.ends_traverseEntryIds,
    Kind.entryIds_mapChildren]
  constructor
  · rintro ⟨i, s₁, hid, l, s₂, ⟨hrest, hentries⟩, _, t', ⟨hshape, hchildren⟩, hmk, rfl⟩
    obtain ⟨rfl, rfl⟩ := Expr.mk.inj hmk
    have houtline := congrArg Kind.outline hrest
    have hchildrenEq := congrArg Kind.children hrest
    simp only [Kind.outline_mapEntryIds, Kind.outline_mapChildren] at houtline
    simp only [Kind.children_mapEntryIds, Kind.children_mapChildren] at hchildrenEq
    rw [hchildrenEq, Thread.map_left] at hchildren
    refine ⟨s₁, s₂, hid, ?_, ?_, hchildren⟩
    · rw [Kind.outline_eq_of_shape_eq hshape, houtline]
    · rw [Kind.entryIds_eq_of_shape_eq hshape]
      exact hentries
  · rintro ⟨s₁, s₂, hid, houtline, hentries, hchildren⟩
    have hlength : k'.entryIds.length =
        (k.mapChildren (fun c => (c, walk c))).entryIds.length := by
      rw [hentries.length_eq, Kind.entryIds_mapChildren]
    have hids := Kind.entryIds_withEntryIds hlength
    have hrest := Kind.mapEntryIds_withEntryIds (k.mapChildren (fun c => (c, walk c))) k'.entryIds
    have hchildrenEq := congrArg Kind.children hrest
    simp only [Kind.children_mapEntryIds, Kind.children_mapChildren] at hchildrenEq
    refine ⟨id', s₁, hid, _, s₂, ⟨hrest, hids.symm ▸ hentries⟩, k', t, ⟨?_, ?_⟩, rfl, rfl⟩
    · apply Kind.eq_of_mapEntryIds_unset
      · have houtline' := congrArg Kind.outline hrest
        simp only [Kind.outline_mapEntryIds, Kind.outline_mapChildren] at houtline'
        exact houtline.trans houtline'.symm
      · rw [Kind.entryIds_shape, Kind.entryIds_shape, hids]
    · rw [hchildrenEq, Thread.map_left]
      exact hchildren

end Node

lemma ends_pay {b b' : Nat} {s s' : IdSupply} {a : Unit} :
    Ends (Walk.pay : Walk Mint Unit) (b, s) a (b', s') ↔ b = b' + 1 ∧ s' = s := by
  cases b with
  | zero =>
    constructor
    · intro h
      cases h
    · rintro ⟨h, -⟩
      omega
  | succ b =>
    change Except.ok (((), b), s) = Except.ok ((a, b'), s') ↔ _
    rw [Except.ok.injEq, Prod.mk.injEq, Prod.mk.injEq]
    constructor
    · rintro ⟨⟨-, rfl⟩, rfl⟩
      exact ⟨rfl, rfl⟩
    · rintro ⟨h, rfl⟩
      exact ⟨⟨rfl, by omega⟩, rfl⟩

lemma renumber_mk (rename : Renaming) (id : NodeId) (k : Kind Expr) :
    renumber rename ⟨id, k⟩ = (do
      Walk.pay
      let id ← (liftM (rename id) : Walk Mint NodeId)
      let k ← (k.mapChildren (fun c => (c, renumber rename c))).traverseEntryIds
        (fun entry => (liftM (rename entry) : Walk Mint NodeId))
      let k ← k.traverse Prod.snd
      pure ⟨id, k⟩) := by
  conv_lhs => unfold renumber
  rw [fold_eq]
  rfl

lemma ends_renumber_mk {rename : Renaming} {id id' : NodeId} {k k' : Kind Expr} {b b' : Nat}
    {s s' : IdSupply} :
    Ends (renumber rename ⟨id, k⟩) (b, s) ⟨id', k'⟩ (b', s') ↔
      ∃ b₁ s₁ s₂, b = b₁ + 1 ∧ Ends (rename id) s id' s₁ ∧ k'.outline = k.outline ∧
        Thread (fun i => Ends (rename i)) k.entryIds s₁ k'.entryIds s₂ ∧
        Thread (fun c => Ends (renumber rename c)) k.children (b₁, s₂) k'.children (b', s') := by
  have hnode := ends_renumberNode (fun i => (liftM (rename i) : Walk Mint NodeId)) (renumber rename)
    id id' k k'
  rw [renumber_mk, ends_bind]
  constructor
  · rintro ⟨_, ⟨b₀, s₀⟩, hpay, h⟩
    obtain ⟨rfl, rfl⟩ := ends_pay.1 hpay
    obtain ⟨⟨b₁, s₁⟩, ⟨b₂, s₂⟩, hid, houtline, hentries, hchildren⟩ := (hnode ..).1 h
    obtain ⟨rfl, hid'⟩ := (ends_lift ..).1 hid
    obtain ⟨rfl, hentries'⟩ := thread_lift.1 hentries
    exact ⟨b₂, s₁, s₂, rfl, hid', houtline, hentries', hchildren⟩
  · rintro ⟨b₁, s₁, s₂, rfl, hid, houtline, hentries, hchildren⟩
    refine ⟨(), (b₁, s), ends_pay.2 ⟨rfl, rfl⟩, (hnode ..).2 ⟨(b₁, s₁), (b₁, s₂), ?_, houtline, ?_,
      hchildren⟩⟩
    · exact (ends_lift ..).2 ⟨rfl, hid⟩
    · exact thread_lift.2 ⟨rfl, hentries⟩

/-- What a successful walk over a list of trees amounts to. -/
def RenumbersAll (rename : Renaming) (cs : List Expr) (b : Nat) (s : IdSupply) (cs' : List Expr)
    (b' : Nat) (s' : IdSupply) : Prop :=
  cs'.map eraseIds = cs.map eraseIds ∧ b = (cs.map nodeCount).foldr (· + ·) b' ∧
    Thread (fun i => Ends (rename i)) (cs.flatMap slots) s (cs'.flatMap slots) s'

lemma thread_renumber {rename : Renaming} {cs cs' : List Expr} {b b' : Nat} {s s' : IdSupply}
    (ih : ∀ c ∈ cs, ∀ {c' b b' s s'}, Ends (renumber rename c) (b, s) c' (b', s') ↔
      c'.eraseIds = c.eraseIds ∧ b = b' + c.nodeCount ∧
        Thread (fun i => Ends (rename i)) c.slots s c'.slots s') :
    Thread (fun c => Ends (renumber rename c)) cs (b, s) cs' (b', s') ↔
      RenumbersAll rename cs b s cs' b' s' := by
  unfold RenumbersAll
  induction cs generalizing cs' b s with
  | nil =>
    simp only [Thread.nil_iff, Prod.mk.injEq, List.map_nil, List.map_eq_nil_iff, List.flatMap_nil,
      List.foldr_nil]
    constructor
    · rintro ⟨rfl, rfl, rfl⟩
      exact ⟨rfl, rfl, rfl, rfl⟩
    · rintro ⟨rfl, rfl, -, rfl⟩
      exact ⟨rfl, rfl, rfl⟩
  | cons c cs ihcs =>
    have ihc := fun {c' b b' s s'} => @ih c List.mem_cons_self c' b b' s s'
    have ihcs := fun {cs' b s} =>
      @ihcs cs' b s (fun d hd {c' b b' s s'} => ih d (List.mem_cons_of_mem _ hd))
    simp only [Thread.cons_iff, Prod.exists, ihc, ihcs, List.map_cons, List.foldr_cons,
      List.flatMap_cons]
    constructor
    · rintro ⟨c', cs', b₁, s₁, rfl, ⟨hshape, rfl, hc⟩, hshapes, rfl, hcs⟩
      refine ⟨by rw [List.map_cons, hshape, hshapes], by omega, ?_⟩
      rw [List.flatMap_cons]
      exact hc.append hcs
    · rintro ⟨hshapes, rfl, h⟩
      obtain _ | ⟨c', cs'⟩ := cs'
      · simp at hshapes
      · rw [List.map_cons, List.cons.injEq] at hshapes
        rw [List.flatMap_cons] at h
        obtain ⟨s₁, hc, hcs⟩ := h.split (length_slots_eq hshapes.1)
        exact ⟨c', cs', (cs.map nodeCount).foldr (· + ·) b', s₁, rfl,
          ⟨hshapes.1, Nat.add_comm .., hc⟩, hshapes.2, rfl, hcs⟩

/-- Renumbering succeeds exactly when the budget covers the nodes and the renaming accepts the ids in
order; the result has the same shape and the new ids. -/
theorem ends_renumber {rename : Renaming} {e e' : Expr} {b b' : Nat} {s s' : IdSupply} :
    Ends (renumber rename e) (b, s) e' (b', s') ↔
      e'.eraseIds = e.eraseIds ∧ b = b' + e.nodeCount ∧
        Thread (fun i => Ends (rename i)) e.slots s e'.slots s' := by
  induction e using induct generalizing e' b b' s s' with
  | node id k ih =>
    obtain ⟨id', k'⟩ := e'
    -- counting the children from `b'` and then the node is counting all of them from `b'`
    have hcount : (k.children.map nodeCount).foldr (· + ·) b' + 1 =
        b' + (k.children.map nodeCount).foldr (· + ·) 1 := by
      have hassoc (m n : Nat) : (k.children.map nodeCount).foldr (· + ·) (m + n) =
          (k.children.map nodeCount).foldr (· + ·) m + n := List.foldr_assoc
      rw [← hassoc, Nat.add_comm b' 1, hassoc, Nat.add_comm]
    rw [ends_renumber_mk, eraseIds_eq_iff, nodeCount_mk, slots_mk, slots_mk]
    simp only [List.cons_append, Thread.cons_iff]
    constructor
    · rintro ⟨b₁, s₁, s₂, rfl, hid, houtline, hentries, hchildren⟩
      obtain ⟨hshapes, rfl, hslots⟩ := (thread_renumber ih).1 hchildren
      exact ⟨⟨houtline, hshapes⟩, hcount, id', _, s₁, rfl, hid, hentries.append hslots⟩
    · rintro ⟨⟨houtline, hshapes⟩, rfl, id'', ids, s₁, hids, hid, h⟩
      rw [List.cons.injEq] at hids
      obtain ⟨rfl, rfl⟩ := hids
      obtain ⟨s₂, hentries, hslots⟩ := h.split (Kind.length_entryIds_eq houtline)
      refine ⟨_, s₁, s₂, hcount.symm, hid, houtline, hentries, ?_⟩
      exact (thread_renumber ih).2 ⟨hshapes, rfl, hslots⟩

lemma ends_run' {α : Type} {x : Walk Mint α} {b : Nat} {s t : IdSupply} {a : α} :
    Ends (x.run' b) s a t ↔ ∃ b', Ends x (b, s) a (b', t) := by
  change Ends (Prod.fst <$> x b) s a t ↔ _
  rw [← bind_pure_comp, ends_bind]
  simp only [Prod.exists, ends_pure]
  constructor
  · rintro ⟨a', b', t', hx, rfl, rfl⟩
    exact ⟨b', hx⟩
  · rintro ⟨b', hx⟩
    exact ⟨a, b', t, hx, rfl, rfl⟩

lemma ends_renumber_run' {rename : Renaming} {e e' : Expr} {b : Nat} {s t : IdSupply} :
    Ends ((e.renumber rename).run' b) s e' t ↔
      e'.eraseIds = e.eraseIds ∧ e.nodeCount ≤ b ∧
        Thread (fun i => Ends (rename i)) e.slots s e'.slots t := by
  rw [ends_run']
  simp only [ends_renumber]
  constructor
  · rintro ⟨b', hshape, rfl, h⟩
    exact ⟨hshape, by omega, h⟩
  · rintro ⟨hshape, hb, h⟩
    exact ⟨b - e.nodeCount, hshape, by omega, h⟩

end CelEdit.Expr

namespace CelEdit.IdSupply

open Runs

variable {s t u : IdSupply} {is js : List NodeId}

/-- The exchange of ids that a supply remembers; unset ids stay unset. -/
def exchangeOf (s : IdSupply) (i : NodeId) : NodeId :=
  if i.isSet then (s.exchanged? i).getD .unset else .unset

@[simp] lemma exchangeOf_unset (s : IdSupply) : s.exchangeOf .unset = .unset := rfl

lemma exchangeOf_of_exchanged {i v : NodeId} (hset : i.isSet) (h : s.exchanged? i = some v) :
    s.exchangeOf i = v := by
  rw [exchangeOf, if_pos hset, h, Option.getD_some]

lemma exchanged?_of_isSet_exchangeOf {i : NodeId} (h : (s.exchangeOf i).isSet) :
    i.isSet ∧ s.exchanged? i = some (s.exchangeOf i) := by
  by_cases hset : i.isSet
  · refine ⟨hset, ?_⟩
    cases hsome : s.exchanged? i with
    | none =>
      rw [exchangeOf, if_pos hset, hsome, Option.getD_none] at h
      exact absurd h Bool.false_ne_true
    | some v => rw [exchangeOf_of_exchanged hset hsome]
  · rw [exchangeOf, if_neg hset] at h
    exact absurd h Bool.false_ne_true

lemma Sound.exchangeOf {seed : NodeId} (h : Sound seed s) (i : NodeId) :
    s.exchangeOf i = .unset ∨
      seed.toNat < (s.exchangeOf i).toNat ∧ (s.exchangeOf i).toNat ≤ s.maxId.toNat := by
  rw [IdSupply.exchangeOf]
  by_cases hset : i.isSet
  · rw [if_pos hset]
    cases hsome : s.exchanged? i with
    | none => exact .inl rfl
    | some v => exact .inr (h.bounds hsome)
  · rw [if_neg hset]
    exact .inl rfl

lemma Gave.exchangeOf_eq {i j : NodeId} (h : Gave s i j) (hset : i.isSet) : s.exchangeOf i = j :=
  exchangeOf_of_exchanged hset (h.1 hset)

lemma thread_fresh :
    Thread (fun i => Ends (Renaming.fresh i)) is s js t ↔
      Thread (fun i => Ends (exchange i)) (is.map (fun _ => .unset)) s js t := by
  rw [Thread.map_left]
  exact Iff.rfl

lemma thread_keep :
    Thread (fun i => Ends (Renaming.onSet Renaming.keep i)) is s js t ↔ js = is ∧ t = s := by
  have hkeep (i j : NodeId) (s t : IdSupply) :
      Ends (Renaming.onSet Renaming.keep i) s j t ↔ j = i ∧ t = s := by
    unfold Renaming.onSet
    by_cases hset : i.isSet
    · rw [if_pos hset]
      exact ends_pure ..
    · rw [if_neg hset]
      exact ends_pure ..
  induction is generalizing js s with
  | nil => exact Thread.nil_iff
  | cons i is ih =>
    simp only [Thread.cons_iff, hkeep, ih]
    constructor
    · rintro ⟨j, js, s₁, rfl, ⟨rfl, rfl⟩, rfl, rfl⟩
      exact ⟨rfl, rfl⟩
    · rintro ⟨rfl, rfl⟩
      exact ⟨i, is, t, rfl, ⟨rfl, rfl⟩, rfl, rfl⟩

lemma thread_onSet {K : NodeId → Prop} (h : Thread (fun i => Ends (Renaming.onSet exchange i)) is s js t) :
    Exchanges K s [] [] t ∧ (∀ seed, Sound seed s → ∀ u, Extends t u → js = is.map u.exchangeOf) := by
  induction h with
  | nil s => exact ⟨.nil s, fun _ _ _ _ => rfl⟩
  | @cons i is j js s t' u head tail ih =>
    unfold Renaming.onSet at head
    by_cases hset : i.isSet
    · rw [if_pos hset] at head
      refine ⟨.aside head ih.1, fun seed hs u' hu => ?_⟩
      have hextends := (ih.1.sound_extends (exchange_sound head hs)).2.trans hu
      have hgave := (exchange_gave head hs).1 hset
      rw [List.map_cons, exchangeOf_of_exchanged hset (hextends.keeps hgave),
        ← ih.2 seed (exchange_sound head hs) u' hu]
    · rw [if_neg hset] at head
      obtain ⟨rfl, rfl⟩ := (ends_pure ..).1 head
      refine ⟨ih.1, fun seed hs u' hu => ?_⟩
      rw [NodeId.isSet_iff, not_not] at hset
      rw [List.map_cons, ← ih.2 seed hs u' hu, hset, exchangeOf_unset]

end CelEdit.IdSupply
