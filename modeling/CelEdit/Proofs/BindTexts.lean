import CelEdit.Proofs.Binding
import CelEdit.Proofs.ShadowPlaces

/-!
# Texts of bindings

A binding that was put in is written as `cel.bind(name, init, result)`, with the texts that the
initial value and the result had before. The result is made of copies of host nodes, and their macro calls
come along with the copies; so bindings nest to any depth.
-/

namespace CelEdit.Workspace

open Runs CelEdit.Expr MacroCalls Unparse

/-- What is new in a workspace that binds a variable. -/
structure BindParts where
  accuInit : Expr
  result : Expr
  null : NodeId
  range : NodeId
  condition : NodeId
  step : NodeId
  id : NodeId
  receiver : NodeId
  variable_ : NodeId

namespace BindParts

variable (b : BindParts) (name : String)

def bound : Expr :=
  ⟨b.id, .comprehension ⟨name, ⟨b.range, .list ⟨[⟨b.null, .constant .null⟩], .empty⟩⟩, name,
    b.accuInit, ⟨b.condition, .constant (.bool false)⟩, ⟨b.step, .ident ⟨name⟩⟩, b.result⟩⟩

def call : Expr :=
  ⟨.unset, .call ⟨some ⟨b.receiver, .ident ⟨"cel"⟩⟩, "bind",
    [⟨b.variable_, .ident ⟨name⟩⟩, b.accuInit, b.result]⟩⟩

/-- The ids of the nodes around the initial value and the result. -/
def around : List NodeId := [b.null, b.range, b.condition, b.step, b.id]

/-- The ids that only the macro call has. -/
def labels : List NodeId := [b.receiver, b.variable_]

/-- A node of the comprehension belongs to the result, or its id is new. -/
lemma mem_bound {n : Expr} (h : n ∈ (b.bound name).preorder) :
    n ∈ b.result.preorder ∨ n.id ∈ b.accuInit.slots ++ b.around := by
  rcases mem_preorder_mk.1 h with rfl | ⟨c, hc, hn⟩
  · exact .inr (by simp [around])
  · simp only [Kind.children, List.mem_cons, List.not_mem_nil, or_false] at hc
    rcases hc with rfl | rfl | rfl | rfl | rfl
    · refine .inr ?_
      simp only [mem_preorder_mk, Kind.children, List.mem_cons, List.not_mem_nil, or_false,
        exists_eq_left, false_and, exists_false] at hn
      rcases hn with rfl | rfl
      · simp [around]
      · simp [around]
    · exact .inr (List.mem_append_left _ (id_mem_slots hn))
    · simp only [mem_preorder_mk, Kind.children, List.not_mem_nil, false_and, exists_false,
        or_false] at hn
      exact .inr (by simp [hn, around])
    · simp only [mem_preorder_mk, Kind.children, List.not_mem_nil, false_and, exists_false,
        or_false] at hn
      exact .inr (by simp [hn, around])
    · exact .inl hn

lemma id_mem_bound {n : Expr} (h : n ∈ (b.bound name).preorder) :
    n.id ∈ b.accuInit.slots ++ b.result.slots ++ b.around := by
  rcases b.mem_bound name h with hn | hn
  · simp [id_mem_slots hn]
  · simp only [List.mem_append] at hn ⊢
    tauto

end BindParts

/-- How the donor of a binding is made: the ids of the result are exchanged, all others are new, and
the macro calls of the host are derived for the copies. -/
structure Binds (seed : NodeId) (host : Workspace) (name : String) (init result : Expr)
    (donor : Workspace) (b : BindParts) (t : IdSupply) : Prop where
  initShape : b.accuInit.eraseIds = init.eraseIds
  shape : b.result.eraseIds = result.eraseIds
  run : IdSupply.Exchanges (fun _ => True) (.ofSeed seed)
    (init.slots.map (fun _ => .unset) ++ result.slots ++ List.replicate 7 .unset)
    (b.accuInit.slots ++ b.result.slots ++ (b.around ++ b.labels)) t
  root : donor.root = b.bound name
  calls : donor.source.macroCalls =
    (derived none donor.root t.exchangeOf host.source.macroCalls).insert b.id (b.call name)

variable {budget : Nat} {seed target : NodeId} {host donor w : Workspace} {name : String}
  {init result m n : Expr} {b : BindParts} {t : IdSupply} {i j : NodeId} {r : Position}

theorem binds_of_bindDonor
    (h : Ends (bindDonor budget host name init result true) (.ofSeed seed) donor t) :
    ∃ b, Binds seed host name init result donor b t := by
  unfold bindDonor at h
  rw [ends_bind] at h
  obtain ⟨bound, s, hbound, hsource⟩ := h
  obtain ⟨accuInit, result', null, range, condition, step, id, rfl, hinit, hshape, hthread⟩ :=
    bindComprehension_cases hbound
  simp only [if_true, bindSource, ends_bind, ends_pure] at hsource
  obtain ⟨_, _, ⟨receiver, s₁, hreceiver, variable_, s₂, hvariable, calls, t', hcalls, rfl, rfl⟩,
    rfl, rfl⟩ := hsource
  let b : BindParts := ⟨accuInit, result', null, range, condition, step, id, receiver, variable_⟩
  have hmints : Thread (fun i => Ends (IdSupply.exchange i)) (List.replicate 2 .unset) s
      [receiver, variable_] s₂ := .cons hreceiver (.cons hvariable (.nil s₂))
  have hrun : IdSupply.Exchanges (fun _ => True) (.ofSeed seed)
      (init.slots.map (fun _ => .unset) ++ result.slots ++ List.replicate 7 .unset)
      (b.accuInit.slots ++ b.result.slots ++ (b.around ++ b.labels)) s₂ := by
    have happend := hthread.append hmints
    rw [List.append_assoc _ (List.replicate 5 _), List.append_assoc _ [null, _, _, _, _]] at happend
    exact .of_thread happend
  have hsound := (hrun.sound_extends (IdSupply.sound_ofSeed seed)).1
  have hbounds : ∀ n ∈ (b.bound name).preorder, n.id.isSet ∧ n.id.toNat ≤ s₂.maxId.toNat := by
    intro n hn
    have hmem := List.mem_append_left b.labels (b.id_mem_bound name hn)
    rw [List.append_assoc] at hmem
    obtain ⟨hlt, hle⟩ := hrun.bounds (IdSupply.sound_ofSeed seed) hmem
    exact ⟨NodeId.isSet_of_lt hlt, hle⟩
  obtain ⟨hrest, hderived⟩ := rederive_exchange (K := fun _ => True) hsound hbounds hcalls
  refine ⟨b, hinit, hshape, ?_, rfl, ?_⟩
  · simpa using hrun.append hrest
  · rw [hderived t (IdSupply.Extends.refl t)]
    rfl

namespace Binds

lemma injectiveOn (h : Binds seed host name init result donor b t) :
    t.InjectiveOn (fun _ => True) :=
  h.run.injectiveOn (IdSupply.sound_ofSeed seed) (IdSupply.injectiveOn_ofSeed _ seed)

/-- The run takes its ids in three parts. -/
lemma parts (h : Binds seed host name init result donor b t) :
    (∀ j ∈ b.accuInit.slots ++ (b.around ++ b.labels), t.Gave .unset j ∧ j.isSet) ∧
      Relabels (fun i j => t.Gave i j ∧ j.isSet) result b.result := by
  have hgave : List.Forall₂ (fun i j => t.Gave i j ∧ j.isSet) _ _ :=
    (h.run.gave (IdSupply.sound_ofSeed seed)).imp
      (fun _ _ hgave => ⟨hgave.1, NodeId.isSet_of_lt hgave.2.1⟩)
  have hinit := length_slots_eq h.initShape
  have hresult := length_slots_eq h.shape
  rw [forall₂_append_iff (by simp [hinit, hresult]), forall₂_append_iff (by simp [hinit])] at hgave
  obtain ⟨⟨hfresh, hresult⟩, hminted⟩ := hgave
  refine ⟨fun j hj => ?_, h.shape, hresult⟩
  rcases List.mem_append.1 hj with hj | hj
  · obtain ⟨i, hi, hgave⟩ := exists_of_forall₂_right hfresh hj
    obtain ⟨-, -, rfl⟩ := List.mem_map.1 hi
    exact hgave
  · obtain ⟨i, hi, hgave⟩ := exists_of_forall₂_right hminted hj
    obtain rfl := List.eq_of_mem_replicate hi
    exact hgave

lemma exchangeOf_ne (hgave : t.Gave .unset j) (hset : j.isSet) (i : NodeId) : t.exchangeOf i ≠ j := by
  rintro rfl
  exact hgave.2 rfl i (IdSupply.exchanged?_of_isSet_exchangeOf hset).2

/-- A node of the result and its copy. -/
lemma exists_copy (h : Binds seed host name init result donor b t) (hm : result.at? r = some m) :
    ∃ n, b.result.at? r = some n ∧ n.id.isSet ∧ (m.id.isSet → t.exchangeOf m.id = n.id) :=
  exists_exchanged_at h.parts.2 hm

lemma mem_root (h : Binds seed host name init result donor b t) (hn : b.result.at? r = some n) :
    n ∈ donor.root.preorder := by
  rw [h.root]
  exact mem_preorder_mk.2 (.inr ⟨b.result, by simp [Kind.children], mem_preorder_iff.2 ⟨r, hn⟩⟩)

lemma isSet_of_mem (h : Binds seed host name init result donor b t) (hn : n ∈ donor.root.preorder) :
    n.id.isSet := by
  rw [h.root] at hn
  have hmem := List.mem_append_left b.labels (b.id_mem_bound name hn)
  rw [List.append_assoc] at hmem
  exact NodeId.isSet_of_lt (h.run.bounds (IdSupply.sound_ofSeed seed) hmem).1

/-- What an exchanged id names is the copy of a node of the result. -/
lemma exists_origin (h : Binds seed host name init result donor b t)
    (hn : named? donor.root (t.exchangeOf i) = some n) :
    i.isSet ∧ ∃ r m, result.at? r = some m ∧ m.id = i ∧ b.result.at? r = some n := by
  obtain ⟨hmem, hid⟩ := mem_of_named? hn
  have hset := isSet_of_named? hn
  refine ⟨(IdSupply.exchanged?_of_isSet_exchangeOf hset).1, ?_⟩
  rw [h.root] at hmem
  rcases b.mem_bound name hmem with hmem | hfresh
  · obtain ⟨r, hr⟩ := mem_preorder_iff.1 hmem
    obtain ⟨m, hm, hmid⟩ := exists_origin_at h.parts.2 h.injectiveOn (fun _ _ _ => trivial) hr trivial
      hid.symm
    exact ⟨r, m, hm, hmid, hr⟩
  · obtain ⟨hgave, hset⟩ := h.parts.1 n.id (by
      rw [← List.append_assoc]
      exact List.mem_append_left _ hfresh)
    exact absurd hid.symm (exchangeOf_ne hgave hset i)

lemma nodup (h : Binds seed host name init result donor b t) (hresult : result.DistinctIds) :
    (b.accuInit.slots ++ b.result.slots ++ (b.around ++ b.labels)).Nodup := by
  apply h.run.nodup (IdSupply.sound_ofSeed seed) (IdSupply.injectiveOn_ofSeed _ seed)
  · have hfresh : (init.slots.map (fun _ => NodeId.unset)).filter NodeId.isSet = [] := by
      rw [List.filter_eq_nil_iff]
      intro i hi
      obtain ⟨-, -, rfl⟩ := List.mem_map.1 hi
      exact Bool.false_ne_true
    rw [List.filter_append, List.filter_append, hfresh]
    exact (List.append_nil _).symm ▸ hresult
  · exact fun _ _ _ => trivial

/-- No id below the comprehension is its own. -/
lemma ne_id (h : Binds seed host name init result donor b t) (hresult : result.DistinctIds)
    (hj : j ∈ b.accuInit.slots ++ b.result.slots) : j ≠ b.id := by
  have hnodup := h.nodup hresult
  rw [List.nodup_append] at hnodup
  exact hnodup.2.2 j hj b.id (by simp [BindParts.around])

/-- No node of the comprehension has an id of the macro call. -/
lemma ne_label (h : Binds seed host name init result donor b t) (hresult : result.DistinctIds)
    (hn : n ∈ donor.root.preorder) (hi : i ∈ b.labels) : n.id ≠ i := by
  have hnodup := h.nodup hresult
  rw [← List.append_assoc, List.nodup_append] at hnodup
  rw [h.root] at hn
  exact hnodup.2.2 n.id (b.id_mem_bound name hn) i hi

/-! ### Keys of the donor -/

lemma macroCall?_root (h : Binds seed host name init result donor b t) :
    macroCall? donor.source.macroCalls [] b.id = some (b.call name) := by
  have hset := (h.parts.1 b.id (by simp [BindParts.around])).2
  rw [macroCall?, if_pos ⟨hset, List.not_mem_nil⟩, h.calls, IdMap.get?_insert, if_pos rfl]

/-- An id that nothing was exchanged for is no key, but for the one of the comprehension. -/
lemma macroCall?_of_new (h : Binds seed host name init result donor b t)
    (hnew : ∀ i, t.exchangeOf i ≠ j) (hne : j ≠ b.id) (E : List NodeId) :
    macroCall? donor.source.macroCalls E j = none := by
  rw [Option.eq_none_iff_forall_ne_some]
  intro call hcall
  rw [macroCall?, Option.ite_none_right_eq_some, h.calls, IdMap.get?_insert, if_neg hne,
    IdMap.get?_eq_some_iff] at hcall
  obtain ⟨e, -, -, -, hkey, -⟩ := exists_of_mem_derived hcall.2
  exact hnew e.1 hkey.symm

lemma exchangeOf_inj (h : Binds seed host name init result donor b t) (hm : result.at? r = some m)
    (hset : m.id.isSet) : t.exchangeOf i = t.exchangeOf m.id ↔ i = m.id := by
  constructor
  · intro hi
    obtain ⟨n, -, hnset, hid⟩ := h.exists_copy hm
    rw [← hid hset] at hnset
    have hm' := (IdSupply.exchanged?_of_isSet_exchangeOf hnset).2
    have hi' := (IdSupply.exchanged?_of_isSet_exchangeOf (hi.symm ▸ hnset)).2
    rw [hi] at hi'
    exact h.injectiveOn i m.id _ trivial trivial hi' hm'
  · rintro rfl
    rfl

/-- The copy of a node of the result is written as a macro call if the node was. -/
lemma macroCall?_copy (h : Binds seed host name init result donor b t)
    (hdistinct : donor.root.DistinctIds) (hm : result.at? r = some m) (hset : m.id.isSet) :
    macroCall? donor.source.macroCalls [] (t.exchangeOf m.id) =
      (macroCall? host.source.macroCalls [] m.id).map
        (fun s => collapse (refresh donor.root.nodesById (s.mapIds t.exchangeOf))) := by
  obtain ⟨n, hn, hnset, hid⟩ := h.exists_copy hm
  have hne : t.exchangeOf m.id ≠ b.id := by
    obtain ⟨hgave, hbset⟩ := h.parts.1 b.id (by simp [BindParts.around])
    exact exchangeOf_ne hgave hbset m.id
  have hinj : ∀ i, t.exchangeOf i = n.id → i = m.id :=
    fun i hi => (h.exchangeOf_inj hm hset).1 (hi.trans (hid hset).symm)
  have honly : ∀ e ∈ host.source.macroCalls.entries, ∀ e' ∈ host.source.macroCalls.entries,
      t.exchangeOf e.1 = n.id → t.exchangeOf e'.1 = n.id → e = e' := by
    intro e he e' he' hkey hkey'
    exact IdMap.entry_eq_of_key he he' ((hinj _ hkey).trans (hinj _ hkey').symm)
  apply Option.ext
  intro shadow
  rw [macroCall?, if_pos ⟨(hid hset).symm ▸ hnset, List.not_mem_nil⟩, h.calls, IdMap.get?_insert,
    if_neg hne, hid hset, get?_derived hdistinct (h.mem_root hn) hnset honly, Option.map_eq_some_iff]
  constructor
  · rintro ⟨e, he, hkey, rfl⟩
    have hkey' := hinj _ hkey
    exact ⟨e.2, macroCall?_nil_eq_some.2 ⟨hset, hkey' ▸ he⟩, rfl⟩
  · rintro ⟨s, hs, rfl⟩
    exact ⟨(m.id, s), (macroCall?_nil_eq_some.1 hs).2, hid hset, rfl⟩

/-! ### The donor is consistent -/

/-- A macro call of the donor is the new one, or it is derived from one of the host for the copy of a
node of the result. -/
lemma entry_cases (h : Binds seed host name init result donor b t) {e : NodeId × Expr}
    (he : e ∈ donor.source.macroCalls.entries) :
    e = (b.id, b.call name) ∨ ∃ e' ∈ host.source.macroCalls.entries, ∃ r m k,
      result.at? r = some m ∧ m.id = e'.1 ∧ m.id.isSet ∧ b.result.at? r = some k ∧ k.id = e.1 ∧
        e.2 = collapse (refresh donor.root.nodesById (e'.2.mapIds t.exchangeOf)) := by
  obtain ⟨key, shadow⟩ := e
  rw [← IdMap.get?_eq_some_iff, h.calls, IdMap.get?_insert] at he
  by_cases hkey : key = b.id
  · rw [if_pos hkey, Option.some.injEq] at he
    exact .inl (by rw [hkey, he])
  · rw [if_neg hkey, IdMap.get?_eq_some_iff] at he
    obtain ⟨e', he', n, hnode, rfl, hshadow⟩ := exists_of_mem_derived he
    obtain ⟨hn, hid⟩ := mem_of_nodesById hnode
    have hnamed : named? donor.root (t.exchangeOf e'.1) = some n := by
      rw [named?, if_pos (hid ▸ h.isSet_of_mem hn), hnode]
    obtain ⟨hset, r, m, hm, hmid, hk⟩ := h.exists_origin hnamed
    exact .inr ⟨e', he', r, m, n, hm, hmid, hmid ▸ hset, hk, hid, hshadow⟩

/-- A part of the new macro call that carries the id of a node is that node. -/
lemma mirrors_call (h : Binds seed host name init result donor b t) (hresult : result.DistinctIds)
    (hdistinct : donor.root.DistinctIds) : Mirrors donor.root (b.call name) := by
  have hlabel : ∀ i ∈ b.labels, ∀ k : Kind Expr, k.children = [] → Mirrors donor.root ⟨i, k⟩ := by
    intro i hi k hk
    apply mirrors_mk
    · intro n hn _ hid
      exact h.ne_label hresult hn hi hid.symm
    · rw [hk]
      exact fun c hc => absurd hc List.not_mem_nil
  have hpart : ∀ c ∈ (b.bound name).children, Mirrors donor.root c := by
    intro c hc
    apply mirrors_of_mem hdistinct
    rw [h.root]
    exact mem_preorder_of_mem_children hc
  apply mirrors_mk
  · exact fun n _ hset => absurd hset Bool.false_ne_true
  · intro c hc
    simp only [Kind.children, Option.toList_some, List.mem_append, List.mem_cons, List.not_mem_nil,
      or_false] at hc
    rcases hc with rfl | rfl | rfl | rfl
    · exact hlabel _ (by simp [BindParts.labels]) _ rfl
    · exact hlabel _ (by simp [BindParts.labels]) _ rfl
    · exact hpart _ (by simp [BindParts.bound, Expr.children, Kind.children])
    · exact hpart _ (by simp [BindParts.bound, Expr.children, Kind.children])

theorem consistent (h : Binds seed host name init result donor b t) (hresult : result.DistinctIds)
    (hdistinct : donor.root.DistinctIds) : donor.Consistent := by
  refine ⟨⟨hdistinct, ?_⟩, ?_⟩
  · intro key hkey
    obtain ⟨e, he, rfl⟩ := List.mem_map.1 hkey
    rcases h.entry_cases he with rfl | ⟨-, -, r, m, k, -, -, -, hk, hid, -⟩
    · refine ⟨donor.root, self_mem_preorder _, ?_⟩
      rw [h.root]
      rfl
    · exact ⟨k, h.mem_root hk, hid⟩
  · intro e he x hx n hn hset hid
    rcases h.entry_cases he with rfl | ⟨e', -, r, m, k, -, -, -, -, -, hshadow⟩
    · rw [h.mirrors_call hresult hdistinct x hx n hn hset hid]
    · rw [hshadow] at hx
      exact collapse_eq_of_mem_shadow hdistinct hx hn hset hid

/-- The nodes of the result that have an id are nodes of the host. -/
def Copies (host : Workspace) (result : Expr) : Prop :=
  ∀ x ∈ result.preorder, x.id.isSet → x ∈ host.root.preorder

theorem shadowsBelow (h : Binds seed host name init result donor b t) (hresult : result.DistinctIds)
    (hdistinct : donor.root.DistinctIds) (hhost : host.ShadowsBelow) (hcopies : Copies host result) :
    donor.ShadowsBelow := by
  intro e he x hx k hk n hn hset hid hkey
  rcases h.entry_cases he with rfl | ⟨e', he', r, m, k', hm, hmid, hmset, hk', hkid, hshadow⟩
  · have hroot : donor.root.id = b.id := by
      rw [h.root]
      rfl
    rw [hdistinct.node_eq hk (self_mem_preorder _) (h.isSet_of_mem hk) (hkey.trans hroot.symm)]
    exact hn
  · obtain rfl := hdistinct.node_eq (h.mem_root hk') hk (h.isSet_of_mem (h.mem_root hk'))
      (hkid.trans hkey.symm)
    rw [hshadow] at hx
    refine mem_of_mem_shadow hdistinct hk (fun y hy n' hn' => ?_) hx hn hset hid
    obtain ⟨hyset, r', m', hm', hm'id, hcopy⟩ := h.exists_origin hn'
    have hmem := mem_preorder_iff.2 ⟨r, hm⟩
    have hmem' := mem_preorder_iff.2 ⟨r', hm'⟩
    have hbelow : m' ∈ m.preorder := hhost e' he' y hy m (hcopies m hmem hmset) m'
      (hcopies m' hmem' (hm'id ▸ hyset)) hyset hm'id hmid
    obtain ⟨u, hu⟩ := mem_preorder_iff.1 hbelow
    obtain rfl := hresult.position_eq hm' (at?_below hm hu) (hm'id ▸ hyset) rfl
    exact mem_preorder_of_at hk' hcopy

/-! ### The text of the donor -/

/-- An id of the host and one of the donor match, if the second is the exchange of an id of the result,
or neither is a key. -/
def Matches (host : Workspace) (result : Expr) (donor : Workspace) (t : IdSupply) (i j : NodeId) :
    Prop :=
  (∃ m ∈ result.preorder, m.id = i ∧ i.isSet ∧ j = t.exchangeOf i) ∨
    macroCall? host.source.macroCalls [] i = none ∧ macroCall? donor.source.macroCalls [] j = none

lemma alike_copy (h : Binds seed host name init result donor b t) (hresult : result.DistinctIds)
    (hm : result.at? r = some m) (hn : b.result.at? r = some n) :
    Alike (Matches host result donor t) NoHole m n := by
  obtain ⟨n', hn', hrelabels⟩ := h.parts.2.at? hm
  obtain rfl := Option.some.inj (hn.symm.trans hn')
  have halike : Alike (fun i j => t.Gave i j ∧ j.isSet) NoHole m n := .of_relabels hrelabels
  refine halike.imp_of_mem (fun x hx y hy hgave => ?_) (fun _ _ _ _ here => here.elim)
  by_cases hset : x.id.isSet
  · have hx' := mem_preorder_trans hx (mem_preorder_iff.2 ⟨r, hm⟩)
    exact .inl ⟨x, hx', rfl, hset, (hgave.1.exchangeOf_eq hset).symm⟩
  · -- a node without an id gets one that stands for nothing
    rw [NodeId.isSet_iff, not_not] at hset
    rw [hset] at hgave ⊢
    have hslot := id_mem_slots (mem_preorder_trans hy (mem_preorder_iff.2 ⟨r, hn⟩))
    have hne := h.ne_id hresult (List.mem_append_right b.accuInit.slots hslot)
    exact .inr ⟨rfl, h.macroCall?_of_new (exchangeOf_ne hgave.1 hgave.2) hne []⟩

/-- A shadow of the host is like the one that is derived for the copies. -/
lemma alike_shadow (h : Binds seed host name init result donor b t) (hresult : result.DistinctIds)
    (hdistinct : donor.root.DistinctIds) (hhost : host.Consistent) (hbelow : host.ShadowsBelow)
    (hcopies : Copies host result) (hm : m ∈ result.preorder) (hset : m.id.isSet) {s : Expr}
    (hs : (m.id, s) ∈ host.source.macroCalls.entries) :
    Alike (Matches host result donor t) NoHole s
      (collapse (refresh donor.root.nodesById (s.mapIds t.exchangeOf))) := by
  have hkeyed := (h.consistent hresult hdistinct).toKeyed
  refine Alike.trans_eq (alike_refresh fun x hx => ?_) (alike_collapse (fun _ => rfl) _)
    (fun _ _ _ here => here.elim)
  cases hnamed : named? donor.root (t.exchangeOf x.id) with
  | some n =>
    obtain ⟨hxset, r, m', hm', hid, hn⟩ := h.exists_origin hnamed
    have hmem := hcopies m' (mem_preorder_iff.2 ⟨r, hm'⟩) (hid ▸ hxset)
    have hcollapse := hhost.agrees _ hs x hx m' hmem hxset hid.symm
    exact .inr ⟨n, rfl, (alike_of_collapse_eq hcollapse).eq_trans (h.alike_copy hresult hm' hn)
      (fun _ _ _ _ here => here.elim)⟩
  | none =>
    refine .inl ⟨rfl, .inr ⟨?_, ?_⟩⟩
    · -- a key would name a node below `m`, which has a copy
      rw [Option.eq_none_iff_forall_ne_some]
      intro call hcall
      obtain ⟨hxset, hentry⟩ := macroCall?_nil_eq_some.1 hcall
      obtain ⟨n, hn, hid⟩ := hhost.node x.id (List.mem_map_of_mem hentry)
      have hnm := hbelow _ hs x hx m (hcopies m hm hset) n hn hxset hid rfl
      obtain ⟨r, hr⟩ := mem_preorder_iff.1 (mem_preorder_trans hnm hm)
      obtain ⟨n', hn', hnset, hexchange⟩ := h.exists_copy hr
      rw [hid] at hexchange
      have hcopy := hexchange hxset
      exact named?_eq_none_iff.1 hnamed n' (h.mem_root hn') (hcopy ▸ hnset) hcopy
    · exact macroCall?_of_keyPosition?_eq_none hkeyed (keyPosition?_of_not_named hnamed)

/-- The result is written in the donor as it was in the host. -/
def simulation (h : Binds seed host name init result donor b t) (hresult : result.DistinctIds)
    (hdistinct : donor.root.DistinctIds) (hhost : host.Consistent) (hbelow : host.ShadowsBelow)
    (hcopies : Copies host result) :
    Simulation True host.source.macroCalls donor.source.macroCalls where
  Related := Matches host result donor t
  Hole := NoHole
  Linked E E' := ∀ m ∈ result.preorder, m.id.isSet → (m.id ∈ E ↔ t.exchangeOf m.id ∈ E')
  hole _ here := here.elim
  step := by
    intro E E' i j hE hij
    rw [macroCall?_eq _ E, macroCall?_eq _ E']
    rcases hij with ⟨m, hm, rfl, hset, rfl⟩ | ⟨hi, hj⟩
    · obtain ⟨r, hr⟩ := mem_preorder_iff.1 hm
      rw [h.macroCall?_copy hdistinct hr hset]
      have hmem := hE m hm hset
      by_cases hexpanding : m.id ∈ E
      · rw [if_pos hexpanding, if_pos (hmem.1 hexpanding)]
        exact .inl ⟨rfl, rfl⟩
      · rw [if_neg hexpanding, if_neg (fun hmem' => hexpanding (hmem.2 hmem'))]
        cases hcall : macroCall? host.source.macroCalls [] m.id with
        | none => exact .inl ⟨rfl, rfl⟩
        | some s =>
          have hs := (macroCall?_nil_eq_some.1 hcall).2
          have halike := h.alike_shadow hresult hdistinct hhost hbelow hcopies hm hset hs
          refine .inr ⟨s, _, rfl, rfl, halike, ?_⟩
          intro m' hm' hset'
          rw [List.mem_cons, List.mem_cons, hE m' hm' hset', h.exchangeOf_inj hr hset]
    · rw [hi, hj, ite_self, ite_self]
      exact .inl ⟨rfl, rfl⟩

/-- The initial value is written in the donor as it was without macro calls. -/
def initSimulation (donor : Workspace) : Simulation True .empty donor.source.macroCalls where
  Related _ j := macroCall? donor.source.macroCalls [] j = none
  Hole := NoHole
  Linked _ _ := True
  hole _ here := here.elim
  step {E E' i j} _ hj := by
    refine .inl ⟨?_, ?_⟩
    · rw [macroCall?, IdMap.get?_empty, ite_self]
    · rw [macroCall?_eq, hj, ite_self]

lemma alike_init (h : Binds seed host name init result donor b t) (hresult : result.DistinctIds) :
    Alike (initSimulation donor).Related NoHole init b.accuInit := by
  have halike : Alike (fun _ _ => True) NoHole init b.accuInit :=
    .of_relabels (relabels_of_eraseIds h.initShape)
  refine halike.imp_of_mem (fun _ _ y hy _ => ?_) (fun _ _ _ _ here => here.elim)
  have hslot := id_mem_slots hy
  obtain ⟨hgave, hset⟩ := h.parts.1 y.id (List.mem_append_left _ hslot)
  exact h.macroCall?_of_new (exchangeOf_ne hgave hset)
    (h.ne_id hresult (List.mem_append_left _ hslot)) []

end Binds

/-- How a binding is written. -/
def bindText (name init result : String) : String :=
  "cel.bind(" ++ name ++ ", " ++ init ++ ", " ++ result ++ ")"

namespace Binds

lemma render_label (h : Binds seed host name init result donor b t) (hresult : result.DistinctIds)
    (hi : i ∈ b.labels) (text : String) :
    render donor.source.macroCalls [b.id] ⟨i, .ident ⟨text⟩⟩ = .ok text.toList := by
  obtain ⟨hgave, hset⟩ := h.parts.1 i (List.mem_append_right _ (List.mem_append_right _ hi))
  have hne : i ≠ b.id := by
    have hroot := h.ne_label hresult (self_mem_preorder donor.root) hi
    rw [h.root] at hroot
    exact hroot.symm
  rw [render_mk, h.macroCall?_of_new (exchangeOf_ne hgave hset) hne]
  rfl

/-- The donor is written as a call of the macro. -/
theorem unparse_donor (h : Binds seed host name init result donor b t) (hresult : result.DistinctIds)
    (hdistinct : donor.root.DistinctIds) (hhost : host.Consistent) (hbelow : host.ShadowsBelow)
    (hcopies : Copies host result) {ti tr : String}
    (htr : result.unparse host.source.macroCalls = .ok tr) (hti : init.unparse .empty = .ok ti) :
    donor.unparse = .ok (bindText name ti tr) := by
  obtain ⟨cs, hcs, rfl⟩ := unparse_eq_ok (w := ⟨result, host.source⟩).1 htr
  obtain ⟨is, his, rfl⟩ := unparse_eq_ok (w := ⟨init, .empty⟩).1 hti
  have hlinked : ∀ m ∈ result.preorder, m.id.isSet →
      (m.id ∈ ([] : List NodeId) ↔ t.exchangeOf m.id ∈ [b.id]) := by
    intro m _ _
    obtain ⟨hgave, hset⟩ := h.parts.1 b.id (by simp [BindParts.around])
    simpa using exchangeOf_ne hgave hset m.id
  have hroot : render donor.source.macroCalls [b.id] b.result = .ok cs := by
    have halike := h.alike_copy hresult (at?_nil result) (at?_nil b.result)
    have hfollows := (h.simulation hresult hdistinct hhost hbelow hcopies).follows hlinked halike
    obtain ⟨cs', hcs', hsame⟩ := hfollows cs hcs
    rw [hcs', hsame trivial]
  have hinit : render donor.source.macroCalls [b.id] b.accuInit = .ok is := by
    have hlinked : (initSimulation donor).Linked [] [b.id] := trivial
    have hfollows := (initSimulation donor).follows hlinked (h.alike_init hresult)
    obtain ⟨is', his', hsame⟩ := hfollows is his
    rw [his', hsame trivial]
  have hreceiver := h.render_label hresult (i := b.receiver) (by simp [BindParts.labels]) "cel"
  have hvariable := h.render_label hresult (i := b.variable_) (by simp [BindParts.labels]) name
  have hcall : render donor.source.macroCalls [b.id] (b.call name) =
      .ok ("cel".toList ++ '.' :: ("bind".toList ++ '(' ::
        commaSeparated [name.toList, is, cs] ++ [')'])) := by
    have hnone : macroCall? donor.source.macroCalls [b.id] .unset = none := rfl
    have hreceiverLevel : looserThan 1 ⟨b.receiver, .ident ⟨"cel"⟩⟩ = false := rfl
    rw [BindParts.call, render_mk, hnone]
    simp only [Kind.mapChildren, Option.map_some, List.map_cons, List.map_nil, nodeText, operand,
      callText, Child.text, List.mapM_cons, List.mapM_nil, hreceiver, hvariable, hinit, hroot,
      hreceiverLevel, Bool.and_false, Bool.false_eq_true, if_false]
    rfl
  have hdonor : render donor.source.macroCalls [] donor.root =
      render donor.source.macroCalls [b.id] (b.call name) := by
    have hbound : donor.root = ⟨b.id, (b.bound name).kind⟩ := h.root
    rw [hbound, render_mk, h.macroCall?_root]
  rw [unparse_eq_ok, hdonor, hcall]
  refine ⟨_, rfl, ?_⟩
  apply String.ext
  simp only [bindText, commaSeparated, String.toList_append, String.toList_ofList]
  simp [List.intercalate]

end Binds

/-! ### Bindings in the host -/

/-- Binds a variable to each initial value around the node at a position, the first one innermost. -/
def bindAround (budget : Nat) (p : Position) :
    List (String × Expr) → Workspace → Except EditError Workspace
  | [], w => .ok w
  | (name, init) :: layers, w =>
    match w.root.at? p with
    | none => .error (.notFound .unset)
    | some node => do
      let w ← replaceByBind budget w name init node node.id true
      bindAround budget p layers w

/-- One binding, at the position of its target. -/
lemma unparse_bind (hhost : host.Consistent) (hbelow : host.ShadowsBelow)
    (hresult : result.DistinctIds) (hcopies : Binds.Copies host result) {ti tr : String}
    (htr : result.unparse host.source.macroCalls = .ok tr) (hti : init.unparse .empty = .ok ti)
    (h : replaceByBind budget host name init result target true = .ok w) :
    target.isSet ∧ w.Consistent ∧ w.ShadowsBelow ∧ ∃ p d, host.root.firstAt? target = some p ∧
      w.root.at? p = some d ∧ d.unparse w.source.macroCalls = .ok (bindText name ti tr) := by
  obtain ⟨seed, donor, t, hdonor, hdistinct, seed', stable, p, s, t', hgraft⟩ :=
    exists_graft_of_bind hhost.distinct hresult h
  obtain ⟨b, hbinds⟩ := binds_of_bindDonor hdonor
  have hconsistent := hbinds.consistent hresult hdistinct
  have hdonorBelow := hbinds.shadowsBelow hresult hdistinct hbelow hcopies
  have hdonorText := hbinds.unparse_donor hresult hdistinct hhost hbelow hcopies htr hti
  have hkind : donor.root.kind.tag ≠ .list := by
    rw [hbinds.root]
    exact KindTag.noConfusion
  obtain ⟨d, hd, -⟩ := hgraft.exists_at_graft
  refine ⟨hgraft.target_isSet, hgraft.consistent hkind,
    hgraft.shadowsBelow hbelow hdonorBelow hkind, p, d, hgraft.grafted.found, hd, ?_⟩
  let S := (hgraft.corresponds_donor hconsistent).simulation True (fun _ _ => True)
    (fun _ _ _ _ => trivial) (fun _ here => here.elim)
  have hfollows := S.follows ⟨Corresponds.linked_nil, trivial⟩
    (hgraft.alike_donor hconsistent.toKeyed hd)
  obtain ⟨cs, hcs, htext⟩ := unparse_eq_ok.1 hdonorText
  obtain ⟨cs', hcs', hsame⟩ := hfollows cs hcs
  exact unparse_eq_ok (w := ⟨d, w.source⟩).2 ⟨cs', hcs', by rw [hsame trivial, htext]⟩

/-- Each layer puts the text of the next binding around what is there. -/
lemma unparse_bindAround {layers : List (String × Expr)} {texts : List String} {v : Workspace}
    {p : Position} {d : Expr} {text : String} (hw : w.Consistent) (hbelow : w.ShadowsBelow)
    (hd : w.root.at? p = some d) (htext : d.unparse w.source.macroCalls = .ok text)
    (htexts : List.Forall₂ (fun layer text => layer.2.unparse .empty = .ok text) layers texts)
    (h : bindAround budget p layers w = .ok v) :
    ∃ d', v.root.at? p = some d' ∧ d'.unparse v.source.macroCalls =
      .ok ((layers.zip texts).foldl (fun text layer => bindText layer.1.1 layer.2 text) text) := by
  induction htexts generalizing w d text with
  | nil =>
    obtain rfl := Except.ok.inj h
    exact ⟨d, hd, htext⟩
  | @cons layer ti layers texts hti _ ih =>
    rw [bindAround, hd] at h
    obtain ⟨w', hbind, hrest⟩ := (except_bind_eq_ok ..).1 h
    have hmem := mem_preorder_iff.2 ⟨p, hd⟩
    obtain ⟨hset, hw', hbelow', p', d', hfirst, hd', htext'⟩ := unparse_bind hw hbelow
      (hw.distinct.of_mem_preorder hmem) (fun x hx _ => mem_preorder_trans hx hmem) htext hti hbind
    rw [firstAt?_at hw.distinct hd hset, Option.some.injEq] at hfirst
    subst hfirst
    exact ih hw' hbelow' hd' htext' hrest

/-- A binding is written with the texts of its parts, whatever macro calls and earlier bindings the
result has copies of. The workspace stays consistent, so that bindings around bindings are written
inside of each other, to any depth. -/
theorem bindings_unparse {ti tr : String} (hhost : host.Consistent) (hbelow : host.ShadowsBelow)
    (hresult : result.DistinctIds)
    (hcopies : ∀ x ∈ result.preorder, x.id.isSet → x ∈ host.root.preorder)
    (htr : result.unparse host.source.macroCalls = .ok tr) (hti : init.unparse .empty = .ok ti)
    (h : replaceByBind budget host name init result target true = .ok w) :
    w.Consistent ∧ w.ShadowsBelow ∧ ∃ p, host.root.firstAt? target = some p ∧
      (∃ d, w.root.at? p = some d ∧ d.unparse w.source.macroCalls = .ok (bindText name ti tr)) ∧
      ∀ (layers : List (String × Expr)) (texts : List String) (v : Workspace),
        List.Forall₂ (fun layer text => layer.2.unparse .empty = .ok text) layers texts →
        bindAround budget p layers w = .ok v →
        ∃ d, v.root.at? p = some d ∧ d.unparse v.source.macroCalls =
          .ok ((layers.zip texts).foldl (fun text layer => bindText layer.1.1 layer.2 text)
            (bindText name ti tr)) := by
  obtain ⟨-, hw, hbelow', p, d, hfirst, hd, htext⟩ :=
    unparse_bind hhost hbelow hresult hcopies htr hti h
  refine ⟨hw, hbelow', p, hfirst, ⟨d, hd, htext⟩, fun layers texts v htexts hv => ?_⟩
  exact unparse_bindAround hw hbelow' hd htext htexts hv

/-- Two bindings around a copy of macro calls that are nested already. -/
theorem bindings_unparse_mapOfExists :
    let seven : Expr := ⟨.unset, .constant (.int 7)⟩
    let result : Expr := ⟨.unset, .call ⟨none, "_+_", [⟨.unset, .ident ⟨"v"⟩⟩, mapOfExists.root]⟩⟩
    ∃ w v, replaceByBind 200 mapOfExists "v" seven result ⟨21⟩ true = .ok w ∧
      bindAround 200 [] [("u", seven)] w = .ok v ∧
      v.unparse =
        .ok "cel.bind(u, 7, cel.bind(v, 7, v + [[true]].map(x, x.exists(i, i))))" := by
  intro seven result
  have hsome : ((replaceByBind 200 mapOfExists "v" seven result ⟨21⟩ true).toOption.bind
      (fun w => (bindAround 200 [] [("u", seven)] w).toOption)).isSome := by
    decide +kernel
  obtain ⟨v, hv⟩ := Option.isSome_iff_exists.1 hsome
  obtain ⟨w, hw, hv⟩ := Option.bind_eq_some_iff.1 hv
  rw [except_toOption_eq_some] at hw hv
  have hseven : seven.unparse .empty = .ok "7" := except_toOption_eq_some.1 (by decide +kernel)
  have htext : result.unparse mapOfExists.source.macroCalls =
      .ok "v + [[true]].map(x, x.exists(i, i))" := except_toOption_eq_some.1 (by decide +kernel)
  obtain ⟨-, -, p, hp, -, hlayers⟩ := bindings_unparse (by decide +kernel) (by decide +kernel)
    (by decide +kernel) (by decide +kernel) htext hseven hw
  have hfirst : mapOfExists.root.firstAt? ⟨21⟩ = some [] := by decide
  rw [hfirst, Option.some.injEq] at hp
  obtain ⟨d, hd, hnested⟩ := hlayers [("u", seven)] ["7"] v (.cons hseven .nil) (hp ▸ hv)
  rw [← hp, at?_nil, Option.some.injEq] at hd
  subst hd
  exact ⟨w, v, hw, hv, hnested⟩

end CelEdit.Workspace
