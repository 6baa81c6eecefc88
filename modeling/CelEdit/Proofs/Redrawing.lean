import CelEdit.Proofs.Correspondence
import CelEdit.Proofs.Replacements

/-!
# Trees drawn again

An edit draws the nodes of a workspace again, with other ids and maybe at other positions, and derives
the shadows from the new tree. If the shadows agreed with the old tree, what is drawn again is written
as before.
-/

namespace CelEdit

open CelEdit.Expr MacroCalls

namespace Expr

/-- Trees of the same shape have nodes of the same shape. -/
lemma exists_at_of_eraseIds {e e' m : Expr} {q : Position} (h : e'.eraseIds = e.eraseIds)
    (hm : e.at? q = some m) : ∃ n, e'.at? q = some n ∧ n.eraseIds = m.eraseIds := by
  obtain ⟨n, hn, hshape, -⟩ := (relabels_of_eraseIds h).at? hm
  exact ⟨n, hn, hshape⟩

lemma outline_eq_of_eraseIds {e e' : Expr} (h : e'.eraseIds = e.eraseIds) :
    e.kind.outline = e'.kind.outline := by
  obtain ⟨id, k⟩ := e
  obtain ⟨id', k'⟩ := e'
  exact ((eraseIds_eq_iff ..).1 h).1.symm

end Expr

namespace MacroCalls

lemma isSet_of_named? {root n : Expr} {i : NodeId} (h : named? root i = some n) : i.isSet := by
  rw [named?, Option.ite_none_right_eq_some] at h
  exact h.1

/-- The derived entry for a node comes from the only entry whose key is exchanged for its id. -/
lemma get?_derived {replaced : Option NodeId} {root n shadow : Expr} {f : NodeId → NodeId}
    {calls : IdMap Expr} (hroot : root.DistinctIds) (hn : n ∈ root.preorder) (hset : n.id.isSet)
    (honly : ∀ e ∈ calls.entries, ∀ e' ∈ calls.entries, f e.1 = n.id → f e'.1 = n.id → e = e') :
    (derived replaced root f calls).get? n.id = some shadow ↔
      ∃ e ∈ calls.entries, f e.1 = n.id ∧ shadow = derive replaced root n (e.2.mapIds f) := by
  have hnode := hroot.nodesById hn hset
  rw [IdMap.get?_eq_some_iff]
  constructor
  · intro h
    obtain ⟨e, he, expanded, hexpanded, hkey, hshadow⟩ := exists_of_mem_derived h
    rw [← hkey, hnode, Option.some.injEq] at hexpanded
    exact ⟨e, he, hkey.symm, hexpanded ▸ hshadow⟩
  · rintro ⟨e, he, hkey, rfl⟩
    have hmem : (f e.1, derive replaced root n (e.2.mapIds f)) ∈ (derived replaced root f calls).entries :=
      mem_derived he (hkey ▸ hnode) (fun e' he' hsame => honly e' he' e he (hsame.trans hkey) hkey)
    rwa [hkey] at hmem

end MacroCalls

namespace Workspace

variable {w v : Workspace} {f : NodeId → NodeId} {M : Position → Position → Prop}
  {H : Expr → Expr → Prop} {q r : Position} {m n : Expr}

/-- Where the exchange of an id is the id of a node only for the id of the old node, the macro call is
derived from the old one. -/
lemma callAt?_of_derived {replaced : Option NodeId}
    (hcalls : v.source.macroCalls = derived replaced v.root f w.source.macroCalls)
    (hv : v.root.DistinctIds) (hm : w.root.at? r = some m) (hn : v.root.at? q = some n)
    (hset : n.id.isSet) (hnames : ∀ i, f i = n.id ↔ i = m.id ∧ i.isSet) :
    v.callAt? q = (w.callAt? r).map (fun s => derive replaced v.root n (s.mapIds f)) := by
  rw [callAt?_of_at hm, callAt?_of_at hn]
  apply Option.ext
  intro shadow
  have honly : ∀ e ∈ w.source.macroCalls.entries, ∀ e' ∈ w.source.macroCalls.entries,
      f e.1 = n.id → f e'.1 = n.id → e = e' := by
    intro e he e' he' h h'
    exact IdMap.entry_eq_of_key he he' (((hnames _).1 h).1.trans ((hnames _).1 h').1.symm)
  rw [Option.map_eq_some_iff, macroCall?_nil_eq_some, ← IdMap.get?_eq_some_iff, hcalls,
    get?_derived hv (mem_preorder_iff.2 ⟨q, hn⟩) hset honly]
  constructor
  · rintro ⟨-, ⟨key, s⟩, he, hkey, rfl⟩
    obtain ⟨rfl, hkeySet⟩ := (hnames key).1 hkey
    exact ⟨s, macroCall?_nil_eq_some.2 ⟨hkeySet, he⟩, rfl⟩
  · rintro ⟨s, hs, rfl⟩
    obtain ⟨hmset, he⟩ := macroCall?_nil_eq_some.1 hs
    exact ⟨hset, (m.id, s), he, (hnames m.id).2 ⟨rfl, hmset⟩, rfl⟩

/-! ### Shadows that agree with the tree -/

/-- Up to comprehensions and their placeholders, every part of a shadow that carries the id of a node
is that node. -/
def Agrees (w : Workspace) : Prop :=
  ∀ e ∈ w.source.macroCalls.entries, ∀ x ∈ e.2.preorder, ∀ n ∈ w.root.preorder, x.id.isSet →
    x.id = n.id → collapse x = collapse n

structure Consistent (w : Workspace) : Prop extends w.Keyed where
  agrees : w.Agrees

instance (w : Workspace) : Decidable w.Agrees :=
  inferInstanceAs (Decidable (∀ e ∈ _, ∀ x ∈ _, ∀ n ∈ _, _ → _ → _))

instance (w : Workspace) : Decidable w.Keyed :=
  decidable_of_iff (w.root.DistinctIds ∧
    ∀ key ∈ w.source.macroCalls.keys, ∃ n ∈ w.root.preorder, n.id = key)
    ⟨fun h => ⟨h.1, h.2⟩, fun h => ⟨h.distinct, h.node⟩⟩

instance (w : Workspace) : Decidable w.Consistent :=
  decidable_of_iff (w.Keyed ∧ w.Agrees) ⟨fun h => ⟨h.1, h.2⟩, fun h => ⟨h.toKeyed, h.agrees⟩⟩

/-- What stands at a position of `w` stands in `v` at the position related to it, except at holes. -/
structure Overlays (M : Position → Position → Prop) (H : Expr → Expr → Prop) (w v : Workspace) :
    Prop where
  left : w.Keyed
  right : v.Keyed
  outline : ∀ {r q m n}, M r q → w.root.at? r = some m → v.root.at? q = some n →
    m.kind.outline = n.kind.outline
  below : ∀ {r q m n} {i : Nat}, M r q → w.root.at? (r ++ [i]) = some m →
    v.root.at? (q ++ [i]) = some n → M (r ++ [i]) (q ++ [i]) ∨ H m n
  keys : ∀ {r q}, M r q → (w.callAt? r).isSome = (v.callAt? q).isSome

lemma Overlays.alike_at (h : Overlays M H w v) (hM : M r q) (hm : w.root.at? r = some m)
    (hn : v.root.at? q = some n) : Alike (SameKey M w v) H m n := by
  refine .of_invariant (fun m n => H m n ∨ ∃ r q, M r q ∧ w.root.at? r = some m ∧
    v.root.at? q = some n) ?_ (.inr ⟨r, q, hM, hm, hn⟩)
  rintro m n (here | ⟨r, q, hM, hm, hn⟩)
  · exact .inl here
  · refine .inr ⟨sameKey_at h.left h.right hM hm hn (h.keys hM), h.outline hM hm hn, ?_⟩
    intro i c c' hc hc'
    have hm' : w.root.at? (r ++ [i]) = some c := by
      rw [at?_append, hm, Option.bind_some, at?_cons, hc, Option.bind_some, at?_nil]
    have hn' : v.root.at? (q ++ [i]) = some c' := by
      rw [at?_append, hn, Option.bind_some, at?_cons, hc', Option.bind_some, at?_nil]
    rcases h.below hM hm' hn' with hM' | here
    · exact .inr ⟨_, _, hM', hm', hn'⟩
    · exact .inl here

/-- Moreover every key comes to name a node of `v` after an exchange of ids. -/
structure Redrawn (M : Position → Position → Prop) (H : Expr → Expr → Prop) (w v : Workspace)
    (f : NodeId → NodeId) : Prop extends Overlays M H w v where
  named : ∀ {i r}, w.keyPosition? i = some r → (named? v.root (f i)).isSome

/-- A shadow that agrees with the old tree is like the one derived from the new tree. -/
theorem Redrawn.alike_shadow (h : Redrawn M H w v f) {s : Expr}
    (hleft : ∀ x y z, Alike Eq NoHole x y → H y z → H x z)
    (hright : ∀ x y z, H x y → Alike Eq NoHole y z → H x z)
    (hagrees : ∀ x ∈ s.preorder, ∀ n ∈ w.root.preorder, x.id.isSet → x.id = n.id →
      collapse x = collapse n)
    (hcovers : ∀ x ∈ s.preorder, ∀ q n, v.root.at? q = some n → f x.id = n.id → n.id.isSet →
      H x n ∨ x.id.isSet ∧ ∃ r m, M r q ∧ w.root.at? r = some m ∧ m.id = x.id) :
    Alike (SameKey M w v) H s (collapse (refresh v.root.nodesById (s.mapIds f))) := by
  refine Alike.trans_eq (alike_refresh ?_) (alike_collapse (fun _ => rfl) _) hright
  intro x hx
  cases hnamed : named? v.root (f x.id) with
  | none =>
    refine .inl ⟨rfl, ?_⟩
    have hnone : w.keyPosition? x.id = none := by
      rw [Option.eq_none_iff_forall_ne_some]
      intro r hr
      have hsome := h.named hr
      rw [hnamed] at hsome
      cases hsome
    rw [SameKey, hnone, keyPosition?_of_not_named hnamed]
    exact .none
  | some n =>
    refine .inr ⟨n, rfl, ?_⟩
    obtain ⟨hn, hid⟩ := mem_of_named? hnamed
    obtain ⟨q, hq⟩ := mem_preorder_iff.1 hn
    have hset : n.id.isSet := by
      rw [hid]
      exact isSet_of_named? hnamed
    rcases hcovers x hx q n hq hid.symm hset with here | ⟨hxset, r, m, hM, hm, hmid⟩
    · exact .hole here
    · have hcollapse := hagrees x hx m (mem_preorder_iff.2 ⟨r, hm⟩) hxset hmid.symm
      exact (alike_of_collapse_eq hcollapse).eq_trans (h.alike_at hM hm hq) hleft

/-! ### The same tree with other ids -/

/-- `v` is `w` with ids exchanged by a function, and its shadows are derived again. -/
structure Exchanged (w v : Workspace) (f : NodeId → NodeId) : Prop where
  shape : v.root.eraseIds = w.root.eraseIds
  distinct : v.root.DistinctIds
  calls : v.source.macroCalls = derived none v.root f w.source.macroCalls
  isSet : ∀ {q m n}, w.root.at? q = some m → v.root.at? q = some n → m.id.isSet → n.id.isSet
  names : ∀ {q m n}, w.root.at? q = some m → v.root.at? q = some n → n.id.isSet →
    ∀ i, f i = n.id ↔ i = m.id ∧ i.isSet

namespace Exchanged

lemma keyed (h : Exchanged w v f) : v.Keyed := by
  refine ⟨h.distinct, fun key hkey => ?_⟩
  rw [h.calls] at hkey
  exact exists_node_of_mem_keys hkey

lemma callAt?_eq (h : Exchanged w v f) (q : Position) :
    v.callAt? q = (w.callAt? q).map
      (fun s => collapse (refresh v.root.nodesById (s.mapIds f))) := by
  cases hm : w.root.at? q with
  | none =>
    have hn : v.root.at? q = none := by
      rw [Option.eq_none_iff_forall_ne_some]
      intro n hn
      obtain ⟨m, hm', -⟩ := exists_at_of_eraseIds h.shape.symm hn
      rw [hm] at hm'
      cases hm'
    rw [callAt?, callAt?, hm, hn]
    rfl
  | some m =>
    obtain ⟨n, hn, -⟩ := exists_at_of_eraseIds h.shape hm
    by_cases hset : n.id.isSet
    · exact callAt?_of_derived h.calls h.distinct hm hn hset (h.names hm hn hset)
    · have hmset : ¬ m.id.isSet := fun hmset => hset (h.isSet hm hn hmset)
      have hnone {u : Workspace} {x : Expr} (hx : u.root.at? q = some x) (hxset : ¬ x.id.isSet) :
          u.callAt? q = none := by
        rw [callAt?_of_at hx, Option.eq_none_iff_forall_ne_some]
        exact fun call hcall => hxset (macroCall?_nil_eq_some.1 hcall).1
      rw [hnone hm hmset, hnone hn hset]
      rfl

lemma redrawn (h : Exchanged w v f) (hw : w.Keyed) : Redrawn Eq NoHole w v f := by
  refine ⟨⟨hw, h.keyed, ?_, ?_, ?_⟩, ?_⟩
  · rintro r q m n rfl hm hn
    obtain ⟨n', hn', hshape⟩ := exists_at_of_eraseIds h.shape hm
    obtain rfl := Option.some.inj (hn.symm.trans hn')
    exact outline_eq_of_eraseIds hshape
  · rintro r q m n i rfl _ _
    exact .inl rfl
  · rintro r q rfl
    rw [h.callAt?_eq, Option.isSome_map]
  · intro i r hr
    obtain ⟨m, call, hm, rfl, -, hcall⟩ := exists_of_keyPosition? hr
    have hmset := (macroCall?_nil_eq_some.1 hcall).1
    obtain ⟨n, hn, -⟩ := exists_at_of_eraseIds h.shape hm
    have hset := h.isSet hm hn hmset
    rw [(h.names hm hn hset m.id).2 ⟨rfl, hmset⟩]
    exact named?_isSome (mem_preorder_iff.2 ⟨r, hn⟩) hset

/-- A consistent workspace is written as before. -/
theorem unparse_eq (h : Exchanged w v f) (hw : w.Consistent) {text : String}
    (htext : w.unparse = .ok text) : v.unparse = .ok text := by
  have hredrawn := h.redrawn hw.toKeyed
  have hcorresponds : Corresponds Eq NoHole w v := by
    refine ⟨hw.toKeyed, h.keyed, ?_, ?_⟩
    · rintro r q r' q' rfl rfl
      exact Iff.rfl
    · rintro r q rfl
      rw [h.callAt?_eq]
      cases hcall : w.callAt? r with
      | none => exact .none
      | some s =>
        refine .some (hredrawn.alike_shadow (fun _ _ _ _ here => here.elim) (fun _ _ _ here => here.elim)
          ?_ ?_)
        · obtain ⟨m, -, -, he⟩ := exists_of_callAt? hcall
          exact hw.agrees _ he
        · intro x hx q n hn hid hset
          obtain ⟨m, hm, -⟩ := exists_at_of_eraseIds h.shape.symm hn
          obtain ⟨hxid, hxset⟩ := (h.names hm hn hset x.id).1 hid
          exact .inr ⟨hxset, q, m, rfl, hm, hxid.symm⟩
  exact hcorresponds.unparse_of_ok (hredrawn.alike_at rfl (at?_nil _) (at?_nil _)) htext

end Exchanged

lemma Relocated.exchanged {seed : NodeId} {t : IdSupply} (h : Relocated seed w v t)
    (hw : w.root.DistinctIds) : Exchanged w v t.exchangeOf := by
  have hisSet {q : Position} {n : Expr} (hn : v.root.at? q = some n) : n.id.isSet :=
    NodeId.isSet_of_lt (h.bounds (id_mem_slots (mem_preorder_iff.2 ⟨q, hn⟩))).1
  refine ⟨h.shape, h.distinct hw, h.calls, fun _ hn _ => hisSet hn, ?_⟩
  intro q m n hm hn hset i
  constructor
  · intro hi
    obtain ⟨m', hm', hid⟩ := exists_origin_at h.relabels h.injectiveOn (fun _ _ _ => trivial) hn trivial hi
    obtain rfl := Option.some.inj (hm.symm.trans hm')
    exact ⟨hid.symm, (IdSupply.exchanged?_of_isSet_exchangeOf (hi ▸ hset)).1⟩
  · rintro ⟨rfl, hmset⟩
    obtain ⟨n', hn', -, hexchange⟩ := exists_exchanged_at h.relabels hm
    obtain rfl := Option.some.inj (hn.symm.trans hn')
    exact hexchange hmset

lemma Adopted.exchanged {host donor : Workspace} {target : NodeId} (h : Adopted host donor target v)
    (hhost : host.root.DistinctIds) : Exchanged host v (fun i => i) := by
  refine ⟨by rw [h.root], by rwa [h.root], by rw [h.source, h.root], ?_, ?_⟩
  · intro q m n hm hn hset
    rw [h.root, hm, Option.some.injEq] at hn
    exact hn ▸ hset
  · intro q m n hm hn hset i
    rw [h.root, hm, Option.some.injEq] at hn
    subst hn
    exact ⟨fun hi => ⟨hi, hi ▸ hset⟩, fun hi => hi.1⟩

/-- Renumbering a consistent workspace, or replacing a node by itself, does not change its text. The
second does not change the tree either. -/
theorem unparse_unchanged {text : String} (hw : w.Consistent) (htext : w.unparse = .ok text) :
    (∀ budget v, renumber budget w = .ok v → v.unparse = .ok text) ∧
      ∀ budget donor target v, w.root.find? target = some donor.root →
        replaceBy budget w donor target = .ok v → v.root = w.root ∧ v.unparse = .ok text := by
  constructor
  · intro budget v h
    obtain ⟨t, hrelocated⟩ := relocated_of_renumber h
    exact (hrelocated.exchanged hw.distinct).unparse_eq hw htext
  · intro budget donor target v hfound h
    obtain ⟨-, hadopted | ⟨hne, -⟩⟩ := replaceBy_cases h
    · exact ⟨hadopted.root, (hadopted.exchanged hw.distinct).unparse_eq hw htext⟩
    · exact absurd hfound hne

/-- A loop inside of a loop, both with their macro calls, where one node has no id and the inner loop is
a placeholder in the shadow of the outer one. -/
theorem unparse_unchanged_nested :
    let inner : Expr := ⟨⟨6⟩, .comprehension ⟨"y", ⟨⟨7⟩, .ident ⟨"x"⟩⟩, "s", ⟨⟨8⟩, .ident ⟨"f"⟩⟩,
      ⟨⟨9⟩, .ident ⟨"t"⟩⟩, ⟨⟨10⟩, .ident ⟨"y"⟩⟩, ⟨⟨11⟩, .ident ⟨"s"⟩⟩⟩⟩
    let w : Workspace :=
      ⟨⟨⟨1⟩, .call ⟨none, "_+_", [⟨.unset, .ident ⟨"a"⟩⟩, ⟨⟨2⟩, .comprehension ⟨"x",
        ⟨⟨3⟩, .ident ⟨"xs"⟩⟩, "r", ⟨⟨4⟩, .list ⟨[], .empty⟩⟩, ⟨⟨5⟩, .ident ⟨"t"⟩⟩, inner,
        ⟨⟨12⟩, .ident ⟨"r"⟩⟩⟩⟩]⟩⟩,
        { SourceInfo.empty with macroCalls := .ofList [(⟨2⟩, ⟨.unset, .call
          ⟨some ⟨⟨3⟩, .ident ⟨"xs"⟩⟩, "all", [⟨⟨13⟩, .ident ⟨"x"⟩⟩, ⟨⟨6⟩, .notSet⟩]⟩⟩),
          (⟨6⟩, ⟨⟨20⟩, .call ⟨some ⟨⟨7⟩, .ident ⟨"x"⟩⟩, "exists",
            [⟨⟨14⟩, .ident ⟨"y"⟩⟩, ⟨⟨10⟩, .ident ⟨"y"⟩⟩]⟩⟩)] }⟩
    let text := "a + xs.all(x, x.exists(y, y))"
    w.Consistent ∧ w.unparse = .ok text ∧ w.root.find? ⟨6⟩ = some inner ∧
      (∃ v, renumber 30 w = .ok v ∧ v.root ≠ w.root ∧ v.unparse = .ok text) ∧
      ∃ v, replaceBy 30 w (.ofExpr inner) ⟨6⟩ = .ok v ∧ v.root = w.root ∧ v.unparse = .ok text := by
  intro inner w text
  have hw : w.Consistent := by decide +kernel
  have htext : w.unparse = .ok text := except_toOption_eq_some.1 (by decide +kernel)
  have hfound : w.root.find? ⟨6⟩ = some inner := by decide
  obtain ⟨hrenumber, hreplace⟩ := unparse_unchanged hw htext
  refine ⟨hw, htext, hfound, ?_, ?_⟩
  · have hroot : (renumber 30 w).toOption.map (fun v => decide (v.root = w.root)) = some false := by
      decide +kernel
    obtain ⟨v, hv, hne⟩ := Option.map_eq_some_iff.1 hroot
    rw [except_toOption_eq_some] at hv
    exact ⟨v, hv, of_decide_eq_false hne, hrenumber 30 v hv⟩
  · have hsome : (replaceBy 30 w (.ofExpr inner) ⟨6⟩).toOption.isSome := by decide +kernel
    obtain ⟨v, hv⟩ := Option.isSome_iff_exists.1 hsome
    rw [except_toOption_eq_some] at hv
    exact ⟨v, hv, hreplace 30 _ _ v hfound hv⟩

end Workspace

end CelEdit
