import CelEdit.Proofs.BindTexts

/-!
# What a binding puts into the host

Up to ids, binding a variable puts one comprehension in the place of the target. With its macro call
it comes with a shadow that shows the parts of the comprehension itself, and the copies in its result
have the macro calls of the nodes that they were copied from; without it, nothing in the comprehension
has one.
-/

namespace CelEdit.Workspace

open Runs CelEdit.Expr MacroCalls Unparse

/-- The comprehension that binds a variable, without ids of its own. -/
def bindExpr (name : String) (init result : Expr) : Expr :=
  .comprehension ⟨name, .list [.constant .null], name, init, .constant (.bool false), .ident name,
    result⟩

variable {budget : Nat} {seed seed' target : NodeId} {host donor stable w : Workspace} {name : String}
  {init result d m n : Expr} {b : BindParts} {s t t' : IdSupply} {i : NodeId} {p r : Position}
  {populate : Bool}

lemma eraseIds_bindDonor (h : Ends (bindDonor budget host name init result populate) s donor t) :
    donor.root.eraseIds = (bindExpr name init result).eraseIds := by
  obtain ⟨t', hbound⟩ := bindDonor_root h
  obtain ⟨accuInit, result', null, range, condition, step, id, hroot, hinit, hresult, -⟩ :=
    bindComprehension_cases hbound
  rw [hroot, bindExpr, Expr.comprehension, eraseIds_eq_iff]
  refine ⟨rfl, ?_⟩
  simp only [Kind.children, List.map_cons, List.map_nil, hinit, hresult]
  rfl

lemma bindDonor_false (h : Ends (bindDonor budget host name init result false) s donor t) :
    donor.source = .empty := by
  simp only [bindDonor, Bool.false_eq_true, if_false, ends_bind, ends_pure] at h
  obtain ⟨_, _, -, _, _, ⟨rfl, -⟩, rfl, -⟩ := h
  rfl

namespace Binds

/-- The shadow of the binding, after the graft: its parts are those of the comprehension. -/
lemma callAt?_graft (h : Binds seed host name init result donor b t') (hresult : result.DistinctIds)
    (hgraft : DistinctGraft seed' host donor stable target p w s t) {c : Comprehension Expr}
    (hd : w.root.at? p = some d) (hc : d.kind = .comprehension c) :
    ∃ receiver variable_, w.callAt? p = some ⟨.unset, .call ⟨some ⟨receiver, .ident ⟨"cel"⟩⟩, "bind",
      [⟨variable_, .ident ⟨name⟩⟩, collapse c.accuInit, collapse c.result]⟩⟩ := by
  let f := Origin.donor.carry s t
  have hcall : donor.callAt? [] = some (b.call name) := by
    rw [callAt?_of_at (at?_nil _), h.root]
    exact h.macroCall?_root
  have hmem : (b.id, b.call name) ∈ donor.source.macroCalls.entries :=
    (macroCall?_nil_eq_some.1 h.macroCall?_root).2
  -- no node has the id of a label, which stays as it is
  have hlabel : ∀ (i : NodeId) (text : String), i ∈ b.labels →
      ⟨i, .ident ⟨text⟩⟩ ∈ (b.call name).preorder →
      collapse (refresh w.root.nodesById (mapIds f ⟨i, .ident ⟨text⟩⟩)) = ⟨f i, .ident ⟨text⟩⟩ := by
    intro i text hi hx
    have hnone : named? w.root (f i) = none := by
      rw [Option.eq_none_iff_forall_ne_some]
      intro n hn
      obtain ⟨hn, hid⟩ := mem_of_named? hn
      obtain ⟨q, hq⟩ := mem_preorder_iff.1 hn
      obtain ⟨-, r, m, -, hm, hmid⟩ :=
        hgraft.exists_moves_of_entry (o := .donor) hmem hx (fun ho => nomatch ho) hq hid.symm
      exact h.ne_label hresult (mem_preorder_iff.2 ⟨r, hm⟩) hi hmid
    rw [mapIds_mk, refresh_of_not_named hnone]
    exact collapse_of_tag_ne (k := .ident ⟨text⟩) KindTag.noConfusion (f i)
  -- a part of the comprehension is shown as it stands in the new tree
  have hpart : ∀ (j : Nat) (m n : Expr), donor.root.at? [j] = some m → d.children[j]? = some n →
      refresh w.root.nodesById (m.mapIds f) = n := by
    intro j m n hm hn
    have hset := h.isSet_of_mem (mem_preorder_iff.2 ⟨_, hm⟩)
    have hn' : w.root.at? (p ++ [j]) = some n := at?_below hd (at?_cons_eq_some.2 ⟨n, hn, rfl⟩)
    apply refresh_of_named
    rw [id_mapIds]
    exact hgraft.named?_carry (o := .donor) rfl hm hset hn'
  have hinit := hpart 1 b.accuInit c.accuInit (by rw [h.root]; rfl) (by rw [Expr.children, hc]; rfl)
  have hresult' := hpart 4 b.result c.result (by rw [h.root]; rfl) (by rw [Expr.children, hc]; rfl)
  have hreceiver := hlabel b.receiver "cel" (by simp [BindParts.labels]) (mem_preorder_mk.2 (.inr
    ⟨_, by simp [Kind.children], self_mem_preorder _⟩))
  have hvariable := hlabel b.variable_ name (by simp [BindParts.labels]) (mem_preorder_mk.2 (.inr
    ⟨_, by simp [Kind.children], self_mem_preorder _⟩))
  refine ⟨f b.receiver, f b.variable_, ?_⟩
  rw [← List.append_nil p, hgraft.callAt?_donor hcall, BindParts.call, mapIds_mk,
    show Origin.donor.carry s t .unset = .unset from rfl, refresh_of_not_named (named?_unset _)]
  rw [collapse_of_tag_ne KindTag.noConfusion, ← hinit, ← hresult', ← hreceiver, ← hvariable]
  rfl

/-- The copy of a node of the result has a macro call after the graft if the node had one. -/
lemma exists_copy_graft (h : Binds seed host name init result donor b t')
    (hdistinct : donor.root.DistinctIds)
    (hgraft : DistinctGraft seed' host donor stable target p w s t) {c : Comprehension Expr}
    (hd : w.root.at? p = some d) (hc : d.kind = .comprehension c) (hm : result.at? r = some m)
    (hset : m.id.isSet) (hkey : m.id ∈ host.source.macroCalls.keys) :
    ∃ n, c.result.at? r = some n ∧ n.id ∈ w.source.macroCalls.keys := by
  obtain ⟨e, he, hid⟩ := List.mem_map.1 hkey
  have hcall : macroCall? host.source.macroCalls [] m.id = some e.2 :=
    macroCall?_nil_eq_some.2 ⟨hset, hid ▸ he⟩
  obtain ⟨k, hk, -, hcopy⟩ := h.exists_copy hm
  have hat : donor.root.at? (4 :: r) = some k := by
    rw [h.root]
    exact at?_cons_eq_some.2 ⟨b.result, rfl, hk⟩
  have hdonor : (donor.callAt? (4 :: r)).isSome := by
    rw [callAt?_of_at hat, ← hcopy hset, h.macroCall?_copy hdistinct hm hset, hcall]
    rfl
  have hsome : (w.callAt? (p ++ 4 :: r)).isSome := by
    rw [← hgraft.isSome_callAt? (o := .donor) rfl]
    exact hdonor
  obtain ⟨call, hcall⟩ := Option.isSome_iff_exists.1 hsome
  obtain ⟨n, hn, -, hmem⟩ := exists_of_callAt? hcall
  rw [at?_append, hd, Option.bind_some, at?_cons, Expr.children, hc] at hn
  exact ⟨n, hn, List.mem_map_of_mem hmem⟩

end Binds

/-- Binding a variable is a graft of the comprehension `bindExpr`. If the macro call is asked for, it
is `cel.bind(name, init, result)` on the parts of the comprehension, and each macro call of the host
for a node of the result is there for the copy too; otherwise the comprehension has no macro calls. -/
theorem replaceByBind_synthesizes (hhost : host.root.DistinctIds) (hresult : result.DistinctIds)
    (h : replaceByBind budget host name init result target populate = .ok w) :
    ∃ p d c, host.root.firstAt? target = some p ∧
      w.root.eraseIds = (setAt (bindExpr name init result) p host.root).eraseIds ∧
      w.root.at? p = some d ∧ d.kind = .comprehension c ∧
      (populate = true →
        (∃ root receiver variable_, w.source.macroCalls.get? d.id = some ⟨root, .call
          ⟨some ⟨receiver, .ident ⟨"cel"⟩⟩, "bind",
            [⟨variable_, .ident ⟨name⟩⟩, collapse c.accuInit, collapse c.result]⟩⟩) ∧
        ∀ key ∈ host.source.macroCalls.keys, key.isSet → ∀ r m, result.at? r = some m → m.id = key →
          ∃ n, c.result.at? r = some n ∧ n.id ∈ w.source.macroCalls.keys) ∧
      (populate = false → ∀ n ∈ d.preorder, n.id ∉ w.source.macroCalls.keys) := by
  obtain ⟨seed, donor, t, hdonor, hdistinct, seed', stable, p, s, t', hgraft⟩ :=
    exists_graft_of_bind hhost hresult h
  have hshape := eraseIds_bindDonor hdonor
  obtain ⟨d, hd, -, -, houtline⟩ := hgraft.exists_at_graft
  obtain ⟨c, hc⟩ : ∃ c, d.kind = .comprehension c := by
    have htag := Kind.tag_eq_of_outline_eq ((outline_eq_of_eraseIds hshape).trans houtline)
    cases hkind : d.kind with
    | comprehension c => exact ⟨c, rfl⟩
    | _ =>
      rw [hkind] at htag
      cases htag
  refine ⟨p, d, c, hgraft.grafted.found, ?_, hd, hc, ?_, ?_⟩
  · rw [hgraft.grafted.shape, eraseIds_setAt_congr (hgraft.relocated.shape.trans hshape)]
  · rintro rfl
    obtain ⟨b, hbinds⟩ := binds_of_bindDonor hdonor
    constructor
    · obtain ⟨receiver, variable_, hcall⟩ := hbinds.callAt?_graft hresult hgraft hd hc
      obtain ⟨d', hd', -, hmem⟩ := exists_of_callAt? hcall
      obtain rfl := Option.some.inj (hd.symm.trans hd')
      exact ⟨.unset, receiver, variable_, IdMap.get?_eq_some_iff.2 hmem⟩
    · rintro key hkey hset r m hm rfl
      exact hbinds.exists_copy_graft hdistinct hgraft hd hc hm hset hkey
  · rintro rfl n hn hkey
    obtain ⟨r, hr⟩ := mem_preorder_iff.1 hn
    have hn := at?_below hd hr
    obtain ⟨e, he, hid⟩ := List.mem_map.1 hkey
    have hcall : w.callAt? (p ++ r) = some e.2 := by
      rw [callAt?_of_at hn]
      exact macroCall?_nil_eq_some.2 ⟨hgraft.isSet_at hn, hid ▸ he⟩
    -- a call of a node of the comprehension would come from one of the donor, which has none
    have hsome := hgraft.isSome_callAt? (o := .donor) (r := r) rfl
    rw [hcall, Option.isSome_some, Option.isSome_iff_exists] at hsome
    obtain ⟨call, hsome⟩ := hsome
    obtain ⟨m, -, -, hmem⟩ := exists_of_callAt? hsome
    change (m.id, call) ∈ donor.source.macroCalls.entries at hmem
    rw [bindDonor_false hdonor] at hmem
    cases hmem

/-- The target is the root, and the result has a copy of it, with two macro calls. -/
theorem replaceByBind_synthesizes_mapOfExists :
    let init : Expr := ⟨⟨21⟩, .constant (.int 7)⟩
    let result : Expr := ⟨.unset, .call ⟨none, "_+_", [⟨.unset, .ident ⟨"v"⟩⟩, mapOfExists.root]⟩⟩
    ∃ w d c n, replaceByBind 200 mapOfExists "v" init result ⟨21⟩ true = .ok w ∧
      w.root.eraseIds = (bindExpr "v" init result).eraseIds ∧
      w.root = d ∧ d.kind = .comprehension c ∧
      (∃ root receiver variable_, w.source.macroCalls.get? d.id = some ⟨root, .call
        ⟨some ⟨receiver, .ident ⟨"cel"⟩⟩, "bind",
          [⟨variable_, .ident ⟨"v"⟩⟩, collapse c.accuInit, collapse c.result]⟩⟩) ∧
      c.result.at? [1] = some n ∧ n.id ∈ w.source.macroCalls.keys := by
  intro init result
  have hsome : (replaceByBind 200 mapOfExists "v" init result ⟨21⟩ true).toOption.isSome := by
    decide +kernel
  obtain ⟨w, hw⟩ := Option.isSome_iff_exists.1 hsome
  rw [except_toOption_eq_some] at hw
  obtain ⟨p, d, c, hp, hshape, hd, hc, hcalls, -⟩ :=
    replaceByBind_synthesizes (by decide +kernel) (by decide +kernel) hw
  have hfirst : mapOfExists.root.firstAt? ⟨21⟩ = some [] := by decide
  rw [hfirst, Option.some.injEq] at hp
  subst hp
  obtain ⟨hcall, hcopies⟩ := hcalls rfl
  obtain ⟨n, hn, hkey⟩ := hcopies ⟨21⟩ (by decide) rfl [1] mapOfExists.root rfl rfl
  exact ⟨w, d, c, n, hw, hshape, Option.some.inj hd, hc, hcall, hn, hkey⟩

end CelEdit.Workspace
