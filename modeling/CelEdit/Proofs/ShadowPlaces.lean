import CelEdit.Proofs.Remainders

/-!
# The places that shadows point to

A shadow that is derived from a tree agrees with it, and its parts name nodes below the key if they
did so before. So a graft of anything but a list, which a mapping macro could take in, keeps a
workspace consistent.
-/

namespace CelEdit

open CelEdit.Expr MacroCalls

namespace MacroCalls

variable {root s x n k : Expr} {f : NodeId → NodeId}

lemma collapse_collapse (e : Expr) : collapse (collapse e) = collapse e := by
  induction e using Expr.induct with
  | node id k ih =>
    by_cases htag : k.tag = .comprehension
    · cases k with
      | comprehension c =>
        rw [collapse_comprehension]
        exact collapse_of_tag_ne (k := .notSet) KindTag.noConfusion id
      | _ => cases htag
    · rw [collapse_of_tag_ne htag, collapse_of_tag_ne (by rwa [Kind.tag_mapChildren]),
        Kind.mapChildren_mapChildren]
      congr 1
      exact Kind.mapChildren_congr (fun c hc => ih c hc)

/-- A part of a refreshed shadow belongs to a node that some part of the shadow comes to name, or it
names none itself. -/
lemma mem_refresh_cases (h : x ∈ (refresh root.nodesById (s.mapIds f)).preorder) :
    (∃ y ∈ s.preorder, ∃ n, named? root (f y.id) = some n ∧ x ∈ n.preorder) ∨
      named? root x.id = none := by
  induction s using Expr.induct with
  | node id k ih =>
    rw [mapIds_mk] at h
    cases hnamed : named? root (f id) with
    | some n =>
      have hrefresh : refresh root.nodesById ⟨f id, (k.mapChildren (mapIds f)).mapEntryIds f⟩ = n :=
        refresh_of_named hnamed
      rw [hrefresh] at h
      exact .inl ⟨_, self_mem_preorder _, n, hnamed, h⟩
    | none =>
      rw [refresh_of_not_named hnamed, mem_preorder_mk] at h
      rcases h with rfl | ⟨c', hc', hx⟩
      · exact .inr hnamed
      · rw [Kind.children_mapChildren, Kind.children_mapEntryIds, Kind.children_mapChildren,
          List.map_map, List.mem_map] at hc'
        obtain ⟨c, hc, rfl⟩ := hc'
        refine (ih c hc hx).imp_left ?_
        rintro ⟨y, hy, hbelow⟩
        exact ⟨y, mem_preorder_mk.2 (.inr ⟨c, hc, hy⟩), hbelow⟩

lemma collapse_eq_of_mem_shadow (hroot : root.DistinctIds)
    (hx : x ∈ (collapse (refresh root.nodesById s)).preorder) (hn : n ∈ root.preorder)
    (hset : x.id.isSet) (hid : x.id = n.id) : collapse x = collapse n := by
  rw [((mirrors_refresh hroot s).collapse hx).2 n hn hset hid, collapse_collapse]

/-- If the parts of a shadow come to name nodes below `k`, so do those of the derived one. -/
lemma mem_of_mem_shadow (hroot : root.DistinctIds) (hk : k ∈ root.preorder)
    (hbelow : ∀ y ∈ s.preorder, ∀ n, named? root (f y.id) = some n → n ∈ k.preorder)
    (hx : x ∈ (collapse (refresh root.nodesById (s.mapIds f))).preorder) (hn : n ∈ root.preorder)
    (hset : x.id.isSet) (hid : n.id = x.id) : n ∈ k.preorder := by
  obtain ⟨y, hy, rfl⟩ := mem_preorder_collapse hx
  rw [collapse_id] at hset hid
  rcases mem_refresh_cases hy with ⟨z, hz, m, hm, hym⟩ | hnone
  · have hyk := mem_preorder_trans hym (hbelow z hz m hm)
    rw [← hroot.node_eq (mem_preorder_trans hyk hk) hn hset hid.symm]
    exact hyk
  · exact absurd hid.symm (named?_eq_none_iff.1 hnone n hn hset)

end MacroCalls

lemma Expr.mem_preorder_of_at {e m n : Expr} {q r : Position} (hm : e.at? q = some m)
    (hn : e.at? (q ++ r) = some n) : n ∈ m.preorder := by
  rw [at?_append, hm, Option.bind_some] at hn
  exact mem_preorder_iff.2 ⟨r, hn⟩

namespace Workspace

/-- What names a node below a key stands below it. -/
lemma ShadowsBelow.position {w : Workspace} (h : w.ShadowsBelow) (hw : w.root.DistinctIds)
    {e : NodeId × Expr} (he : e ∈ w.source.macroCalls.entries) {x m n : Expr} {q r : Position}
    (hx : x ∈ e.2.preorder) (hset : x.id.isSet) (hm : w.root.at? q = some m) (hkey : m.id = e.1)
    (hn : w.root.at? r = some n) (hid : n.id = x.id) : ∃ u, r = q ++ u := by
  have hmem := h e he x hx m (mem_preorder_iff.2 ⟨q, hm⟩) n (mem_preorder_iff.2 ⟨r, hn⟩) hset hid hkey
  obtain ⟨u, hu⟩ := mem_preorder_iff.1 hmem
  have hn' : w.root.at? (q ++ u) = some n := at?_below hm hu
  exact ⟨u, hw.position_eq hn hn' (hid ▸ hset) rfl⟩

namespace DistinctGraft

variable {seed target : NodeId} {host donor stable w : Workspace} {p : Position} {s t : IdSupply}

/-- When the donor is no list, every shadow is refreshed and nothing else. -/
lemma exists_refreshed (h : DistinctGraft seed host donor stable target p w s t)
    (hdonor : donor.root.kind.tag ≠ .list) {e : NodeId × Expr}
    (he : e ∈ w.source.macroCalls.entries) :
    ∃ (x : Survivor host donor p) (n : Expr), w.root.at? x.position = some n ∧
      e = (n.id, collapse
        (refresh w.root.nodesById (x.entry.2.mapIds (x.origin.carry s t)))) := by
  obtain ⟨x, n, hn, rfl⟩ := h.exists_survivor he
  obtain ⟨d, hd, -⟩ := h.exists_at_graft
  have hstep : replacedStep? n (t.exchangeOf target) = none := by
    rw [Option.eq_none_iff_forall_ne_some]
    intro elements helements
    exact hdonor ((h.replacedStep?_iff hn hd).1 helements).1.2
  exact ⟨x, n, hn, by rw [derive_of_replacedStep?_eq_none hstep]⟩

theorem consistent (h : DistinctGraft seed host donor stable target p w s t)
    (hdonor : donor.root.kind.tag ≠ .list) : w.Consistent := by
  refine ⟨h.keyed, ?_⟩
  intro e he x hx n hn hset hid
  obtain ⟨survivor, m, -, rfl⟩ := h.exists_refreshed hdonor he
  exact collapse_eq_of_mem_shadow h.distinct hx hn hset hid

/-- A part of an old shadow comes to name a node below the one that its key has become. -/
lemma mem_of_named (h : DistinctGraft seed host donor stable target p w s t)
    (hhost : host.ShadowsBelow) (hdonor : donor.ShadowsBelow) {o : Origin} {e : NodeId × Expr}
    {q r : Position} {k n m y : Expr}
    (hmem : e ∈ (o.workspace host donor).source.macroCalls.entries) (hmoves : o.Moves p r q)
    (hk : (o.workspace host donor).root.at? r = some k) (hkey : k.id = e.1)
    (hn : w.root.at? q = some n) (hy : y ∈ e.2.preorder)
    (hm : named? w.root (o.carry s t y.id) = some m) : m ∈ n.preorder := by
  obtain ⟨hm, hid⟩ := mem_of_named? hm
  obtain ⟨q', hq'⟩ := mem_preorder_iff.1 hm
  by_cases htarget : o = .host ∧ y.id = target
  · obtain ⟨rfl, rfl⟩ := htarget
    obtain ⟨rfl, -⟩ := hmoves
    obtain ⟨d, hd, hdset, hplaced, -⟩ := h.exists_at_graft
    obtain ⟨old, hold, hidOld⟩ := h.grafted.at_target
    -- the target itself: the donor takes its position
    obtain rfl := h.distinct.position_eq hd hq' hdset (hplaced.symm.trans hid.symm)
    obtain ⟨u, rfl⟩ := hhost.position h.host_distinct hmem hy h.target_isSet hk hkey hold hidOld
    exact mem_preorder_of_at hn hq'
  · have hne : o = .host → y.id ≠ target := fun ho hy => htarget ⟨ho, hy⟩
    obtain ⟨hset, r', m', hmoves', hm', hidOld⟩ := h.exists_moves_of_entry hmem hy hne hq' hid.symm
    cases o with
    | host =>
      obtain ⟨rfl, -⟩ := hmoves
      obtain ⟨rfl, -⟩ := hmoves'
      obtain ⟨u, rfl⟩ := hhost.position h.host_distinct hmem hy hset hk hkey hm' hidOld
      exact mem_preorder_of_at hn hq'
    | donor =>
      obtain rfl := hmoves
      obtain rfl := hmoves'
      obtain ⟨u, rfl⟩ := hdonor.position h.donor_distinct hmem hy hset hk hkey hm' hidOld
      rw [← List.append_assoc] at hq'
      exact mem_preorder_of_at hn hq'

theorem shadowsBelow (h : DistinctGraft seed host donor stable target p w s t)
    (hhost : host.ShadowsBelow) (hdonor : donor.ShadowsBelow)
    (hkind : donor.root.kind.tag ≠ .list) : w.ShadowsBelow := by
  intro e he x hx k hk n hn hset hid hkey
  obtain ⟨survivor, m, hm, rfl⟩ := h.exists_refreshed hkind he
  have hmem := mem_preorder_iff.2 ⟨_, hm⟩
  obtain rfl := h.distinct.node_eq hmem hk (h.isSet_at hm) hkey.symm
  obtain ⟨r, old, hmoves, hold, hkeyOld⟩ := survivor.named
  exact mem_of_mem_shadow h.distinct hk
    (fun y hy n hn => h.mem_of_named hhost hdonor survivor.mem hmoves hold hkeyOld hm hy hn) hx hn
    hset hid

end DistinctGraft

end Workspace

end CelEdit
