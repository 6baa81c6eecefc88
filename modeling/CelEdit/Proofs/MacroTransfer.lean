import CelEdit.Proofs.Replacements
import Mathlib.Logic.Equiv.Basic

/-!
# Macro calls after a graft

Where the nodes of host and donor stand after a graft, and which macro calls come with them. The ids
of the donor are exchanged twice and those of the host once; the ranges of ids keep the two apart.
-/

namespace CelEdit.Workspace

open Runs CelEdit.Expr

/-- The tree that a node or a macro call comes from. -/
inductive Origin where
  | host
  | donor

namespace Origin

def workspace (host donor : Workspace) : Origin → Workspace
  | .host => host
  | .donor => donor

/-- After a replacement at `p`, what was at `r` stands at `q`. -/
def Moves (p : Position) : Origin → Position → Position → Prop
  | .host, r, q => q = r ∧ ¬ p <+: r
  | .donor, r, q => q = p ++ r

/-- The exchange of an id by the supplies of a relocation and a graft. -/
def carry (s t : IdSupply) : Origin → NodeId → NodeId
  | .host, i => t.exchangeOf i
  | .donor, i => t.exchangeOf (s.exchangeOf i)

end Origin

/-- A macro call whose node outlives a replacement at `p`, with the position of that node. -/
structure Survivor (host donor : Workspace) (p : Position) where
  origin : Origin
  entry : NodeId × Expr
  position : Position
  mem : entry ∈ (origin.workspace host donor).source.macroCalls.entries
  key_isSet : entry.1.isSet
  named : ∃ r m, origin.Moves p r position ∧
    (origin.workspace host donor).root.at? r = some m ∧ m.id = entry.1

namespace DistinctGraft

variable {seed target : NodeId} {host donor stable w : Workspace} {p q r : Position}
  {s t : IdSupply} {m n : Expr} {i : NodeId}

/-! ### Nodes -/

/-- The id of a node of the new tree is the exchange of the id at its position and of no other. -/
lemma exists_setAt_at (h : DistinctGraft seed host donor stable target p w s t)
    (hn : w.root.at? q = some n) (hi : i ≠ target) (hid : t.exchangeOf i = n.id) :
    ∃ m, (setAt stable.root p host.root).at? q = some m ∧ m.id = i :=
  exists_origin_at h.grafted.relabels h.grafted.injectiveOn
    (fun _ hmem hset =>
      h.grafted.ne_target h.host_distinct (fun _ => h.lt_of_mem_stable) hmem hset) hn hi hid

lemma exists_id_at {d e : Expr} (houtside : ¬ p <+: q) (hm : (setAt d p e).at? q = some m) :
    ∃ m', e.at? q = some m' ∧ m'.id = m.id := by
  have hsame := at?_setAt_of_not_prefix houtside d e
  rw [hm, Option.map_some, eq_comm, Option.map_eq_some_iff] at hsame
  obtain ⟨m', hm', hpair⟩ := hsame
  exact ⟨m', hm', (Prod.mk.inj hpair).1⟩

/-- An id above those of the host can only be the one of a node of the donor. -/
lemma exists_stable_at (h : DistinctGraft seed host donor stable target p w s t)
    (hn : w.root.at? q = some n) (hi : host.maxId.toNat < i.toNat) (hid : t.exchangeOf i = n.id) :
    ∃ r m, q = p ++ r ∧ stable.root.at? r = some m ∧ m.id = i := by
  obtain ⟨x, hx, -⟩ := h.grafted.at_target
  have htarget := h.target_le_maxId
  have hne : i ≠ target := by
    rintro rfl
    omega
  obtain ⟨m, hm, rfl⟩ := h.exists_setAt_at hn hne hid
  by_cases hbelow : p <+: q
  · obtain ⟨r, rfl⟩ := hbelow
    rw [at?_setAt_append hx] at hm
    exact ⟨r, m, rfl, hm, rfl⟩
  · obtain ⟨m', hm', hid'⟩ := exists_id_at hbelow hm
    have hmem := toNat_le_maxId_of_root (id_mem_slots (mem_preorder_iff.2 ⟨q, hm'⟩))
    rw [hid'] at hmem
    omega

/-- Any other id but the target is that of a node of the host. -/
lemma exists_host_at (h : DistinctGraft seed host donor stable target p w s t)
    (hn : w.root.at? q = some n) (hi : i.toNat ≤ host.maxId.toNat) (hne : i ≠ target)
    (hid : t.exchangeOf i = n.id) : ¬ p <+: q ∧ ∃ m, host.root.at? q = some m ∧ m.id = i := by
  obtain ⟨x, hx, -⟩ := h.grafted.at_target
  obtain ⟨m, hm, rfl⟩ := h.exists_setAt_at hn hne hid
  have houtside : ¬ p <+: q := by
    rintro ⟨r, rfl⟩
    rw [at?_setAt_append hx] at hm
    have hlt := h.lt_of_mem_stable (id_mem_slots (mem_preorder_iff.2 ⟨r, hm⟩))
    omega
  exact ⟨houtside, exists_id_at houtside hm⟩

lemma exists_at_of_stable (h : DistinctGraft seed host donor stable target p w s t)
    (hm : stable.root.at? r = some m) :
    m.id.isSet ∧ ∃ n, w.root.at? (p ++ r) = some n ∧ n.id.isSet ∧ t.exchangeOf m.id = n.id := by
  obtain ⟨x, hx, -⟩ := h.grafted.at_target
  have hset : m.id.isSet := NodeId.isSet_of_lt
    (h.relocated.bounds (id_mem_slots (mem_preorder_iff.2 ⟨r, hm⟩))).1
  rw [← at?_setAt_append hx] at hm
  obtain ⟨n, hn, hnset, hid⟩ := exists_exchanged_at h.grafted.relabels hm
  exact ⟨hset, n, hn, hnset, hid hset⟩

/-- A node that outlives the graft stands at its new position and has the exchange of its id. -/
theorem exists_at_of_moves (h : DistinctGraft seed host donor stable target p w s t) {o : Origin}
    (hmoves : o.Moves p r q) (hm : (o.workspace host donor).root.at? r = some m)
    (hset : m.id.isSet) : ∃ n, w.root.at? q = some n ∧ n.id.isSet ∧ o.carry s t m.id = n.id := by
  cases o with
  | host =>
    obtain ⟨rfl, houtside⟩ := hmoves
    have hsame := at?_setAt_of_not_prefix houtside stable.root host.root
    change host.root.at? q = some m at hm
    rw [hm, Option.map_some, Option.map_eq_some_iff] at hsame
    obtain ⟨m', hm', hpair⟩ := hsame
    have hid := (Prod.mk.inj hpair).1
    obtain ⟨n, hn, hnset, hexchange⟩ := exists_exchanged_at h.grafted.relabels hm'
    rw [hid] at hexchange
    exact ⟨n, hn, hnset, hexchange hset⟩
  | donor =>
    obtain rfl := hmoves
    obtain ⟨m', hm', -, hexchange⟩ := exists_exchanged_at h.relocated.relabels hm
    obtain ⟨-, n, hn, hnset, hid⟩ := h.exists_at_of_stable hm'
    exact ⟨n, hn, hnset, (congrArg t.exchangeOf (hexchange hset)).trans hid⟩

lemma isSet_at (h : DistinctGraft seed host donor stable target p w s t)
    (hn : w.root.at? q = some n) : n.id.isSet :=
  (root_bounds h.grafted.run (IdSupply.sound_ofSeed _) n (mem_preorder_iff.2 ⟨q, hn⟩)).1

/-- Conversely, an id of host or donor that is exchanged for the id of a node of the new tree names a
node that has moved there. -/
theorem exists_moves_of_carry (h : DistinctGraft seed host donor stable target p w s t) {o : Origin}
    (hn : w.root.at? q = some n) (hi : i.toNat ≤ (o.workspace host donor).maxId.toNat)
    (hne : o = .host → i ≠ target) (hid : o.carry s t i = n.id) :
    ∃ r m, o.Moves p r q ∧ (o.workspace host donor).root.at? r = some m ∧ m.id = i := by
  cases o with
  | host =>
    obtain ⟨houtside, m, hm, hmid⟩ := h.exists_host_at hn hi (hne rfl) hid
    exact ⟨q, m, ⟨rfl, houtside⟩, hm, hmid⟩
  | donor =>
    change t.exchangeOf (s.exchangeOf i) = n.id at hid
    have hset := h.isSet_at hn
    have hle := h.above
    rcases h.relocated.sound.exchangeOf i with hunset | ⟨hlt, -⟩
    · rw [hunset, IdSupply.exchangeOf_unset] at hid
      rw [← hid] at hset
      exact absurd hset Bool.false_ne_true
    · obtain ⟨r, m', rfl, hm', hmid⟩ := h.exists_stable_at hn (by omega) hid
      obtain ⟨m, hm, hid'⟩ := exists_origin_at h.relocated.relabels h.relocated.injectiveOn
        (fun _ _ _ => trivial) hm' trivial hmid.symm
      exact ⟨r, m, rfl, hm, hid'⟩

/-! ### Entries -/

lemma lt_of_mem_keys_stable (h : DistinctGraft seed host donor stable target p w s t)
    (hi : i ∈ stable.source.macroCalls.keys) : host.maxId.toNat < i.toNat := by
  rw [h.relocated.calls] at hi
  obtain ⟨n, hn, rfl⟩ := MacroCalls.exists_node_of_mem_keys hi
  exact h.lt_of_mem_stable (id_mem_slots hn)

/-- The entries that are derived again: those of the relocated donor and those of the host, but for
the one of the target. -/
lemma mem_combined (h : DistinctGraft seed host donor stable target p w s t) {e : NodeId × Expr} :
    e ∈ ((host.source.macroCalls.erase target).union stable.source.macroCalls).entries ↔
      e ∈ stable.source.macroCalls.entries ∨ e ∈ host.source.macroCalls.entries ∧ e.1 ≠ target := by
  rw [← IdMap.get?_eq_some_iff, ← IdMap.get?_eq_some_iff, ← IdMap.get?_eq_some_iff, IdMap.get?_union,
    IdMap.get?_erase, Option.or_eq_some_iff]
  constructor
  · rintro (hstable | ⟨-, hhost⟩)
    · exact .inl hstable
    · by_cases htarget : e.1 = target
      · rw [if_pos htarget] at hhost
        cases hhost
      · rw [if_neg htarget] at hhost
        exact .inr ⟨hhost, htarget⟩
  · rintro (hstable | ⟨hhost, htarget⟩)
    · exact .inl hstable
    · refine .inr ⟨?_, by rw [if_neg htarget, hhost]⟩
      rw [Option.eq_none_iff_forall_ne_some]
      intro shadow hshadow
      have hlt := h.lt_of_mem_keys_stable (IdMap.get?_isSome_iff.1 (Option.isSome_of_eq_some hshadow))
      have hle : e.1.toNat ≤ host.maxId.toNat :=
        (toNat_le_maxId_of_entry (IdMap.get?_eq_some_iff.1 hhost)).1
      omega

lemma key_ne_target (h : DistinctGraft seed host donor stable target p w s t) {e : NodeId × Expr}
    (he : e ∈ ((host.source.macroCalls.erase target).union stable.source.macroCalls).entries) :
    e.1 ≠ target := by
  rcases h.mem_combined.1 he with hstable | ⟨-, hne⟩
  · have hlt : host.maxId.toNat < e.1.toNat := h.lt_of_mem_keys_stable (List.mem_map_of_mem hstable)
    have hle := h.target_le_maxId
    intro heq
    rw [heq] at hlt
    omega
  · exact hne

/-- An entry whose key is exchanged for the id of a node is derived for this node. -/
lemma mem_macroCalls (h : DistinctGraft seed host donor stable target p w s t) {e : NodeId × Expr}
    (he : e ∈ ((host.source.macroCalls.erase target).union stable.source.macroCalls).entries)
    (hn : w.root.at? q = some n) (hid : t.exchangeOf e.1 = n.id) :
    (n.id, MacroCalls.derive (some (t.exchangeOf target)) w.root n (e.2.mapIds t.exchangeOf)) ∈
      w.source.macroCalls.entries := by
  have hnode := h.distinct.nodesById (mem_preorder_iff.2 ⟨q, hn⟩) (h.isSet_at hn)
  rw [h.grafted.source, ← hid]
  apply MacroCalls.mem_derived he (by rw [hid, hnode])
  intro other hother hsame
  have horigin := h.exists_setAt_at hn (h.key_ne_target he) hid
  have horigin' := h.exists_setAt_at hn (h.key_ne_target hother) (hsame.trans hid)
  exact IdMap.entry_eq_of_key hother he (id_unique_at horigin' horigin)

/-! ### Shadows of the donor -/

/-- The donor is put in above its own nodes, so none of them steps over it. -/
lemma replacedStep?_eq_none (h : DistinctGraft seed host donor stable target p w s t)
    (hn : w.root.at? (p ++ r) = some n) :
    MacroCalls.replacedStep? n (t.exchangeOf target) = none := by
  rw [Option.eq_none_iff_forall_ne_some]
  intro elements helements
  obtain ⟨step, hstep, l, hl, hid, -⟩ := MacroCalls.mem_of_replacedStep? helements
  obtain ⟨i, hi⟩ := List.mem_iff_getElem?.1 hstep
  obtain ⟨j, hj⟩ := List.mem_iff_getElem?.1 hl
  have hbelow : w.root.at? (p ++ (r ++ [i, j])) = some l := by
    rw [← List.append_assoc, at?_append, hn, Option.bind_some, at?_cons, hi, Option.bind_some, at?_cons,
      hj, Option.bind_some, at?_nil]
  obtain ⟨-, root, hroot, -, hrootId⟩ := h.exists_at_of_stable (r := []) (at?_nil stable.root)
  have hsame : l.id = root.id := by rw [hid, h.exchangeOf_target, hrootId]
  have hposition := h.distinct.position_eq hbelow hroot (h.isSet_at hbelow) hsame
  have hlength := congrArg List.length hposition
  simp only [List.length_append, List.length_cons, List.length_nil] at hlength
  omega

/-- An id of the relocated donor or of its shadows names a node before and after the graft, or not at
all. -/
lemma named?_exchangeOf (h : DistinctGraft seed host donor stable target p w s t) (i : NodeId) :
    (MacroCalls.named? w.root (t.exchangeOf (s.exchangeOf i))).isSome =
      (MacroCalls.named? stable.root (s.exchangeOf i)).isSome := by
  rcases h.relocated.sound.exchangeOf i with hunset | ⟨hlt, -⟩
  · rw [hunset, IdSupply.exchangeOf_unset, MacroCalls.named?_unset, MacroCalls.named?_unset]
  · have hle := h.above
    rw [Bool.eq_iff_iff]
    constructor
    · intro hsome
      obtain ⟨n, hnamed⟩ := Option.isSome_iff_exists.1 hsome
      obtain ⟨hn, hid⟩ := MacroCalls.mem_of_named? hnamed
      obtain ⟨q, hq⟩ := mem_preorder_iff.1 hn
      obtain ⟨r, m, -, hm, hmid⟩ := h.exists_stable_at hq (by omega) hid.symm
      rw [← hmid]
      exact MacroCalls.named?_isSome (mem_preorder_iff.2 ⟨r, hm⟩) (h.exists_at_of_stable hm).1
    · intro hsome
      obtain ⟨m, hnamed⟩ := Option.isSome_iff_exists.1 hsome
      obtain ⟨hm, hid⟩ := MacroCalls.mem_of_named? hnamed
      obtain ⟨r, hr⟩ := mem_preorder_iff.1 hm
      obtain ⟨-, n, hn, hset, hexchange⟩ := h.exists_at_of_stable hr
      rw [← hid, hexchange]
      exact MacroCalls.named?_isSome (mem_preorder_iff.2 ⟨_, hn⟩) hset

/-- A shadow of the donor is derived twice, which comes to the same as deriving it once. -/
lemma derive_donor (h : DistinctGraft seed host donor stable target p w s t)
    (hn : w.root.at? (p ++ r) = some n) (m shadow : Expr) :
    MacroCalls.derive (some (t.exchangeOf target)) w.root n
      ((MacroCalls.derive none stable.root m (shadow.mapIds s.exchangeOf)).mapIds t.exchangeOf) =
    MacroCalls.derive (some (t.exchangeOf target)) w.root n
      (shadow.mapIds (Origin.donor.carry s t)) := by
  have hstep := h.replacedStep?_eq_none hn
  have hcarry : (shadow.mapIds s.exchangeOf).mapIds t.exchangeOf =
      shadow.mapIds (Origin.donor.carry s t) := mapIds_mapIds ..
  rw [MacroCalls.derive_of_replacedStep?_eq_none hstep,
    MacroCalls.derive_of_replacedStep?_eq_none hstep, ← hcarry]
  apply MacroCalls.collapse_refresh_twice
  intro x hx
  have hmem := id_mem_slots hx
  rw [slots_mapIds, List.mem_map] at hmem
  obtain ⟨i, -, hi⟩ := hmem
  rw [← hi]
  exact h.named?_exchangeOf i

/-! ### Survivors -/

/-- What the entry of a survivor becomes. -/
def Becomes (w : Workspace) (s t : IdSupply) (target : NodeId) (x : Survivor host donor p)
    (e : NodeId × Expr) : Prop :=
  ∃ n, w.root.at? x.position = some n ∧
    e = (n.id, MacroCalls.derive (some (t.exchangeOf target)) w.root n
      (x.entry.2.mapIds (x.origin.carry s t)))

/-- The entry of the donor is derived for the node in the relocated donor. -/
lemma mem_stable (h : DistinctGraft seed host donor stable target p w s t) {e : NodeId × Expr}
    (he : e ∈ donor.source.macroCalls.entries) (hm : stable.root.at? r = some m)
    (hid : s.exchangeOf e.1 = m.id) :
    (m.id, MacroCalls.derive none stable.root m (e.2.mapIds s.exchangeOf)) ∈
      stable.source.macroCalls.entries := by
  have hset := (h.exists_at_of_stable hm).1
  have hnode := (h.relocated.distinct h.donor_distinct).nodesById (mem_preorder_iff.2 ⟨r, hm⟩) hset
  rw [h.relocated.calls, ← hid]
  apply MacroCalls.mem_derived he (by rw [hid, hnode])
  intro other hother hsame
  have horigin {i : NodeId} (hi : s.exchangeOf i = m.id) :
      ∃ x, donor.root.at? r = some x ∧ x.id = i :=
    exists_origin_at h.relocated.relabels h.relocated.injectiveOn (fun _ _ _ => trivial) hm trivial hi
  exact IdMap.entry_eq_of_key hother he (id_unique_at (horigin (hsame.trans hid)) (horigin hid))

theorem exists_entry (h : DistinctGraft seed host donor stable target p w s t)
    (x : Survivor host donor p) : ∃ e ∈ w.source.macroCalls.entries, Becomes w s t target x e := by
  obtain ⟨o, e, q, hmem, hset, r, m, hmoves, hm, hkey⟩ := x
  obtain ⟨n, hn, -, hid⟩ := h.exists_at_of_moves hmoves hm (hkey ▸ hset)
  rw [hkey] at hid
  refine ⟨_, ?_, n, hn, rfl⟩
  cases o with
  | host =>
    obtain ⟨rfl, houtside⟩ := hmoves
    have hne : e.1 ≠ target := by
      -- the target is at `p`, and ids are distinct
      intro heq
      obtain ⟨x, hx, hxid⟩ := h.grafted.at_target
      have hposition := h.host_distinct.position_eq hm hx (hkey ▸ hset) (by rw [hkey, heq, hxid])
      exact houtside (hposition ▸ List.prefix_rfl)
    exact h.mem_macroCalls (h.mem_combined.2 (.inr ⟨hmem, hne⟩)) hn hid
  | donor =>
    obtain rfl := hmoves
    obtain ⟨m', hm', -, hexchange⟩ := exists_exchanged_at h.relocated.relabels hm
    rw [hkey] at hexchange
    have hstable := h.mem_stable hmem hm' (hexchange hset)
    have hid' : t.exchangeOf m'.id = n.id := (congrArg t.exchangeOf (hexchange hset)).symm.trans hid
    have hfinal := h.mem_macroCalls (h.mem_combined.2 (.inl hstable)) hn hid'
    rwa [h.derive_donor hn] at hfinal

theorem exists_survivor (h : DistinctGraft seed host donor stable target p w s t) {e : NodeId × Expr}
    (he : e ∈ w.source.macroCalls.entries) : ∃ x : Survivor host donor p, Becomes w s t target x e := by
  rw [h.grafted.source] at he
  obtain ⟨e', he', n, hnode, hkey, hshadow⟩ := MacroCalls.exists_of_mem_derived he
  obtain ⟨hn, hid⟩ := mem_of_nodesById hnode
  obtain ⟨q, hq⟩ := mem_preorder_iff.1 hn
  have hset := (IdSupply.exchanged?_of_isSet_exchangeOf (hid ▸ h.isSet_at hq)).1
  rcases h.mem_combined.1 he' with hstable | ⟨hhost, hne⟩
  · rw [h.relocated.calls] at hstable
    obtain ⟨e₀, he₀, m, hm, hkey', hshadow'⟩ := MacroCalls.exists_of_mem_derived hstable
    obtain ⟨hmem, hmid⟩ := mem_of_nodesById hm
    obtain ⟨r, hr⟩ := mem_preorder_iff.1 hmem
    obtain ⟨m₀, hm₀, hid₀⟩ := exists_origin_at h.relocated.relabels h.relocated.injectiveOn
      (fun _ _ _ => trivial) hr trivial hmid.symm
    obtain ⟨hmset, n', hn', -, hexchange⟩ := h.exists_at_of_stable hr
    have hset₀ := (IdSupply.exchanged?_of_isSet_exchangeOf (hmid ▸ hmset)).1
    have hsame : n.id = n'.id := by rw [hid, hkey', ← hmid, hexchange]
    have hnode' := h.distinct.node_eq hn (mem_preorder_iff.2 ⟨_, hn'⟩) (h.isSet_at hq) hsame
    rw [← hnode'] at hn'
    refine ⟨⟨.donor, e₀, p ++ r, he₀, hset₀, r, m₀, rfl, hm₀, hid₀⟩, n, hn', ?_⟩
    rw [hshadow', h.derive_donor hn'] at hshadow
    exact Prod.ext (hkey.trans hid.symm) hshadow
  · obtain ⟨houtside, m, hm, hmid⟩ :=
      h.exists_host_at hq (toNat_le_maxId_of_entry hhost).1 hne hid.symm
    refine ⟨⟨.host, e', q, hhost, hset, q, m, ⟨rfl, houtside⟩, hm, hmid⟩, n, hq, ?_⟩
    exact Prod.ext (hkey.trans hid.symm) hshadow

end DistinctGraft

lemma Origin.eq_of_moves {o o' : Origin} {p q r r' : Position} (h : o.Moves p r q)
    (h' : o'.Moves p r' q) : o = o' ∧ r = r' := by
  cases o with
  | host =>
    cases o' with
    | host => exact ⟨rfl, h.1.symm.trans h'.1⟩
    | donor => exact absurd ⟨r', h'.symm.trans h.1⟩ h.2
  | donor =>
    cases o' with
    | host => exact absurd ⟨r, h.symm.trans h'.1⟩ h'.2
    | donor => exact ⟨rfl, List.append_cancel_left (h.symm.trans h')⟩

lemma Survivor.eq_of_position {host donor : Workspace} {p : Position} {x y : Survivor host donor p}
    (h : x.position = y.position) : x = y := by
  obtain ⟨o, e, q, hmem, hset, r, m, hmoves, hm, hkey⟩ := x
  obtain ⟨o', e', q', hmem', hset', r', m', hmoves', hm', hkey'⟩ := y
  obtain rfl : q = q' := h
  obtain ⟨rfl, rfl⟩ := Origin.eq_of_moves hmoves hmoves'
  obtain rfl : m = m' := Option.some.inj (hm.symm.trans hm')
  obtain rfl : e = e' := IdMap.entry_eq_of_key hmem hmem' (hkey.symm.trans hkey')
  rfl

/-- Becoming an entry is a one-to-one correspondence. -/
theorem DistinctGraft.exists_equiv {seed target : NodeId} {host donor stable w : Workspace}
    {p : Position} {s t : IdSupply} (h : DistinctGraft seed host donor stable target p w s t) :
    ∃ become : Survivor host donor p ≃ {e // e ∈ w.source.macroCalls.entries},
      ∀ x, Becomes w s t target x (become x).1 := by
  choose f hf hbecomes using h.exists_entry
  have hbijective : Function.Bijective
      (fun x => (⟨f x, hf x⟩ : {e // e ∈ w.source.macroCalls.entries})) := by
    constructor
    · intro x y hxy
      obtain ⟨n, hn, hx⟩ := hbecomes x
      obtain ⟨n', hn', hy⟩ := hbecomes y
      have hentry : f x = f y := congrArg Subtype.val hxy
      have hid : n.id = n'.id := by
        rw [hx, hy] at hentry
        exact congrArg Prod.fst hentry
      exact Survivor.eq_of_position (h.distinct.position_eq hn hn' (h.isSet_at hn) hid)
    · rintro ⟨e, he⟩
      obtain ⟨x, n, hn, hx⟩ := h.exists_survivor he
      obtain ⟨n', hn', hx'⟩ := hbecomes x
      obtain rfl : n = n' := Option.some.inj (hn.symm.trans hn')
      exact ⟨x, Subtype.ext (hx'.trans hx.symm)⟩
  exact ⟨Equiv.ofBijective _ hbijective, hbecomes⟩

/-- No macro call is lost, invented or confused by a graft. The macro calls of the result correspond
one to one to the survivors; each is keyed by the id of its node and is derived from the shadow of
the survivor by an exchange of ids. This exchange does not confuse ids: what named neither a node
that outlives the graft nor the target names no node afterwards. -/
theorem macroCalls_correspond {budget : Nat} {host donor w : Workspace} {target : NodeId}
    (hhost : host.root.DistinctIds) (hdonor : donor.root.DistinctIds)
    (h : replaceBy budget host donor target = .ok w)
    (hgraft : host.root.find? target ≠ some donor.root) :
    ∃ p, host.root.firstAt? target = some p ∧
      ∃ (carry : Origin → NodeId → NodeId)
        (become : Survivor host donor p ≃ {e // e ∈ w.source.macroCalls.entries}),
        (∀ x, ∃ n, w.root.at? x.position = some n ∧ (become x).1 = (n.id, MacroCalls.derive
          (some (carry .host target)) w.root n (x.entry.2.mapIds (carry x.origin)))) ∧
        ∀ o : Origin, ∀ e ∈ (o.workspace host donor).source.macroCalls.entries,
          ∀ y ∈ e.2.preorder, (o = .host → y.id ≠ target) →
          (∀ r q m, o.Moves p r q → (o.workspace host donor).root.at? r = some m → m.id ≠ y.id) →
          ∀ n ∈ w.root.preorder, n.id ≠ carry o y.id := by
  obtain ⟨seed, stable, p, s, t, hgraft⟩ := (adopted_or_distinctGraft hhost hdonor h).resolve_left
    (fun hadopted => hgraft hadopted.found)
  obtain ⟨become, hbecomes⟩ := hgraft.exists_equiv
  refine ⟨p, hgraft.grafted.found, Origin.carry s t, become, hbecomes, ?_⟩
  intro o e he y hy hne hnone n hn hid
  obtain ⟨q, hq⟩ := mem_preorder_iff.1 hn
  have hle := (toNat_le_maxId_of_entry he).2 y.id (id_mem_slots hy)
  obtain ⟨r, m, hmoves, hm, hmid⟩ := hgraft.exists_moves_of_carry hq hle hne hid.symm
  exact hnone r q m hmoves hm hmid

/-- Host and donor share all of their ids, with an entry at the target, one without a node and one
without a key. -/
theorem macroCalls_correspond_overlapping :
    let host : Workspace :=
      ⟨⟨⟨1⟩, .call ⟨none, "f", [⟨⟨2⟩, .ident ⟨"x"⟩⟩, ⟨⟨3⟩, .ident ⟨"y"⟩⟩]⟩⟩,
        { SourceInfo.empty with macroCalls := .ofList [(⟨2⟩, ⟨⟨5⟩, .list ⟨[⟨⟨2⟩, .notSet⟩], .empty⟩⟩),
          (⟨3⟩, ⟨⟨2⟩, .notSet⟩), (⟨9⟩, ⟨⟨1⟩, .notSet⟩)] }⟩
    let donor : Workspace :=
      ⟨⟨⟨2⟩, .call ⟨none, "g", [⟨⟨3⟩, .ident ⟨"z"⟩⟩]⟩⟩,
        { SourceInfo.empty with macroCalls := .ofList [(⟨2⟩, ⟨⟨3⟩, .notSet⟩), (⟨3⟩, ⟨⟨7⟩, .notSet⟩),
          (.unset, ⟨⟨2⟩, .notSet⟩)] }⟩
    host.root.DistinctIds ∧ donor.root.DistinctIds ∧ host.root.find? ⟨3⟩ ≠ some donor.root ∧
      ∃ w, replaceBy 9 host donor ⟨3⟩ = .ok w ∧ w.source.macroCalls.entries.length = 3 ∧
        Nonempty (Survivor host donor [1] ≃ {e // e ∈ w.source.macroCalls.entries}) := by
  intro host donor
  have hhost : host.root.DistinctIds := by decide
  have hdonor : donor.root.DistinctIds := by decide
  have hgraft : host.root.find? ⟨3⟩ ≠ some donor.root := by decide
  have hlength : (replaceBy 9 host donor ⟨3⟩).toOption.map
      (fun w => w.source.macroCalls.entries.length) = some 3 := by decide +kernel
  cases hreplace : replaceBy 9 host donor ⟨3⟩ with
  | error err =>
    rw [hreplace] at hlength
    cases hlength
  | ok w =>
    rw [hreplace] at hlength
    obtain ⟨p, hp, -, become, -⟩ := macroCalls_correspond hhost hdonor hreplace hgraft
    have hfirst : host.root.firstAt? ⟨3⟩ = some [1] := by decide
    rw [hfirst, Option.some.injEq] at hp
    subst hp
    exact ⟨hhost, hdonor, hgraft, w, rfl, Option.some.inj hlength, ⟨become⟩⟩

end CelEdit.Workspace
