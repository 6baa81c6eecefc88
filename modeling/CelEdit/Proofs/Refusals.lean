import CelEdit.Proofs.FreshIds

/-!
# Refused replacements

When a replacement by an expression fails. The walk over the host pays for every node outside the
target, once for the target and for every node of the expression; each shadow that is kept has the
budget to itself. A shadow is kept when its key names a node outside the target. So the budget that a
replacement needs can be read off the host and the expression, and as long as there are ids left
nothing else can go wrong.
-/

namespace CelEdit

namespace MacroCalls

open Runs

variable {replaced : Option NodeId} {root : Expr} {b : Nat} {t t' : IdMap Expr} {s s' u : IdSupply}
  {seed : NodeId}

/-- The budget that an entry needs is that of its shadow, if its key names a node. -/
lemma rederiveEntry_budget {entry : NodeId × Expr} (hs : s.Sound seed)
    (hroot : ∀ n ∈ root.preorder, n.id.isSet ∧ n.id.toNat ≤ s.maxId.toNat)
    (h : Ends (rederiveEntry replaced root.nodesById IdSupply.exchange b t entry) s t' s')
    (hu : s'.Extends u) :
    ((root.nodesById.get? (u.exchangeOf entry.1)).isSome → entry.2.nodeCount ≤ b) ∧
      ∀ b', ((root.nodesById.get? (u.exchangeOf entry.1)).isSome → entry.2.nodeCount ≤ b') →
        Ends (rederiveEntry replaced root.nodesById IdSupply.exchange b' t entry) s t' s' := by
  obtain ⟨key, s₁, hkey, hcases⟩ := ends_rederiveEntry.1 h
  rcases hcases with ⟨hnode, rfl, rfl⟩ | ⟨expanded, shadow, hnode, hshadow, rfl⟩
  · rw [nodesById_exchangeOf hs hroot hkey hu, hnode]
    exact ⟨fun h => (nomatch h), fun b' _ =>
      ends_rederiveEntry.2 ⟨key, s', hkey, .inl ⟨hnode, rfl, rfl⟩⟩⟩
  · obtain ⟨hshape, hcount, hthread⟩ := Expr.ends_renumber_run'.1 hshadow
    have hsound := IdSupply.exchange_sound hkey hs
    have hextends := ((IdSupply.thread_onSet (K := fun _ => True) hthread).1.sound_extends hsound).2
    rw [nodesById_exchangeOf hs hroot hkey (hextends.trans hu), hnode]
    refine ⟨fun _ => hcount, fun b' hcount' => ends_rederiveEntry.2 ⟨key, s₁, hkey, .inr ?_⟩⟩
    exact ⟨expanded, shadow, hnode,
      Expr.ends_renumber_run'.2 ⟨hshape, hcount' rfl, hthread⟩, rfl⟩

lemma foldlM_rederiveEntry_budget {es : List (NodeId × Expr)} (hs : s.Sound seed)
    (hroot : ∀ n ∈ root.preorder, n.id.isSet ∧ n.id.toNat ≤ s.maxId.toNat)
    (h : Ends (es.foldlM (rederiveEntry replaced root.nodesById IdSupply.exchange b) t) s t' s')
    (hu : s'.Extends u) :
    (∀ e ∈ es, (root.nodesById.get? (u.exchangeOf e.1)).isSome → e.2.nodeCount ≤ b) ∧
      ∀ b', (∀ e ∈ es, (root.nodesById.get? (u.exchangeOf e.1)).isSome → e.2.nodeCount ≤ b') →
        Ends (es.foldlM (rederiveEntry replaced root.nodesById IdSupply.exchange b') t) s t' s' := by
  induction es generalizing t s with
  | nil => exact ⟨fun _ he => (nomatch he), fun _ _ => h⟩
  | cons entry es ih =>
    obtain ⟨t₁, s₁, hentry, hrest⟩ := (ends_foldlM_cons ..).1 h
    have hrun := (rederiveEntry_exchange (K := fun _ => True) hs hroot hentry).1
    obtain ⟨hsound, hextends⟩ := hrun.sound_extends hs
    have hroot₁ : ∀ n ∈ root.preorder, n.id.isSet ∧ n.id.toNat ≤ s₁.maxId.toNat :=
      fun n hn => ⟨(hroot n hn).1, Nat.le_trans (hroot n hn).2 hextends.max_le⟩
    have hextends' :=
      ((foldlM_rederiveEntry (K := fun _ => True) hsound hroot₁ hrest).1.sound_extends hsound).2
    have hhead := rederiveEntry_budget hs hroot hentry (hextends'.trans hu)
    obtain ⟨hcounts, hagain⟩ := ih hsound hroot₁ hrest
    refine ⟨List.forall_mem_cons.2 ⟨hhead.1, hcounts⟩, fun b' hb' => ?_⟩
    rw [List.forall_mem_cons] at hb'
    exact (ends_foldlM_cons ..).2 ⟨t₁, s₁, hhead.2 b' hb'.1, hagain b' hb'.2⟩

/-- Macro calls are derived again with every budget that is enough for each shadow that is kept, and
with no other one. -/
theorem rederive_budget {calls : IdMap Expr} (hs : s.Sound seed)
    (hroot : ∀ n ∈ root.preorder, n.id.isSet ∧ n.id.toNat ≤ s.maxId.toNat)
    (h : Ends (rederive calls replaced root IdSupply.exchange b) s t s') :
    (∀ e ∈ calls.entries, (root.nodesById.get? (s'.exchangeOf e.1)).isSome →
        e.2.nodeCount ≤ b) ∧
      ∀ b', (∀ e ∈ calls.entries, (root.nodesById.get? (s'.exchangeOf e.1)).isSome →
          e.2.nodeCount ≤ b') →
        Ends (rederive calls replaced root IdSupply.exchange b') s t s' :=
  foldlM_rederiveEntry_budget hs hroot h (IdSupply.Extends.refl s')

end MacroCalls

namespace Workspace

open Runs NodeId CelEdit.Expr

variable {target seed : NodeId} {host stable w : Workspace} {e x : Expr} {p : Position}
  {s t : IdSupply} {b : Nat}

/-! ### Shadows that are kept -/

/-- Nodes outside a subtree stand at positions that do not begin with its own. -/
lemma not_mem_preorder_iff {root n : Expr} {q : Position} (hdistinct : root.DistinctIds)
    (hset : n.id.isSet) (hx : root.at? p = some x) (hn : root.at? q = some n) :
    n ∉ x.preorder ↔ ¬ p <+: q := by
  rw [not_iff_not]
  constructor
  · intro hmem
    obtain ⟨r, hr⟩ := mem_preorder_iff.1 hmem
    have hn' : root.at? (p ++ r) = some n := by rw [at?_append, hx, Option.bind_some, hr]
    exact ⟨r, hdistinct.position_eq hn' hn hset rfl⟩
  · rintro ⟨r, rfl⟩
    rw [at?_append, hx, Option.bind_some] at hn
    exact mem_preorder_iff.2 ⟨r, hn⟩

/-- An old key still names a node exactly when it names one outside the subtree that was replaced. -/
lemma Grafted.key_survives_iff (h : Grafted seed host stable target p w t)
    (hset : ∀ i ∈ host.root.slots, i.isSet) (hdistinct : host.root.DistinctIds)
    (hapart : ∀ i ∈ stable.root.slots, host.maxId.toNat < i.toNat) (hx : host.root.at? p = some x)
    {key : NodeId} (hkey : key.toNat ≤ host.maxId.toNat) (hne : key ≠ target) :
    (w.root.nodesById.get? (t.exchangeOf key)).isSome ↔
      ∃ n ∈ host.root.preorder, n ∉ x.preorder ∧ n.id = key := by
  have hK : ∀ i ∈ (setAt stable.root p host.root).slots, i.isSet → i ≠ target :=
    fun i hi => h.ne_target hdistinct hapart hi
  constructor
  · intro hsome
    obtain ⟨n', hn'⟩ := Option.isSome_iff_exists.1 hsome
    obtain ⟨hmem, hid⟩ := mem_of_nodesById hn'
    obtain ⟨q, hq⟩ := mem_preorder_iff.1 hmem
    obtain ⟨m, hm, rfl⟩ := exists_origin_at h.relabels h.injectiveOn hK hq hne hid.symm
    have houtside : ¬ p <+: q := by
      rintro ⟨r, rfl⟩
      rw [at?_setAt_append hx] at hm
      have hlt := hapart _ (id_mem_slots (mem_preorder_iff.2 ⟨r, hm⟩))
      omega
    have hsame := at?_setAt_of_not_prefix houtside stable.root host.root
    rw [hm, Option.map_some, eq_comm, Option.map_eq_some_iff] at hsame
    obtain ⟨n, hn, hpair⟩ := hsame
    have hnmem := mem_preorder_iff.2 ⟨q, hn⟩
    exact ⟨n, hnmem, (not_mem_preorder_iff hdistinct (hset _ (id_mem_slots hnmem)) hx hn).2 houtside,
      congrArg Prod.fst hpair⟩
  · rintro ⟨n, hn, hnot, rfl⟩
    have hnset := hset _ (id_mem_slots hn)
    obtain ⟨q, hq⟩ := mem_preorder_iff.1 hn
    have houtside := (not_mem_preorder_iff hdistinct hnset hx hq).1 hnot
    have hsame := at?_setAt_of_not_prefix houtside stable.root host.root
    rw [hq, Option.map_some, Option.map_eq_some_iff] at hsame
    obtain ⟨m, hm, hpair⟩ := hsame
    have hid : m.id = n.id := congrArg Prod.fst hpair
    obtain ⟨n', hn', -, hexchange⟩ := exists_exchanged_at h.relabels hm
    rw [← hid, hexchange (hid ▸ hnset)]
    exact Option.isSome_iff_exists.2 (exists_nodesById (mem_preorder_iff.2 ⟨q, hn'⟩))

/-! ### What a replacement needs -/

lemma find?_eq_none_iff {root : Expr} :
    root.find? target = none ↔ ∀ n ∈ root.preorder, n.id ≠ target := by
  induction root using induct with
  | node id k ih =>
    rw [find?_mk]
    by_cases hid : id = target
    · rw [if_pos hid]
      exact iff_of_false (fun h => nomatch h) fun h => h _ (self_mem_preorder _) hid
    · rw [if_neg hid, List.findSome?_eq_none_iff]
      constructor
      · intro h n hn
        rcases mem_preorder_mk.1 hn with rfl | ⟨c, hc, hn⟩
        · exact hid
        · exact (ih c hc).1 (h c hc) n hn
      · exact fun h c hc => (ih c hc).2 fun n hn => h n (mem_preorder_mk.2 (.inr ⟨c, hc, hn⟩))

lemma find?_eq_some_of_mem {root : Expr} (hdistinct : root.DistinctIds) (hx : x ∈ root.preorder)
    (hset : x.id.isSet) : root.find? x.id = some x := by
  cases hfound : root.find? x.id with
  | none => exact absurd rfl (find?_eq_none_iff.1 hfound x hx)
  | some y =>
    obtain ⟨hy, hid⟩ := mem_of_find? hfound
    rw [hdistinct.node_eq hx hy hset hid.symm]

lemma ends_relocate_ofExpr {v : Workspace} :
    Ends (relocate b (.ofExpr e)) s v t ↔
      ∃ root, Ends ((e.renumber IdSupply.exchange).run' b) s root t ∧ v = .ofExpr root := by
  have hcalls (root : Expr) (calls : IdMap Expr) (s t : IdSupply) :
      Ends (MacroCalls.rederive (ofExpr e).source.macroCalls none root IdSupply.exchange b) s calls t ↔
        calls = .empty ∧ t = s := ends_foldlM_nil ..
  simp only [relocate, ends_bind, ends_pure, hcalls]
  constructor
  · rintro ⟨root, s₁, hroot, _, _, ⟨rfl, rfl⟩, rfl, rfl⟩
    exact ⟨root, hroot, rfl⟩
  · rintro ⟨root, hroot, rfl⟩
    exact ⟨root, t, hroot, .empty, t, ⟨rfl, rfl⟩, rfl, rfl⟩

lemma length_idSlots_ofExpr (e : Expr) : (ofExpr e).idSlots.length = e.slots.length := by
  rw [idSlots, List.length_append]
  rfl

/-- The budget that is needed to put an expression into a host at a node: it pays for the nodes
outside the target, once for the target and for the expression, and for each shadow of a node outside
the target. -/
def Affords (host : Workspace) (x e : Expr) (budget : Nat) : Prop :=
  host.root.nodeCount - x.nodeCount + 1 + e.nodeCount ≤ budget ∧
    ∀ entry ∈ host.source.macroCalls.entries,
      (∃ n ∈ host.root.preorder, n ∉ x.preorder ∧ n.id = entry.1) → entry.2.nodeCount ≤ budget

section Affords

variable (hset : ∀ i ∈ host.root.slots, i.isSet) (hnodup : host.root.slots.Nodup)

include hset hnodup in
/-- The walks of a graft take what the budget affords, and every budget that affords it will do. -/
theorem transplantDonor_budget {root : Expr} (hx : x ∈ host.root.preorder)
    (hle : host.maxId.toNat ≤ seed.toNat) (hrelocated : Relocated seed (ofExpr e) (ofExpr root) s)
    (hgraft : Ends (transplantDonor b host (ofExpr root) x.id) (.ofSeed s.maxId) w t) :
    host.Affords x e b ∧ ∀ b', host.Affords x e b' →
      Ends (transplantDonor b' host (ofExpr root) x.id) (.ofSeed s.maxId) w t := by
  have hxset := hset _ (id_mem_slots hx)
  have hdistinct : host.root.DistinctIds := hnodup.filter _
  obtain ⟨p, hgrafted⟩ := hrelocated.grafted hxset (id_mem_slots hx) hle hgraft
  have hp := hgrafted.found
  obtain ⟨y, hy, hid⟩ := hgrafted.at_target
  obtain rfl : x = y := hdistinct.node_eq hx (mem_preorder_iff.2 ⟨p, hy⟩) hxset hid.symm
  have hcost : (setAt root p host.root).nodeCount + 1 =
      host.root.nodeCount - x.nodeCount + 1 + e.nodeCount := by
    have hsum := nodeCount_setAt hy root
    have hsub := nodeCount_le_of_at? hy
    rw [nodeCount_eq (show root.eraseIds = e.eraseIds from hrelocated.shape)] at hsum
    omega
  have hnew := hrelocated.root_not_mem hle
  obtain ⟨root', rest, s₁, replaced, s₂, calls, hwalk, hreplaced, hcalls, rfl⟩ :=
    ends_transplantDonor.1 hgraft
  obtain ⟨-, hshape, hpaid, hrun⟩ := (ends_transplant_found hp).1 hwalk
  change b = rest + (setAt root p host.root).nodeCount + 1 at hpaid
  obtain ⟨hexchanges, -⟩ :=
    exchanges_of_transplant hxset (fun heq => hnew (heq ▸ id_mem_slots hx)) hnew hp hwalk
  obtain ⟨hsound, hbounds⟩ := sound_bounds_of_exchange hexchanges hreplaced
  obtain ⟨hcounts, hagain⟩ := MacroCalls.rederive_budget hsound hbounds hcalls
  have hapart : ∀ i ∈ root.slots, host.maxId.toNat < i.toNat := fun i hi =>
    Nat.lt_of_le_of_lt hle (hrelocated.bounds hi).1
  have hsurvives {entry : NodeId × Expr} (hentry : entry ∈ host.source.macroCalls.entries)
      (hne : entry.1 ≠ x.id) := hgrafted.key_survives_iff hset hdistinct hapart hy
    (toNat_le_maxId_of_entry hentry).1 hne
  constructor
  · refine ⟨by omega, fun entry hentry hnode => ?_⟩
    have hne : entry.1 ≠ x.id := by
      rintro heq
      obtain ⟨n, hn, hnot, hnid⟩ := hnode
      rw [hdistinct.node_eq hx hn hxset (heq.symm.trans hnid.symm)] at hnot
      exact hnot (self_mem_preorder n)
    exact hcounts entry (List.mem_filter.2 ⟨hentry, by simpa using hne⟩)
      ((hsurvives hentry hne).2 hnode)
  · rintro b' ⟨hpay, hshadows⟩
    obtain ⟨rest', hrest'⟩ := Nat.exists_eq_add_of_le' (hcost ▸ hpay)
    refine ends_transplantDonor.2 ⟨root', rest', s₁, replaced, s₂, calls,
      (ends_transplant_found hp).2 ⟨rfl, hshape, hrest', hrun⟩, hreplaced, hagain b' ?_, rfl⟩
    intro entry hentry hsome
    obtain ⟨hentry, hne⟩ := List.mem_filter.1 hentry
    exact hshadows entry hentry ((hsurvives hentry (by simpa using hne)).1 hsome)

include hset hnodup in
/-- With enough ids, an expression is put in exactly when the budget affords it. -/
theorem exists_replace_iff
    (hroom : max host.maxId.toNat e.maxId.toNat + host.idSlots.length + 2 * e.slots.length <
      UInt64.size) (hx : x ∈ host.root.preorder) (hne : x ≠ e) :
    (∃ w, replace b host e x.id = .ok w) ↔ host.Affords x e b := by
  have hxset := hset _ (id_mem_slots hx)
  have hfound := find?_eq_some_of_mem (hnodup.filter _) hx hxset
  have hseed := le_largest host.maxId [(ofExpr e).maxId]
  constructor
  · rintro ⟨w, hw⟩
    rw [replace, replaceBy_of_ne hxset hfound hne, except_bind_eq_ok] at hw
    obtain ⟨⟨stable, s⟩, hrelocate, hgraft⟩ := hw
    obtain ⟨t, hgraft⟩ := (run'_eq_ok ..).1 hgraft
    obtain ⟨root, -, rfl⟩ := ends_relocate_ofExpr.1 hrelocate
    exact (transplantDonor_budget hset hnodup hx hseed.1 (relocated_of_relocate hrelocate) hgraft).1
  · intro hafford
    have hfirst := at?_firstAt? x.id host.root
    rw [hfound, Option.bind_eq_some_iff] at hfirst
    obtain ⟨p, hp, -⟩ := hfirst
    have hroom' : (largest host.maxId [(ofExpr e).maxId]).toNat + host.idSlots.length +
        2 * (ofExpr e).idSlots.length < UInt64.size := by
      rw [toNat_largest, length_idSlots_ofExpr]
      exact hroom
    obtain ⟨b₀, stable, s, w, t, hrelocate, hgraft, -⟩ := exists_transplant hxset hp hseed.1 hroom'
    obtain ⟨root, hrun, rfl⟩ := ends_relocate_ofExpr.1 hrelocate
    have hgraft' := (transplantDonor_budget hset hnodup hx hseed.1 (relocated_of_relocate hrelocate)
      hgraft).2 b hafford
    obtain ⟨hshape, -, hthread⟩ := ends_renumber_run'.1 hrun
    have hpay : e.nodeCount ≤ b := Nat.le_trans (Nat.le_add_left ..) hafford.1
    have hrelocate' : Ends (relocate b (ofExpr e)) _ (ofExpr root) s :=
      ends_relocate_ofExpr.2 ⟨root, ends_renumber_run'.2 ⟨hshape, hpay, hthread⟩, rfl⟩
    exact ⟨w, replaceBy_of_transplant hxset hfound hne hrelocate' hgraft'⟩

end Affords

/-- A target that is found is replaced, or else the budget is exhausted. -/
lemma replaceBy_exhausted_iff {donor : Workspace} {existing : Expr} (hset : target.isSet)
    (hfound : host.root.find? target = some existing)
    (hroom : max host.maxId.toNat donor.maxId.toNat + host.idSlots.length +
      2 * donor.idSlots.length < UInt64.size) (budget : Nat) :
    replaceBy budget host donor target = .error .budgetExhausted ↔
      ¬ ∃ w, replaceBy budget host donor target = .ok w := by
  obtain ⟨b, w, hw, -⟩ := exists_replaceBy hset hfound hroom
  rcases (hasPrice_replaceBy host donor target).ok_or_exhausted hw budget with h | h
  · rw [h]
    exact iff_of_false (fun h => nomatch h) fun hnone => hnone ⟨w, rfl⟩
  · rw [h]
    exact iff_of_true rfl fun ⟨_, hok⟩ => nomatch hok

lemma replaceBy_notFound_iff {donor : Workspace}
    (hroom : max host.maxId.toNat donor.maxId.toNat + host.idSlots.length +
      2 * donor.idSlots.length < UInt64.size) (budget : Nat) :
    replaceBy budget host donor target = .error (.notFound target) ↔
      target = .unset ∨ ∀ n ∈ host.root.preorder, n.id ≠ target := by
  rw [← find?_eq_none_iff]
  constructor
  · intro h
    by_cases htarget : target.isSet
    · right
      cases hfound : host.root.find? target with
      | none => rfl
      | some existing =>
        obtain ⟨b, w, hw, -⟩ := exists_replaceBy htarget hfound hroom
        rcases (hasPrice_replaceBy host donor target).ok_or_exhausted hw budget with h' | h'
        · cases h.symm.trans h'
        · cases h.symm.trans h'
    · rw [NodeId.isSet_iff, not_not] at htarget
      exact .inl htarget
  · intro h
    apply replaceBy_eq_notFound
    intro htarget
    exact h.resolve_left (NodeId.isSet_iff.1 htarget)

lemma nodesById_isSome_iff {root : Expr} {i : NodeId} :
    (root.nodesById.get? i).isSome ↔ ∃ n ∈ root.preorder, n.id = i := by
  rw [← not_iff_not, Bool.not_eq_true, Option.isSome_eq_false_iff, Option.isNone_iff_eq_none,
    nodesById_eq_none_iff]
  simp

/-- Without ids running out, a replacement by an expression is refused for a target that is unset or
not there, and for a budget that is too small. If the expression is there already the budget is for
the shadows of nodes. Otherwise it is for the nodes outside the target with the target and the
expression, and for the shadows of nodes outside the target. The walk always meets a target that was
found. -/
theorem replace_refused_iff (hset : ∀ i ∈ host.root.slots, i.isSet)
    (hnodup : host.root.slots.Nodup)
    (hroom : max host.maxId.toNat e.maxId.toNat + host.idSlots.length + 2 * e.slots.length <
      UInt64.size) (budget : Nat) (target : NodeId) :
    (replace budget host e target = .error (.notFound target) ↔
      target = .unset ∨ ∀ n ∈ host.root.preorder, n.id ≠ target) ∧
    (∀ x ∈ host.root.preorder, x.id = target →
      (x = e → (replace budget host e target = .error .budgetExhausted ↔
        ∃ entry ∈ host.source.macroCalls.entries,
          (∃ n ∈ host.root.preorder, n.id = entry.1) ∧ budget < entry.2.nodeCount)) ∧
      (x ≠ e → (replace budget host e target = .error .budgetExhausted ↔
        budget < host.root.nodeCount - x.nodeCount + 1 + e.nodeCount ∨
          ∃ entry ∈ host.source.macroCalls.entries,
            (∃ n ∈ host.root.preorder, n ∉ x.preorder ∧ n.id = entry.1) ∧
              budget < entry.2.nodeCount))) ∧
    (∀ refusal, replace budget host e target = .error refusal →
      refusal = .notFound target ∨ refusal = .budgetExhausted) ∧
    (∀ donor s root pending s', (∃ n ∈ host.root.preorder, n.id = target) →
      ((transplant target host.root).run (some donor)).run' budget s = .ok ((root, pending), s') →
        pending = none) := by
  have hroom' : max host.maxId.toNat (ofExpr e).maxId.toNat + host.idSlots.length +
      2 * (ofExpr e).idSlots.length < UInt64.size := by
    rw [length_idSlots_ofExpr]
    exact hroom
  have hdistinct : host.root.DistinctIds := hnodup.filter _
  have hexhausted {x : Expr} (hx : x ∈ host.root.preorder) :
      replace budget host e x.id = .error .budgetExhausted ↔
        ¬ ∃ w, replace budget host e x.id = .ok w :=
    replaceBy_exhausted_iff (hset _ (id_mem_slots hx))
      (find?_eq_some_of_mem hdistinct hx (hset _ (id_mem_slots hx))) hroom' budget
  refine ⟨?_, ?_, ?_, ?_⟩
  · exact replaceBy_notFound_iff hroom' budget
  · rintro x hx rfl
    rw [hexhausted hx]
    constructor
    · rintro rfl
      have hxset := hset _ (id_mem_slots hx)
      rw [replace, replaceBy_of_eq hxset (find?_eq_some_of_mem hdistinct hx hxset),
        exists_adoptExtensions_iff]
      simp [nodesById_isSome_iff]
    · intro hne
      rw [exists_replace_iff hset hnodup hroom hx hne, Affords, Classical.not_and_iff_not_or_not]
      simp [and_assoc]
  · intro refusal h
    rcases replaceBy_outcomes hroom' target budget with h' | h' | ⟨w, h'⟩
    · exact .inl (Except.error.inj (h.symm.trans h'))
    · exact .inr (Except.error.inj (h.symm.trans h'))
    · cases h.symm.trans h'
  · rintro donor s root pending s' ⟨n, hn, rfl⟩ hwalk
    obtain ⟨rest, hwalk⟩ := ends_run'.1 hwalk
    have hfirst := at?_firstAt? n.id host.root
    rw [find?_eq_some_of_mem hdistinct hn (hset _ (id_mem_slots hn)), Option.bind_eq_some_iff] at hfirst
    obtain ⟨p, hp, -⟩ := hfirst
    exact ((ends_transplant_found hp).1 hwalk).1

/-- Six nodes are paid for here, and a shadow of seven nodes is kept. The larger shadow inside the
target is dropped without a look at its size. -/
theorem replace_refused_iff_lt_seven :
    let leaf : Expr := ⟨.unset, .ident ⟨"v"⟩⟩
    let x : Expr := ⟨⟨3⟩, .call ⟨none, "g", [⟨⟨4⟩, .ident ⟨"y"⟩⟩]⟩⟩
    let kept : Expr := ⟨⟨5⟩, .list ⟨List.replicate 6 leaf, .empty⟩⟩
    let dropped : Expr := ⟨⟨6⟩, .list ⟨List.replicate 8 leaf, .empty⟩⟩
    let host : Workspace :=
      ⟨⟨⟨1⟩, .call ⟨none, "f", [⟨⟨2⟩, .ident ⟨"x"⟩⟩, x]⟩⟩,
        { SourceInfo.empty with macroCalls := .ofList [(⟨2⟩, kept), (⟨4⟩, dropped)] }⟩
    let e : Expr := ⟨⟨3⟩, .list ⟨[⟨⟨3⟩, .ident ⟨"z"⟩⟩, ⟨.unset, .ident ⟨"z"⟩⟩], .empty⟩⟩
    ∀ budget, replace budget host e ⟨3⟩ = .error .budgetExhausted ↔ budget < 7 := by
  intro leaf x kept dropped host e budget
  have hset : ∀ i ∈ host.root.slots, i.isSet := by decide +kernel
  have hnodup : host.root.slots.Nodup := by decide +kernel
  have hroom : max host.maxId.toNat e.maxId.toNat + host.idSlots.length + 2 * e.slots.length <
      UInt64.size := by decide +kernel
  have hx : x ∈ host.root.preorder := by decide +kernel
  have hne : x ≠ e := by decide +kernel
  have hcost : host.root.nodeCount - x.nodeCount + 1 + e.nodeCount = 6 := by decide +kernel
  have hentries : host.source.macroCalls.entries = [(⟨2⟩, kept), (⟨4⟩, dropped)] := by
    decide +kernel
  have houtside : ∃ n ∈ host.root.preorder, n ∉ x.preorder ∧ n.id = ⟨2⟩ := by decide +kernel
  have hinside : ¬ ∃ n ∈ host.root.preorder, n ∉ x.preorder ∧ n.id = ⟨4⟩ := by decide +kernel
  have hkept : kept.nodeCount = 7 := by decide +kernel
  rw [((replace_refused_iff hset hnodup hroom budget ⟨3⟩).2.1 x hx rfl).2 hne, hcost, hentries]
  simp only [List.exists_mem_cons_iff, List.not_mem_nil, false_and, exists_false, or_false, hkept,
    houtside, hinside, true_and]
  omega

end Workspace

end CelEdit
