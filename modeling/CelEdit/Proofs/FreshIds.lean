import CelEdit.Proofs.Budgets
import CelEdit.Proofs.Reserves

/-!
# Fresh ids

A replacement gives every id anew. Relocating the donor takes at most one id for each of its own, and
putting it in takes at most one for each id of the host and of the relocated donor. The shadows of
the relocated donor can have more ids than those of the donor, but each of them stands in the tree of
the donor or was exchanged for one of its shadows. So the ids of the result lie above those of both
workspaces, and within the number of ids of the host and twice that of the donor.
-/

namespace CelEdit.Workspace

open Runs NodeId CelEdit.Expr

variable {target seed : NodeId} {budget : Nat} {w v host donor stable : Workspace} {existing : Expr}
  {p : Position} {s t : IdSupply}

/-- All ids of the tree, all keys and all set ids of shadows lie above `low` and not above `high`. -/
def IdsBetween (low high : Nat) (w : Workspace) : Prop :=
  (∀ i ∈ w.root.slots, low < i.toNat ∧ i.toNat ≤ high) ∧
    ∀ entry ∈ w.source.macroCalls.entries, (low < entry.1.toNat ∧ entry.1.toNat ≤ high) ∧
      ∀ i ∈ entry.2.slots, i.isSet → low < i.toNat ∧ i.toNat ≤ high

lemma IdsBetween.mono {low low' high high' : Nat} (h : w.IdsBetween low high) (hlow : low' ≤ low)
    (hhigh : high ≤ high') : w.IdsBetween low' high' := by
  have hwiden {i : NodeId} (hi : low < i.toNat ∧ i.toNat ≤ high) :
      low' < i.toNat ∧ i.toNat ≤ high' := by omega
  exact ⟨fun i hi => hwiden (h.1 i hi), fun entry he =>
    ⟨hwiden (h.2 entry he).1, fun i hi hset => hwiden ((h.2 entry he).2 i hi hset)⟩⟩

/-- Derived with what a supply remembers, a table has no other ids than the supply has minted. -/
lemma idsBetween_of_derived {replaced : Option NodeId} {calls : IdMap Expr} (hs : t.Sound seed)
    (hroot : ∀ i ∈ w.root.slots, seed.toNat < i.toNat ∧ i.toNat ≤ t.maxId.toNat)
    (hcalls : w.source.macroCalls = MacroCalls.derived replaced w.root t.exchangeOf calls) :
    w.IdsBetween seed.toNat t.maxId.toNat := by
  refine ⟨hroot, ?_⟩
  rintro ⟨key, shadow⟩ he
  rw [hcalls] at he
  constructor
  · obtain ⟨n, hn, rfl⟩ := MacroCalls.exists_node_of_mem_keys (List.mem_map_of_mem he)
    exact hroot _ (id_mem_slots hn)
  · intro i hi hset
    rcases MacroCalls.mem_slots_of_mem_derived he hi with hi | ⟨-, -, j, -, rfl⟩
    · exact hroot i hi
    · rcases hs.exchangeOf j with hunset | hbounds
      · rw [hunset] at hset
        cases hset
      · exact hbounds

lemma Relocated.idsBetween (h : Relocated seed w v t) : v.IdsBetween seed.toNat t.maxId.toNat :=
  idsBetween_of_derived h.sound (fun _ => h.bounds) h.calls

lemma Grafted.idsBetween (h : Grafted seed host donor target p w t) :
    w.IdsBetween seed.toNat t.maxId.toNat := by
  have hseed := IdSupply.sound_ofSeed seed
  have hcalls := congrArg SourceInfo.macroCalls h.source
  exact idsBetween_of_derived (h.run.sound_extends hseed).1 (fun _ => h.run.bounds hseed) hcalls

/-! ### Counting -/

/-- The set ids that are exchanged when a relocated donor is put into a host. -/
def graftIds (host donor stable : Workspace) (s : IdSupply) : List NodeId :=
  (host.idSlots ++ stable.root.slots ++
    (MacroCalls.idSlots donor.source.macroCalls).map s.exchangeOf).filter isSet

section Counting

variable (hrelocated : Relocated seed donor stable s)

lemma mem_graftIds_of_host {i : NodeId} (hi : i ∈ host.idSlots) (hset : i.isSet) :
    i ∈ graftIds host donor stable s :=
  List.mem_filter.2 ⟨List.mem_append_left _ (List.mem_append_left _ hi), hset⟩

lemma mem_graftIds_of_stable {i : NodeId} (hi : i ∈ stable.root.slots) (hset : i.isSet) :
    i ∈ graftIds host donor stable s :=
  List.mem_filter.2 ⟨List.mem_append_left _ (List.mem_append_right _ hi), hset⟩

lemma mem_graftIds_of_setAt {x : Expr} (hx : host.root.at? p = some x) {i : NodeId}
    (hi : i ∈ (setAt stable.root p host.root).slots) (hset : i.isSet) :
    i ∈ graftIds host donor stable s := by
  have hhost {j : NodeId} (hj : j ∈ host.root.slots) (hset : j.isSet) :
      j ∈ graftIds host donor stable s := mem_graftIds_of_host (List.mem_append_left _ hj) hset
  have haround := slots_eq_around hx
  rw [slots_setAt hx, List.mem_append, List.mem_append] at hi
  rcases hi with (hi | hi) | hi
  · exact hhost (by simp [haround, hi]) hset
  · exact mem_graftIds_of_stable hi hset
  · exact hhost (by simp [haround, hi]) hset

include hrelocated in
lemma mem_graftIds_of_calls {i : NodeId}
    (hi : i ∈ MacroCalls.idSlots
      ((host.source.macroCalls.erase target).union stable.source.macroCalls)) (hset : i.isSet) :
    i ∈ graftIds host donor stable s := by
  obtain ⟨⟨key, shadow⟩, he, hi⟩ := List.mem_flatMap.1 hi
  rcases IdMap.mem_of_mem_union he with he | he
  · rw [hrelocated.calls] at he
    rcases List.mem_cons.1 hi with rfl | hi
    · obtain ⟨n, hn, rfl⟩ := MacroCalls.exists_node_of_mem_keys (List.mem_map_of_mem he)
      exact mem_graftIds_of_stable (id_mem_slots hn) hset
    · rcases MacroCalls.mem_slots_of_mem_derived he hi with hi | ⟨entry, hentry, j, hj, rfl⟩
      · exact mem_graftIds_of_stable hi hset
      · refine List.mem_filter.2 ⟨List.mem_append_right _ (List.mem_map_of_mem ?_), hset⟩
        exact List.mem_flatMap.2 ⟨entry, hentry, List.mem_cons_of_mem _ hj⟩
  · have hentry : (key, shadow) ∈ host.source.macroCalls.entries := (List.mem_filter.1 he).1
    exact mem_graftIds_of_host
      (List.mem_append_right _ (List.mem_flatMap.2 ⟨_, hentry, hi⟩)) hset

include hrelocated in
/-- Together with the unset ids of the host these are no more than the ids of both workspaces. -/
lemma length_graftIds :
    (graftIds host donor stable s).length + unsetCount host.idSlots ≤
      host.idSlots.length + donor.idSlots.length := by
  have hstable := length_slots_eq hrelocated.shape
  have hhost := length_filter_isSet host.idSlots
  have hroot := List.length_filter_le isSet stable.root.slots
  have hcalls := List.length_filter_le isSet
    ((MacroCalls.idSlots donor.source.macroCalls).map s.exchangeOf)
  rw [List.length_map] at hcalls
  have hdonor : donor.idSlots.length =
      donor.root.slots.length + (MacroCalls.idSlots donor.source.macroCalls).length :=
    List.length_append
  rw [graftIds, List.filter_append, List.filter_append, List.length_append, List.length_append]
  omega

include hrelocated in
/-- The relocated donor has no unset ids in its tree. -/
lemma unsetCount_setAt {x : Expr} (hx : host.root.at? p = some x) :
    unsetCount (setAt stable.root p host.root).slots ≤ unsetCount host.root.slots := by
  have hstable : unsetCount stable.root.slots = 0 :=
    unsetCount_eq_zero fun i hi => isSet_of_lt (hrelocated.bounds hi).1
  rw [slots_setAt hx, slots_eq_around hx]
  simp only [unsetCount_append, hstable]
  omega

include hrelocated in
/-- The keys of the relocated donor come after those of the host, and none of them is unset. -/
lemma unsetCount_keys (hle : host.maxId.toNat ≤ seed.toNat) (target : NodeId) :
    unsetCount ((host.source.macroCalls.erase target).union stable.source.macroCalls).keys ≤
      unsetCount host.source.macroCalls.keys := by
  have hstable {e : NodeId × Expr} (he : e ∈ stable.source.macroCalls.entries) :
      seed.toNat < e.1.toNat := (hrelocated.idsBetween.2 e he).1.1
  have hsorted : ((host.source.macroCalls.erase target).entries ++
      stable.source.macroCalls.entries).Pairwise (fun a b => a.1 < b.1) := by
    refine List.pairwise_append.2 ⟨IdMap.sorted _, IdMap.sorted _, fun a ha b hb => ?_⟩
    have hhost := (toNat_le_maxId_of_entry (List.mem_filter.1 ha).1).1
    have hb := hstable hb
    rw [lt_def]
    omega
  have hnone : unsetCount (stable.source.macroCalls.entries.map Prod.fst) = 0 := by
    apply unsetCount_eq_zero
    intro i hi
    obtain ⟨e, he, rfl⟩ := List.mem_map.1 hi
    exact isSet_of_lt (hstable he)
  have hkept : ((host.source.macroCalls.erase target).entries.map Prod.fst).Sublist
      host.source.macroCalls.keys := List.filter_sublist.map _
  rw [IdMap.keys, IdMap.union, IdMap.entries_insertAll hsorted, List.map_append, unsetCount_append,
    hnone]
  exact hkept.countP_le

end Counting

/-! ### Room -/

lemma toNat_largest (i j : NodeId) : (largest i [j]).toNat = max i.toNat j.toNat := by
  change (if i.value < j.value then j else i).toNat = _
  by_cases hlt : i.value < j.value
  · rw [if_pos hlt]
    rw [UInt64.lt_iff_toNat_lt] at hlt
    exact (Nat.max_eq_right (Nat.le_of_lt hlt)).symm
  · rw [if_neg hlt]
    rw [UInt64.lt_iff_toNat_lt, Nat.not_lt] at hlt
    exact (Nat.max_eq_left hlt).symm

/-- A donor that is not there yet is relocated above both workspaces and put in. -/
lemma replaceBy_of_ne (hset : target.isSet) (hfound : host.root.find? target = some existing)
    (hne : existing ≠ donor.root) (budget : Nat) :
    replaceBy budget host donor target =
      relocate budget donor (.ofSeed (largest host.maxId [donor.maxId])) >>= fun r =>
        (transplantDonor budget host r.1 target).run' (.ofSeed r.2.maxId) := by
  unfold replaceBy
  rw [if_pos hset, hfound]
  dsimp only
  rw [if_neg (fun h => hne h.2)]
  rfl

/-- With room for the ids of the host and twice those of the donor, a large budget is enough. -/
theorem exists_transplant (hset : target.isSet) (hfound : host.root.firstAt? target = some p)
    (hhost : host.maxId.toNat ≤ seed.toNat)
    (hroom : seed.toNat + host.idSlots.length + 2 * donor.idSlots.length < UInt64.size) :
    ∃ budget stable s w t, Ends (relocate budget donor) (.ofSeed seed) stable s ∧
      Ends (transplantDonor budget host stable target) (.ofSeed s.maxId) w t ∧
      t.maxId.toNat ≤ seed.toNat + host.idSlots.length + 2 * donor.idSlots.length := by
  obtain ⟨x, hx, hid⟩ := exists_of_firstAt? hfound
  obtain ⟨b₁, hshadows₁⟩ := exists_shadow_budget donor.source.macroCalls.entries
  have hwithin : donor.Within (max donor.root.nodeCount b₁) :=
    ⟨Nat.le_max_left .., fun e he => Nat.le_trans (hshadows₁ e he) (Nat.le_max_right ..)⟩
  have hroom₁ : seed.toNat + donor.idSlots.length < UInt64.size := by omega
  obtain ⟨stable, s, hrelocate, hmax⟩ := exists_relocate hwithin hroom₁
  have hrelocated := relocated_of_relocate hrelocate
  -- the budget is chosen once the shadows of the relocated donor are known
  obtain ⟨b₂, hshadows₂⟩ := exists_shadow_budget
    ((host.source.macroCalls.erase target).union stable.source.macroCalls).entries
  obtain ⟨b, hb₁, hb₂, hb₃⟩ : ∃ b, max donor.root.nodeCount b₁ ≤ b ∧ b₂ ≤ b ∧
      (setAt stable.root p host.root).nodeCount + 1 ≤ b :=
    ⟨max donor.root.nodeCount b₁ + b₂ + ((setAt stable.root p host.root).nodeCount + 1),
      by omega, by omega, by omega⟩
  have hmem : target ∈ host.root.slots := hid ▸ id_mem_slots (mem_preorder_iff.2 ⟨p, hx⟩)
  have hreach := IdSupply.reach_ofSeed (graftIds host donor stable s) s.maxId
  have hcount : unsetCount (setAt stable.root p host.root).slots +
      unsetCount ((host.source.macroCalls.erase target).union stable.source.macroCalls).keys ≤
      unsetCount host.idSlots := by
    rw [idSlots, unsetCount_append]
    exact Nat.add_le_add (unsetCount_setAt hrelocated hx)
      (Nat.le_trans (unsetCount_keys hrelocated hhost target)
        (MacroCalls.keys_sublist_idSlots _).countP_le)
  have hlength : (graftIds host donor stable s).length + unsetCount host.idSlots ≤ _ :=
    length_graftIds hrelocated
  obtain ⟨w, t, hgraft, hle⟩ := exists_transplantDonor (s := .ofSeed s.maxId) hset hfound
    (mem_graftIds_of_host (List.mem_append_left _ hmem) hset)
    (fun i => mem_graftIds_of_setAt hx) rfl (fun i => mem_graftIds_of_calls hrelocated) hb₃
    (fun e he => Nat.le_trans (hshadows₂ e he) hb₂) (by omega)
  have htop := IdSupply.maxId_le_reach (graftIds host donor stable s) t
  refine ⟨b, stable, s, w, t, ?_, hgraft, by omega⟩
  exact (priced_relocate donor _).budgetOnly.same hb₁ hrelocate

lemma replaceBy_of_transplant (hset : target.isSet) (hfound : host.root.find? target = some existing)
    (hne : existing ≠ donor.root)
    (hrelocate : Ends (relocate budget donor) (.ofSeed (largest host.maxId [donor.maxId])) stable s)
    (hgraft : Ends (transplantDonor budget host stable target) (.ofSeed s.maxId) w t) :
    replaceBy budget host donor target = .ok w := by
  rw [replaceBy_of_ne hset hfound hne, except_bind_eq_ok]
  exact ⟨(stable, s), hrelocate, (run'_eq_ok ..).2 ⟨t, hgraft⟩⟩

/-- The host is kept as it is when the budget is enough for each shadow of a node. -/
lemma exists_adoptExtensions_iff (budget : Nat) (host donor : Workspace) :
    (∃ w, adoptExtensions budget host donor = .ok w) ↔
      ∀ e ∈ host.source.macroCalls.entries, (host.root.nodesById.get? e.1).isSome →
        e.2.nodeCount ≤ budget := by
  unfold adoptExtensions
  constructor
  · rintro ⟨w, hw⟩
    obtain ⟨calls, hcalls, -⟩ := (except_bind_eq_ok ..).1 hw
    exact (MacroCalls.rederiveKeeping_eq_ok_iff.1 hcalls).1
  · intro hbudget
    have hcalls := MacroCalls.rederiveKeeping_eq_ok_iff.2 ⟨hbudget, rfl⟩
    exact ⟨_, (except_bind_eq_ok ..).2 ⟨_, hcalls, rfl⟩⟩

lemma replaceBy_of_eq (hset : target.isSet) (hfound : host.root.find? target = some donor.root)
    (budget : Nat) : replaceBy budget host donor target = adoptExtensions budget host donor := by
  unfold replaceBy
  rw [if_pos hset, hfound]
  exact if_pos ⟨(mem_of_find? hfound).2, rfl⟩

lemma replaceBy_eq_notFound (h : target.isSet → host.root.find? target = none) (budget : Nat) :
    replaceBy budget host donor target = .error (.notFound target) := by
  unfold replaceBy
  by_cases hset : target.isSet
  · rw [if_pos hset, h hset]
  · rw [if_neg hset]

/-- With room for the ids of the host and twice those of the donor, a target that is found is
replaced if the budget is large enough. -/
theorem exists_replaceBy (hset : target.isSet) (hfound : host.root.find? target = some existing)
    (hroom : max host.maxId.toNat donor.maxId.toNat + host.idSlots.length +
      2 * donor.idSlots.length < UInt64.size) :
    ∃ budget w, replaceBy budget host donor target = .ok w ∧ (existing ≠ donor.root →
      w.IdsBetween (max host.maxId.toNat donor.maxId.toNat)
        (max host.maxId.toNat donor.maxId.toNat + host.idSlots.length + 2 * donor.idSlots.length)) := by
  by_cases hne : existing = donor.root
  · subst hne
    obtain ⟨budget, hbudget⟩ := exists_shadow_budget host.source.macroCalls.entries
    obtain ⟨w, hw⟩ := (exists_adoptExtensions_iff budget host donor).2 fun e he _ => hbudget e he
    exact ⟨budget, w, (replaceBy_of_eq hset hfound budget).trans hw, fun h => absurd rfl h⟩
  · have htop := toNat_largest host.maxId donor.maxId
    rw [← htop] at hroom ⊢
    have hfirst := at?_firstAt? target host.root
    rw [hfound, Option.bind_eq_some_iff] at hfirst
    obtain ⟨p, hp, -⟩ := hfirst
    obtain ⟨budget, stable, s, w, t, hrelocate, hgraft, hle⟩ :=
      exists_transplant hset hp (le_largest host.maxId [donor.maxId]).1 hroom
    have hw := replaceBy_of_transplant hset hfound hne hrelocate hgraft
    refine ⟨budget, w, hw, fun _ => ?_⟩
    have hrelocated := relocated_of_relocate hrelocate
    obtain ⟨hmem, hid⟩ := mem_of_find? hfound
    obtain ⟨p', hgrafted⟩ := hrelocated.grafted hset (hid ▸ id_mem_slots hmem)
      (le_largest host.maxId [donor.maxId]).1 hgraft
    exact hgrafted.idsBetween.mono hrelocated.seed_le hle

/-- With room for the ids, a replacement fails only for want of its target or of a budget. -/
lemma replaceBy_outcomes
    (hroom : max host.maxId.toNat donor.maxId.toNat + host.idSlots.length +
      2 * donor.idSlots.length < UInt64.size) (target : NodeId) (budget : Nat) :
    replaceBy budget host donor target = .error (.notFound target) ∨
      replaceBy budget host donor target = .error .budgetExhausted ∨
      ∃ w, replaceBy budget host donor target = .ok w := by
  by_cases hmissing : target.isSet → host.root.find? target = none
  · exact .inl (replaceBy_eq_notFound hmissing budget)
  · rw [Classical.not_imp, ← ne_eq, Option.ne_none_iff_exists'] at hmissing
    obtain ⟨hset, existing, hfound⟩ := hmissing
    obtain ⟨b, w, hw, -⟩ := exists_replaceBy hset hfound hroom
    rcases (hasPrice_replaceBy host donor target).ok_or_exhausted hw budget with h | h
    · exact .inr (.inr ⟨w, h⟩)
    · exact .inr (.inl h)

/-- A replacement takes its ids from those above both workspaces. It needs no more of them than the
host has ids and twice as many as the donor has, and with so many left it does not run out of ids. -/
theorem ids_fresh (budget : Nat) (host donor : Workspace) (target : NodeId) :
    let top := max host.maxId.toNat donor.maxId.toNat
    let limit := top + host.idSlots.length + 2 * donor.idSlots.length
    (∀ w, replaceBy budget host donor target = .ok w → host.root.find? target ≠ some donor.root →
      w.IdsBetween top limit) ∧
    (limit < UInt64.size → replaceBy budget host donor target ≠ .error .idOverflow) := by
  intro top limit
  constructor
  · intro w hw hne
    obtain ⟨hset, hadopted | ⟨-, seed, stable, s, p, t, hhost, hdonor, hrelocated, hgrafted⟩⟩ :=
      replaceBy_cases hw
    · exact absurd hadopted.found hne
    by_cases hroom : limit < UInt64.size
    · obtain ⟨existing, hfound⟩ : ∃ existing, host.root.find? target = some existing := by
        obtain ⟨x, hx, -⟩ := hgrafted.at_target
        rw [← at?_firstAt?, hgrafted.found]
        exact ⟨x, hx⟩
      obtain ⟨b, w', hw', hbetween⟩ := exists_replaceBy hset hfound hroom
      rcases (hasPrice_replaceBy host donor target).ok_or_exhausted hw' budget with h | h
      · rw [hw] at h
        cases h
        exact hbetween fun heq => hne (heq ▸ hfound)
      · rw [hw] at h
        cases h
    · -- no id is above a limit that lies beyond the word
      have hlow := hrelocated.seed_le
      have hhigh := t.maxId.value.toNat_lt_size
      refine hgrafted.idsBetween.mono (Nat.le_trans (Nat.max_le.2 ⟨hhost, hdonor⟩) hlow) ?_
      change t.maxId.value.toNat ≤ limit
      omega
  · intro hroom herror
    rcases replaceBy_outcomes hroom target budget with h | h | ⟨w, h⟩
    all_goals
      rw [herror] at h
      cases h

/-- The host has six ids, one of them unset, and the donor one, so eight ids below the end of the
word are enough. -/
theorem ids_fresh_near_the_end :
    let shadow : Expr := ⟨⟨18446744073709551607⟩, .list ⟨[⟨⟨2⟩, .notSet⟩], .empty⟩⟩
    let host : Workspace :=
      ⟨⟨⟨1⟩, .call ⟨none, "f", [⟨⟨2⟩, .ident ⟨"x"⟩⟩, ⟨.unset, .ident ⟨"y"⟩⟩]⟩⟩,
        { SourceInfo.empty with macroCalls := .ofList [(⟨1⟩, shadow)] }⟩
    let donor : Workspace := .ofExpr ⟨⟨2⟩, .ident ⟨"z"⟩⟩
    (∃ w, replaceBy 5 host donor ⟨2⟩ = .ok w ∧
      w.IdsBetween 18446744073709551607 18446744073709551615) ∧
    replaceBy 4 host donor ⟨2⟩ ≠ .error .idOverflow := by
  intro shadow host donor
  have htop : max host.maxId.toNat donor.maxId.toNat = 18446744073709551607 := by decide +kernel
  have hhost : host.idSlots.length = 6 := by decide +kernel
  have hdonor : donor.idSlots.length = 1 := by decide +kernel
  have hfresh (budget : Nat) := ids_fresh budget host donor ⟨2⟩
  simp only [htop, hhost, hdonor] at hfresh
  have hsome : (replaceBy 5 host donor ⟨2⟩).toOption.isSome := by decide +kernel
  obtain ⟨w, hw⟩ := Option.isSome_iff_exists.1 hsome
  rw [except_toOption_eq_some] at hw
  exact ⟨⟨w, hw, (hfresh 5).1 w hw (by decide +kernel)⟩, (hfresh 4).2 (by decide)⟩

end CelEdit.Workspace
