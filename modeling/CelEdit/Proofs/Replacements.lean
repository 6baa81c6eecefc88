import CelEdit.Proofs.Grafts

/-!
# Replacements

What relocating a donor and putting it into a host amount to, in terms of exchanges of ids: the tree
keeps its shape, its ids are exchanged by one run of a supply, and the macro calls are derived with
what the supply remembers. A replacement is either the shortcut for a donor that is already there or
a relocation followed by a graft.
-/

namespace CelEdit.Workspace

open Runs CelEdit.Expr

variable {target seed : NodeId} {budget : Nat} {w v host donor : Workspace}

/-! ### The largest id -/

lemma toNat_le_maxId_of_root {i : NodeId} (h : i ∈ w.root.slots) : i.toNat ≤ w.maxId.toNat := by
  have hroot := toNat_le_maxId h
  have hbase := (NodeId.le_largest w.root.maxId
    (w.source.macroCalls.entries.flatMap (fun e => [e.1, e.2.maxId]))).1
  exact Nat.le_trans hroot hbase

lemma toNat_le_maxId_of_entry {entry : NodeId × Expr} (h : entry ∈ w.source.macroCalls.entries) :
    entry.1.toNat ≤ w.maxId.toNat ∧ ∀ i ∈ entry.2.slots, i.toNat ≤ w.maxId.toNat := by
  have hids := (NodeId.le_largest w.root.maxId
    (w.source.macroCalls.entries.flatMap (fun e => [e.1, e.2.maxId]))).2
  constructor
  · exact hids entry.1 (List.mem_flatMap.2 ⟨entry, h, by simp⟩)
  · intro i hi
    have hshadow := hids entry.2.maxId (List.mem_flatMap.2 ⟨entry, h, by simp⟩)
    exact Nat.le_trans (toNat_le_maxId hi) hshadow

/-! ### Trees with exchanged ids -/

section Exchanged

variable {K : NodeId → Prop} {e e' m n : Expr} {s t : IdSupply} {q : Position} {i : NodeId}

lemma root_bounds {is : List NodeId} (h : IdSupply.Exchanges K s is e.slots t) (hs : s.Sound seed) :
    ∀ n ∈ e.preorder, n.id.isSet ∧ n.id.toNat ≤ t.maxId.toNat := by
  intro n hn
  obtain ⟨hlt, hle⟩ := h.bounds hs (id_mem_slots hn)
  exact ⟨NodeId.isSet_of_lt hlt, hle⟩

lemma relabels_of_exchanges (hshape : e'.eraseIds = e.eraseIds)
    (h : IdSupply.Exchanges K s e.slots e'.slots t) (hs : s.Sound seed) :
    Relabels (fun i j => t.Gave i j ∧ j.isSet) e e' :=
  ⟨hshape, (h.gave hs).imp (fun _ _ hgave => ⟨hgave.1, NodeId.isSet_of_lt hgave.2.1⟩)⟩

/-- A node keeps its position and gets the exchange of its id. -/
lemma exists_exchanged_at (h : Relabels (fun i j => t.Gave i j ∧ j.isSet) e e')
    (hm : e.at? q = some m) :
    ∃ n, e'.at? q = some n ∧ n.id.isSet ∧ (m.id.isSet → t.exchangeOf m.id = n.id) := by
  obtain ⟨n, hn, hrelabels⟩ := h.at? hm
  obtain ⟨hgave, hset⟩ := hrelabels.id
  exact ⟨n, hn, hset, hgave.exchangeOf_eq⟩

/-- Where the supply is injective, the id of a node is the exchange of the id at its position only. -/
lemma exists_origin_at (h : Relabels (fun i j => t.Gave i j ∧ j.isSet) e e')
    (hinj : t.InjectiveOn K) (hK : ∀ i ∈ e.slots, i.isSet → K i) (hn : e'.at? q = some n) (hi : K i)
    (hid : t.exchangeOf i = n.id) : ∃ m, e.at? q = some m ∧ m.id = i := by
  obtain ⟨m, hm, hrelabels⟩ := Relabels.at? (R := fun j i => t.Gave i j ∧ j.isSet)
    ⟨h.1.symm, List.Forall₂.flip h.2⟩ hn
  obtain ⟨hgave, hset⟩ := hrelabels.id
  refine ⟨m, hm, ?_⟩
  obtain ⟨-, hexchanged⟩ := IdSupply.exchanged?_of_isSet_exchangeOf (hid ▸ hset)
  rw [hid] at hexchanged
  by_cases hmset : m.id.isSet
  · have hmem : m.id ∈ e.slots := id_mem_slots (mem_preorder_iff.2 ⟨q, hm⟩)
    exact hinj m.id i n.id (hK _ hmem hmset) hi (hgave.1 hmset) hexchanged
  · rw [NodeId.isSet_iff, not_not] at hmset
    exact absurd hexchanged (hgave.2 hmset i)

end Exchanged

/-! ### Relocation -/

/-- `v` is `w` with ids that a supply gave for its own. -/
structure Relocated (seed : NodeId) (w v : Workspace) (t : IdSupply) : Prop where
  shape : v.root.eraseIds = w.root.eraseIds
  run : ∀ K, IdSupply.Exchanges K (.ofSeed seed) w.root.slots v.root.slots t
  calls : v.source.macroCalls = MacroCalls.derived none v.root t.exchangeOf w.source.macroCalls
  extensions : v.source.extensions = w.source.extensions

lemma relocated_of_rederive {s t : IdSupply}
    (hroot : Ends ((w.root.renumber IdSupply.exchange).run' budget) (.ofSeed seed) v.root s)
    (hcalls : Ends (MacroCalls.rederive w.source.macroCalls none v.root IdSupply.exchange budget) s
      v.source.macroCalls t)
    (hextensions : v.source.extensions = w.source.extensions) : Relocated seed w v t := by
  obtain ⟨hshape, -, hthread⟩ := ends_renumber_run'.1 hroot
  have hrun (K : NodeId → Prop) : IdSupply.Exchanges K (.ofSeed seed) w.root.slots v.root.slots s :=
    .of_thread hthread
  have hseed := IdSupply.sound_ofSeed seed
  have hsound := ((hrun (fun _ => True)).sound_extends hseed).1
  have hbounds := root_bounds (hrun (fun _ => True)) hseed
  refine ⟨hshape, fun K => ?_, ?_, hextensions⟩
  · have hrest := (MacroCalls.rederive_exchange (K := K) hsound hbounds hcalls).1
    simpa using (hrun K).append hrest
  · have hderived := (MacroCalls.rederive_exchange (K := fun _ => True) hsound hbounds hcalls).2
    exact hderived t (IdSupply.Extends.refl t)

theorem relocated_of_relocate {t : IdSupply} (h : Ends (relocate budget w) (.ofSeed seed) v t) :
    Relocated seed w v t := by
  simp only [relocate, ends_bind, ends_pure] at h
  obtain ⟨root, s, hroot, calls, t', hcalls, rfl, rfl⟩ := h
  exact relocated_of_rederive hroot hcalls rfl

/-- The table of positions under the ids that a supply gave for its own. -/
def movedPositions (g : IdSupply) (positions : IdMap UInt32) : IdMap UInt32 :=
  .ofList (positions.entries.filterMap fun e => (g.exchanged? e.1).map fun new => (new, e.2))

lemma renumber_eq_ok_iff :
    renumber budget w = .ok v ↔ ∃ root g calls t,
      Ends ((w.root.renumber IdSupply.exchange).run' budget) (.ofSeed .unset) root g ∧
      Ends (MacroCalls.rederive w.source.macroCalls none root IdSupply.exchange budget) g calls t ∧
      v = ⟨root, { w.source with
        positions := movedPositions g w.source.positions, macroCalls := calls }⟩ := by
  unfold renumber
  rw [except_bind_eq_ok]
  constructor
  · rintro ⟨⟨root, g⟩, hroot, h⟩
    obtain ⟨calls, hcalls, hv⟩ := (except_bind_eq_ok ..).1 h
    obtain ⟨t, hcalls⟩ := (run'_eq_ok ..).1 hcalls
    cases hv
    exact ⟨root, g, calls, t, hroot, hcalls, rfl⟩
  · rintro ⟨root, g, calls, t, hroot, hcalls, rfl⟩
    exact ⟨(root, g), hroot, (except_bind_eq_ok ..).2
      ⟨calls, (run'_eq_ok ..).2 ⟨t, hcalls⟩, rfl⟩⟩

/-- Numbering a workspace from one is a relocation above the unset id. -/
theorem relocated_of_renumber (h : renumber budget w = .ok v) : ∃ t, Relocated .unset w v t := by
  obtain ⟨root, g, calls, t, hroot, hcalls, rfl⟩ := renumber_eq_ok_iff.1 h
  exact ⟨t, relocated_of_rederive hroot hcalls rfl⟩

namespace Relocated

variable {t : IdSupply}

lemma sound (h : Relocated seed w v t) : t.Sound seed :=
  ((h.run (fun _ => True)).sound_extends (IdSupply.sound_ofSeed seed)).1

lemma injectiveOn (h : Relocated seed w v t) : t.InjectiveOn (fun _ => True) :=
  (h.run _).injectiveOn (IdSupply.sound_ofSeed seed) (IdSupply.injectiveOn_ofSeed _ seed)

lemma bounds (h : Relocated seed w v t) {i : NodeId} (hi : i ∈ v.root.slots) :
    seed.toNat < i.toNat ∧ i.toNat ≤ t.maxId.toNat :=
  (h.run (fun _ => True)).bounds (IdSupply.sound_ofSeed seed) hi

lemma nodup (h : Relocated seed w v t) (hw : w.root.DistinctIds) : v.root.slots.Nodup :=
  (h.run (fun _ => True)).nodup (IdSupply.sound_ofSeed seed) (IdSupply.injectiveOn_ofSeed _ seed) hw
    (fun _ _ _ => trivial)

lemma distinct (h : Relocated seed w v t) (hw : w.root.DistinctIds) : v.root.DistinctIds :=
  (h.nodup hw).filter _

lemma relabels (h : Relocated seed w v t) :
    Relabels (fun i j => t.Gave i j ∧ j.isSet) w.root v.root :=
  relabels_of_exchanges h.shape (h.run (fun _ => True)) (IdSupply.sound_ofSeed seed)

lemma seed_le (h : Relocated seed w v t) : seed.toNat ≤ t.maxId.toNat := h.sound.seed_le

end Relocated

/-! ### Grafting -/

/-- `w` is the host with the donor at the first position of the target, with ids that a supply gave
for those of the tree so built. The target and the root of the donor share one exchange. -/
structure Grafted (seed : NodeId) (host donor : Workspace) (target : NodeId) (p : Position)
    (w : Workspace) (t : IdSupply) : Prop where
  found : host.root.firstAt? target = some p
  shape : w.root.eraseIds = (setAt donor.root p host.root).eraseIds
  run : IdSupply.Exchanges (· ≠ target) (.ofSeed seed) (setAt donor.root p host.root).slots
    w.root.slots t
  shared : ∃ placed, t.exchanged? target = some placed ∧ t.exchanged? donor.root.id = some placed
  source : w.source = { host.source with
    description := ""
    lineOffsets := []
    positions := .empty
    macroCalls := MacroCalls.derived (some (t.exchangeOf target)) w.root t.exchangeOf
      ((host.source.macroCalls.erase target).union donor.source.macroCalls)
    extensions := Extension.merge host.source.extensions donor.source.extensions }

lemma ends_transplantDonor {s t : IdSupply} :
    Ends (transplantDonor budget host donor target) s w t ↔
      ∃ root b s₁ replaced s₂ calls,
        Ends (transplant target host.root) (some donor.root, budget, s) root (none, b, s₁) ∧
        Ends (IdSupply.exchange target) s₁ replaced s₂ ∧
        Ends (MacroCalls.rederive
          ((host.source.macroCalls.erase target).union donor.source.macroCalls) (some replaced) root
          IdSupply.exchange budget) s₂ calls t ∧
        w = ⟨root, { host.source with
          description := ""
          lineOffsets := []
          positions := .empty
          macroCalls := calls
          extensions := Extension.merge host.source.extensions donor.source.extensions }⟩ := by
  unfold transplantDonor
  rw [ends_bind]
  constructor
  · rintro ⟨⟨root, pending⟩, s₁, hwalk, hrest⟩
    obtain ⟨b, hwalk⟩ := ends_run'.1 hwalk
    cases pending with
    | some d => cases hrest
    | none =>
      change Ends (IdSupply.exchange target >>= _) s₁ w t at hrest
      simp only [ends_bind, ends_pure] at hrest
      obtain ⟨replaced, s₂, hreplaced, calls, t', hcalls, rfl, rfl⟩ := hrest
      exact ⟨root, b, s₁, replaced, s₂, calls, hwalk, hreplaced, hcalls, rfl⟩
  · rintro ⟨root, b, s₁, replaced, s₂, calls, hwalk, hreplaced, hcalls, rfl⟩
    refine ⟨(root, none), s₁, ends_run'.2 ⟨b, hwalk⟩, ?_⟩
    change Ends (IdSupply.exchange target >>= _) s₁ _ t
    simp only [ends_bind, ends_pure]
    exact ⟨replaced, s₂, hreplaced, calls, t, hcalls, rfl, rfl⟩

/-- The walk of a graft exchanges the ids of the tree that it builds. -/
lemma exchanges_of_transplant {d root : Expr} {pending : Option Expr} {p : Position} {b : Nat}
    {s : IdSupply} (htarget : target.isSet) (hdonor : d.id ≠ target) (hnew : d.id ∉ host.root.slots)
    (hfound : host.root.firstAt? target = some p)
    (hwalk : Ends (transplant target host.root) (some d, budget, .ofSeed seed) root (pending, b, s)) :
    IdSupply.Exchanges (· ≠ target) (.ofSeed seed) (setAt d p host.root).slots root.slots s ∧
      ∃ placed, s.exchanged? target = some placed ∧ s.exchanged? d.id = some placed := by
  obtain ⟨x, hx, -⟩ := exists_of_firstAt? hfound
  obtain ⟨-, -, -, hgraft⟩ := (ends_transplant_found hfound).1 hwalk
  have hbefore : d.id ∉ slotsBefore p host.root := by
    intro hmem
    apply hnew
    rw [slots_eq_around hx]
    simp [hmem]
  rw [slots_setAt hx]
  exact hgraft.exchanges (IdSupply.sound_ofSeed seed) (IdSupply.injectiveOn_ofSeed _ seed) htarget
    hdonor hbefore rfl

/-- After the walk and the exchange of the target the supply is ahead of all ids of the tree. -/
lemma sound_bounds_of_exchange {K : NodeId → Prop} {root : Expr} {is : List NodeId}
    {s₁ s₂ : IdSupply} {replaced : NodeId}
    (hrun : IdSupply.Exchanges K (.ofSeed seed) is root.slots s₁)
    (hreplaced : Ends (IdSupply.exchange target) s₁ replaced s₂) :
    s₂.Sound seed ∧ ∀ n ∈ root.preorder, n.id.isSet ∧ n.id.toNat ≤ s₂.maxId.toNat := by
  have hseed := IdSupply.sound_ofSeed seed
  refine ⟨IdSupply.exchange_sound hreplaced (hrun.sound_extends hseed).1, fun n hn => ?_⟩
  have hle := (IdSupply.exchange_extends hreplaced).max_le
  have hn := root_bounds hrun hseed n hn
  exact ⟨hn.1, by omega⟩

theorem grafted_of_transplantDonor {t : IdSupply} (htarget : target.isSet)
    (hdonor : donor.root.id ≠ target) (hnew : donor.root.id ∉ host.root.slots)
    (h : Ends (transplantDonor budget host donor target) (.ofSeed seed) w t) :
    ∃ p, Grafted seed host donor target p w t := by
  obtain ⟨root, b, s₁, replaced, s₂, calls, hwalk, hreplaced, hcalls, rfl⟩ :=
    ends_transplantDonor.1 h
  cases hfound : host.root.firstAt? target with
  | none =>
    -- the donor would still be pending
    cases ((ends_transplant_idle (.inr hfound)).1 hwalk).1
  | some p =>
    obtain ⟨-, hshape, -, -⟩ := (ends_transplant_found hfound).1 hwalk
    obtain ⟨hrun, placed, hplaced, hroot⟩ := exchanges_of_transplant htarget hdonor hnew hfound hwalk
    have hsound₁ := (hrun.sound_extends (IdSupply.sound_ofSeed seed)).1
    obtain ⟨hsound₂, hbounds⟩ := sound_bounds_of_exchange hrun hreplaced
    have hextends₂ := IdSupply.exchange_extends hreplaced
    obtain ⟨hrest, hderived⟩ :=
      MacroCalls.rederive_exchange (K := (· ≠ target)) hsound₂ hbounds hcalls
    have hextends := hextends₂.trans (hrest.sound_extends hsound₂).2
    have hreplacedEq : t.exchangeOf target = replaced :=
      ((IdSupply.exchange_gave hreplaced hsound₁).mono
        (IdSupply.exchange_bounds hreplaced hsound₁).2.1 (hrest.sound_extends hsound₂).2).exchangeOf_eq
          htarget
    refine ⟨p, hfound, hshape, ?_, ⟨placed, hextends.keeps hplaced, hextends.keeps hroot⟩, ?_⟩
    · simpa using hrun.append (.aside hreplaced hrest)
    · rw [hderived t (IdSupply.Extends.refl t), hreplacedEq]

namespace Grafted

variable {p : Position} {t : IdSupply}

lemma injectiveOn (h : Grafted seed host donor target p w t) : t.InjectiveOn (· ≠ target) :=
  h.run.injectiveOn (IdSupply.sound_ofSeed seed) (IdSupply.injectiveOn_ofSeed _ seed)

lemma relabels (h : Grafted seed host donor target p w t) :
    Relabels (fun i j => t.Gave i j ∧ j.isSet) (setAt donor.root p host.root) w.root :=
  relabels_of_exchanges h.shape h.run (IdSupply.sound_ofSeed seed)

lemma at_target (h : Grafted seed host donor target p w t) :
    ∃ x, host.root.at? p = some x ∧ x.id = target := exists_of_firstAt? h.found

variable (hhost : host.root.DistinctIds) (hdonor : donor.root.DistinctIds)
  (hapart : ∀ i ∈ donor.root.slots, host.maxId.toNat < i.toNat)

include hhost hapart in
/-- The target has left the tree. -/
lemma ne_target (h : Grafted seed host donor target p w t) {i : NodeId}
    (hi : i ∈ (setAt donor.root p host.root).slots) (hset : i.isSet) : i ≠ target := by
  rintro rfl
  obtain ⟨x, hx, hid⟩ := h.at_target
  have hmem : i ∈ x.slots := hid ▸ id_mem_slots (self_mem_preorder x)
  have haround := slots_eq_around hx
  have hin : i ∈ host.root.slots := by simp [haround, hmem]
  rw [DistinctIds, haround, List.filter_append, List.filter_append, List.append_assoc,
    List.nodup_append] at hhost
  obtain ⟨-, hrest, hbefore⟩ := hhost
  rw [List.nodup_append] at hrest
  have hx' : i ∈ x.slots.filter NodeId.isSet := List.mem_filter.2 ⟨hmem, hset⟩
  rw [slots_setAt hx, List.mem_append, List.mem_append] at hi
  rcases hi with (hi | hi) | hi
  · exact hbefore i (List.mem_filter.2 ⟨hi, hset⟩) i (List.mem_append_left _ hx') rfl
  · have hlt := hapart i hi
    have hle := toNat_le_maxId_of_root hin
    omega
  · exact hrest.2.2 i hx' i (List.mem_filter.2 ⟨hi, hset⟩) rfl

include hhost hdonor hapart in
lemma distinct_setAt (h : Grafted seed host donor target p w t) :
    (setAt donor.root p host.root).DistinctIds := by
  obtain ⟨x, hx, -⟩ := h.at_target
  have haround := slots_eq_around hx
  have houter : ((slotsBefore p host.root ++ slotsAfter p host.root).filter NodeId.isSet).Nodup := by
    apply List.Nodup.sublist _ hhost
    rw [haround]
    exact ((List.sublist_append_left _ _).append (List.Sublist.refl _)).filter _
  have hapart' : ∀ i ∈ donor.root.slots, i ∉ slotsBefore p host.root ++ slotsAfter p host.root := by
    intro i hi hmem
    have hin : i ∈ host.root.slots := by
      rw [haround]
      simp only [List.mem_append] at hmem ⊢
      tauto
    have hlt := hapart i hi
    have hle := toNat_le_maxId_of_root hin
    omega
  have hperm : (slotsBefore p host.root ++ donor.root.slots ++ slotsAfter p host.root).Perm
      (donor.root.slots ++ (slotsBefore p host.root ++ slotsAfter p host.root)) := by
    rw [List.append_assoc]
    exact (List.perm_append_comm_assoc ..)
  rw [DistinctIds, slots_setAt hx, (hperm.filter _).nodup_iff, List.filter_append, List.nodup_append]
  refine ⟨hdonor, houter, ?_⟩
  rintro i hi j hj rfl
  exact hapart' i (List.mem_filter.1 hi).1 (List.mem_filter.1 hj).1

end Grafted

/-! ### Both ways of a replacement -/

/-- The donor is already there. -/
structure Adopted (host donor : Workspace) (target : NodeId) (w : Workspace) : Prop where
  found : host.root.find? target = some donor.root
  root : w.root = host.root
  source : w.source = { host.source with
    description := ""
    lineOffsets := []
    positions := .empty
    macroCalls := MacroCalls.derived none host.root (fun i => i) host.source.macroCalls
    extensions := Extension.merge host.source.extensions donor.source.extensions }

theorem adopted_of_adoptExtensions (hfound : host.root.find? target = some donor.root)
    (h : adoptExtensions budget host donor = .ok w) : Adopted host donor target w := by
  unfold adoptExtensions at h
  rw [except_bind_eq_ok] at h
  obtain ⟨calls, hcalls, hw⟩ := h
  obtain ⟨-, rfl⟩ := MacroCalls.rederiveKeeping_eq_ok_iff.1 hcalls
  cases hw
  exact ⟨hfound, rfl, rfl⟩

/-- A donor that was relocated above the host can be told from it by the id of its root. -/
lemma Relocated.root_not_mem {stable : Workspace} {s : IdSupply} (h : Relocated seed donor stable s)
    (hle : host.maxId.toNat ≤ seed.toNat) : stable.root.id ∉ host.root.slots := by
  intro hmem
  have hbounds := h.bounds (id_mem_slots (self_mem_preorder stable.root))
  have hhost := toNat_le_maxId_of_root hmem
  omega

lemma Relocated.grafted {stable : Workspace} {s t : IdSupply} (h : Relocated seed donor stable s)
    (htarget : target.isSet) (hmem : target ∈ host.root.slots)
    (hle : host.maxId.toNat ≤ seed.toNat)
    (hgraft : Ends (transplantDonor budget host stable target) (.ofSeed s.maxId) w t) :
    ∃ p, Grafted s.maxId host stable target p w t := by
  have hnew := h.root_not_mem hle
  exact grafted_of_transplantDonor htarget (fun heq => hnew (heq ▸ hmem)) hnew hgraft

/-- A replacement finds its target, and either adopts the donor or relocates it above all ids and
grafts it. -/
theorem replaceBy_cases (h : replaceBy budget host donor target = .ok w) :
    target.isSet ∧ (Adopted host donor target w ∨
      host.root.find? target ≠ some donor.root ∧ ∃ seed stable s p t,
        host.maxId.toNat ≤ seed.toNat ∧ donor.maxId.toNat ≤ seed.toNat ∧
        Relocated seed donor stable s ∧ Grafted s.maxId host stable target p w t) := by
  unfold replaceBy at h
  by_cases hset : target.isSet
  · rw [if_pos hset] at h
    refine ⟨hset, ?_⟩
    cases hfound : host.root.find? target with
    | none =>
      rw [hfound] at h
      cases h
    | some existing =>
      rw [hfound] at h
      dsimp only at h
      by_cases hsame : donor.root.id = target ∧ existing = donor.root
      · rw [if_pos hsame] at h
        exact .inl (adopted_of_adoptExtensions (hsame.2 ▸ hfound) h)
      · rw [if_neg hsame, except_bind_eq_ok] at h
        obtain ⟨⟨stable, s⟩, hrelocate, hgraft⟩ := h
        obtain ⟨t, hgraft⟩ := (run'_eq_ok ..).1 hgraft
        obtain ⟨hmem, hid⟩ := mem_of_find? hfound
        have hrelocated := relocated_of_relocate hrelocate
        have hle := NodeId.le_largest host.maxId [donor.maxId]
        obtain ⟨p, hgrafted⟩ := hrelocated.grafted hset (hid ▸ id_mem_slots hmem) hle.1 hgraft
        refine .inr ⟨fun hsome => hsame ?_, _, stable, s, p, t, hle.1, hle.2 _ (by simp), hrelocated,
          hgrafted⟩
        rw [Option.some.injEq] at hsome
        exact ⟨hsome ▸ hid, hsome⟩
  · rw [if_neg hset] at h
    cases h

/-- A donor with distinct ids, relocated above a host with distinct ids and grafted into it. -/
structure DistinctGraft (seed : NodeId) (host donor stable : Workspace) (target : NodeId)
    (p : Position) (w : Workspace) (s t : IdSupply) : Prop where
  host_distinct : host.root.DistinctIds
  donor_distinct : donor.root.DistinctIds
  target_isSet : target.isSet
  above : host.maxId.toNat ≤ seed.toNat
  relocated : Relocated seed donor stable s
  grafted : Grafted s.maxId host stable target p w t

theorem adopted_or_distinctGraft (hhost : host.root.DistinctIds) (hdonor : donor.root.DistinctIds)
    (h : replaceBy budget host donor target = .ok w) :
    Adopted host donor target w ∨
      ∃ seed stable p s t, DistinctGraft seed host donor stable target p w s t := by
  obtain ⟨hset, hadopted | ⟨-, seed, stable, s, p, t, hle, -, hrelocated, hgrafted⟩⟩ := replaceBy_cases h
  · exact .inl hadopted
  · exact .inr ⟨seed, stable, p, s, t, hhost, hdonor, hset, hle, hrelocated, hgrafted⟩

namespace DistinctGraft

variable {stable : Workspace} {p : Position} {s t : IdSupply} {i : NodeId}

lemma lt_of_mem_stable (h : DistinctGraft seed host donor stable target p w s t)
    (hi : i ∈ stable.root.slots) : host.maxId.toNat < i.toNat := by
  have hbounds := h.relocated.bounds hi
  have hle := h.above
  omega

lemma target_le_maxId (h : DistinctGraft seed host donor stable target p w s t) :
    target.toNat ≤ host.maxId.toNat := by
  obtain ⟨x, hx, rfl⟩ := h.grafted.at_target
  exact toNat_le_maxId_of_root (id_mem_slots (mem_preorder_iff.2 ⟨p, hx⟩))

/-- The root of the donor has the exchange of the target. -/
lemma exchangeOf_target (h : DistinctGraft seed host donor stable target p w s t) :
    t.exchangeOf target = t.exchangeOf stable.root.id := by
  obtain ⟨placed, htarget, hroot⟩ := h.grafted.shared
  have hset : stable.root.id.isSet :=
    NodeId.isSet_of_lt (h.lt_of_mem_stable (id_mem_slots (self_mem_preorder _)))
  rw [IdSupply.exchangeOf_of_exchanged h.target_isSet htarget,
    IdSupply.exchangeOf_of_exchanged hset hroot]

/-- All ids of the new tree are set and distinct. -/
theorem nodup (h : DistinctGraft seed host donor stable target p w s t) : w.root.slots.Nodup := by
  have hapart : ∀ i ∈ stable.root.slots, host.maxId.toNat < i.toNat := fun i => h.lt_of_mem_stable
  apply h.grafted.run.nodup (IdSupply.sound_ofSeed _) (IdSupply.injectiveOn_ofSeed _ _)
  · exact h.grafted.distinct_setAt h.host_distinct (h.relocated.distinct h.donor_distinct) hapart
  · intro i hi hset
    exact h.grafted.ne_target h.host_distinct hapart hi hset

lemma distinct (h : DistinctGraft seed host donor stable target p w s t) : w.root.DistinctIds :=
  h.nodup.filter _

end DistinctGraft

/-- Up to ids, a replacement puts the donor in the place of the first node in pre-order with the
target id, whether or not it is already there. The text is forgotten and the extensions are merged. -/
theorem replaceBy_substitutes (h : replaceBy budget host donor target = .ok w) :
    ∃ p, host.root.firstAt? target = some p ∧ host.root.at? p = host.root.find? target ∧
      w.root.eraseIds = (setAt donor.root p host.root).eraseIds ∧
      w.source.description = "" ∧ w.source.lineOffsets = [] ∧ w.source.positions = .empty ∧
      w.source.extensions = Extension.merge host.source.extensions donor.source.extensions := by
  have hfirst := at?_firstAt? target host.root
  obtain ⟨-, hadopted | ⟨-, seed, stable, s, p, t, -, -, hrelocated, hgrafted⟩⟩ := replaceBy_cases h
  · have hfound := hadopted.found
    rw [← hfirst, Option.bind_eq_some_iff] at hfound
    obtain ⟨p, hp, hx⟩ := hfound
    refine ⟨p, hp, hx.trans hadopted.found.symm, ?_, ?_⟩
    · rw [hadopted.root, setAt_self hx]
    · rw [hadopted.source]
      exact ⟨rfl, rfl, rfl, rfl⟩
  · refine ⟨p, hgrafted.found, ?_, ?_, ?_⟩
    · rw [← hfirst, hgrafted.found, Option.bind_some]
    · rw [hgrafted.shape, eraseIds_setAt_congr hrelocated.shape]
    · rw [hgrafted.source, hrelocated.extensions]
      exact ⟨rfl, rfl, rfl, rfl⟩

/-- Of two nodes with the target id the first is replaced, and the donor may contain the id too. -/
theorem replaceBy_substitutes_first :
    let host : Workspace :=
      .ofExpr ⟨⟨1⟩, .call ⟨none, "f", [⟨⟨2⟩, .ident ⟨"x"⟩⟩, ⟨⟨2⟩, .ident ⟨"y"⟩⟩]⟩⟩
    let donor : Workspace := .ofExpr ⟨.unset, .list ⟨[⟨⟨2⟩, .ident ⟨"z"⟩⟩], .empty⟩⟩
    ∃ w, replaceBy 9 host donor ⟨2⟩ = .ok w ∧
      w.root.eraseIds = (setAt donor.root [0] host.root).eraseIds := by
  intro host donor
  obtain ⟨w, hw⟩ : ∃ w, replaceBy 9 host donor ⟨2⟩ = .ok w := ⟨_, rfl⟩
  obtain ⟨p, hp, -, hroot, -⟩ := replaceBy_substitutes hw
  have hfirst : host.root.firstAt? ⟨2⟩ = some [0] := by decide
  rw [hfirst, Option.some.injEq] at hp
  exact ⟨w, hw, hp ▸ hroot⟩

end CelEdit.Workspace
