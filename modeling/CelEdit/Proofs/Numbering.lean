import CelEdit.Proofs.FreshIds

/-!
# Consecutive ids

Renumbering from one. The walk asks for the ids of a tree in order, and if they are distinct it never
asks for one that it knows, so it hands out one, two, three and so on. The ids of the result depend
on the shape alone, and a second renumbering gives the same tree.
-/

namespace CelEdit

namespace IdSupply

open Runs

variable {s t : IdSupply} {is js : List NodeId}

/-- An id that is new to a supply is exchanged for the next id, and remembered if it is set. -/
lemma exchange_new {i j : NodeId} (h : Ends (exchange i) s j t)
    (hnew : i.isSet → s.exchanged? i = none) :
    j.toNat = s.maxId.toNat + 1 ∧ t.maxId = j ∧
      ∀ k l, t.exchanged? k = some l ↔ s.exchanged? k = some l ∨ k.isSet ∧ k = i ∧ l = j := by
  rcases exchange_cases h with ⟨hset, hknown, -⟩ | ⟨⟨hset, hnone, rfl⟩ | ⟨rfl, rfl⟩, hj⟩
  · rw [hnew hset] at hknown
    cases hknown
  · refine ⟨hj, rfl, fun k l => ?_⟩
    rw [exchanged?_insert]
    by_cases hki : k = i
    · rw [if_pos hki, hki, hnone, Option.some.injEq]
      simp [hset, eq_comm]
    · rw [if_neg hki]
      exact ⟨.inl, fun h => h.resolve_right fun h => hki h.2.1⟩
  · refine ⟨hj, rfl, fun k l => ⟨.inl, fun h => h.resolve_right ?_⟩⟩
    rintro ⟨hset, rfl, -⟩
    cases hset

/-- Distinct ids that are new to a supply are exchanged for consecutive ones, and the supply
remembers these exchanges and no others. -/
theorem thread_consecutive (h : Thread (fun i => Ends (exchange i)) is s js t)
    (hnew : ∀ i ∈ is, i.isSet → s.exchanged? i = none) (hdistinct : (is.filter NodeId.isSet).Nodup) :
    js.map NodeId.toNat = List.range' (s.maxId.toNat + 1) is.length ∧
      ∀ k l, t.exchanged? k = some l ↔ s.exchanged? k = some l ∨ k.isSet ∧ (k, l) ∈ is.zip js := by
  induction h with
  | nil s => exact ⟨rfl, by simp⟩
  | @cons i is j js s t u head tail ih =>
    rw [List.forall_mem_cons] at hnew
    obtain ⟨hj, hmax, hstep⟩ := exchange_new head hnew.1
    have hnew' : ∀ k ∈ is, k.isSet → t.exchanged? k = none := by
      intro k hk hset
      rw [Option.eq_none_iff_forall_ne_some]
      intro l hl
      rcases (hstep k l).1 hl with hold | ⟨-, rfl, -⟩
      · rw [hnew.2 k hk hset] at hold
        cases hold
      · rw [List.filter_cons_of_pos hset, List.nodup_cons] at hdistinct
        exact hdistinct.1 (List.mem_filter.2 ⟨hk, hset⟩)
    obtain ⟨hids, hexchanged⟩ :=
      ih hnew' (hdistinct.sublist ((List.sublist_cons_self i is).filter _))
    constructor
    · rw [List.map_cons, hids, hmax, hj, List.length_cons, List.range'_succ]
    · intro k l
      rw [hexchanged, hstep, List.zip_cons_cons, List.mem_cons, Prod.mk.injEq, or_assoc, ← and_or_left]

end IdSupply

namespace Workspace

open Runs CelEdit.Expr

variable {budget : Nat} {w v : Workspace}

/-- What the supply remembers when the tree has been numbered. -/
structure Numbered (w v : Workspace) (g : IdSupply) : Prop where
  shape : v.root.eraseIds = w.root.eraseIds
  ids : v.root.slots.map NodeId.toNat = List.range' 1 w.root.slots.length
  exchanged : ∀ old new, g.exchanged? old = some new ↔
    old.isSet ∧ (old, new) ∈ w.root.slots.zip v.root.slots
  injective : g.InjectiveOn (fun _ => True)

theorem numbered_of_renumber (hdistinct : w.root.DistinctIds)
    (h : renumber budget w = .ok v) : ∃ g, Numbered w v g ∧
      v.source = { w.source with
        positions := movedPositions g w.source.positions, macroCalls := v.source.macroCalls } := by
  obtain ⟨root, g, calls, t, hroot, -, rfl⟩ := renumber_eq_ok_iff.1 h
  obtain ⟨hshape, -, hthread⟩ := ends_renumber_run'.1 hroot
  obtain ⟨hids, hexchanged⟩ := IdSupply.thread_consecutive hthread (fun _ _ _ => rfl) hdistinct
  have hinjective := (IdSupply.Exchanges.of_thread hthread).injectiveOn (IdSupply.sound_ofSeed _)
    (IdSupply.injectiveOn_ofSeed (fun _ => True) _)
  refine ⟨g, ⟨hshape, hids, fun old new => ?_, hinjective⟩, rfl⟩
  rw [hexchanged]
  exact or_iff_right (fun h => nomatch h)

/-- Equal up to ids and numbered, two trees are equal. -/
lemma Numbered.root_eq {w' v' : Workspace} {g g' : IdSupply} (h : Numbered w v g)
    (h' : Numbered w' v' g') (hshape : w'.root.eraseIds = w.root.eraseIds) : v'.root = v.root := by
  apply eq_of_eraseIds_of_slots (h'.shape.trans (hshape.trans h.shape.symm))
  apply List.map_injective_iff.2 (fun _ _ => NodeId.toNat_inj.1)
  rw [h'.ids, h.ids, length_slots_eq hshape]

lemma Numbered.distinct {g : IdSupply} (h : Numbered w v g) : v.root.DistinctIds := by
  apply List.Nodup.filter
  apply List.Nodup.of_map NodeId.toNat
  rw [h.ids]
  exact List.nodup_range'

lemma mem_movedPositions {g : IdSupply} (hinjective : g.InjectiveOn (fun _ => True))
    {positions : IdMap UInt32} {new : NodeId} {offset : UInt32} :
    (new, offset) ∈ (movedPositions g positions).entries ↔
      ∃ old, g.exchanged? old = some new ∧ (old, offset) ∈ positions.entries := by
  have hkeys : ((positions.entries.filterMap fun e =>
      (g.exchanged? e.1).map fun new => (new, e.2)).map Prod.fst).Nodup := by
    have hexchanged : (positions.entries.filterMap fun e =>
        (g.exchanged? e.1).map fun new => (new, e.2)).map Prod.fst =
        (positions.entries.map Prod.fst).filterMap g.exchanged? := by
      rw [List.map_filterMap, List.filterMap_map]
      congr 1
      funext e
      cases h : g.exchanged? e.1 <;> simp [h]
    rw [hexchanged]
    apply positions.keys_nodup.filterMap
    intro i j l hi hj
    exact hinjective i j l trivial trivial hi hj
  rw [movedPositions, ← IdMap.get?_eq_some_iff, IdMap.get?_ofList_of_nodup hkeys, List.mem_filterMap]
  constructor
  · rintro ⟨⟨old, offset'⟩, he, h⟩
    rw [Option.map_eq_some_iff] at h
    obtain ⟨new', hnew, heq⟩ := h
    cases heq
    exact ⟨old, hnew, he⟩
  · rintro ⟨old, hnew, he⟩
    exact ⟨(old, offset), he, by rw [hnew, Option.map_some]⟩

/-! ### Numbering again -/

/-- All ids up to a number. -/
def idsUpTo (n : Nat) : List NodeId := (List.range n).map fun k => ⟨UInt64.ofNat (k + 1)⟩

lemma mem_idsUpTo {n : Nat} {i : NodeId} (hpos : 0 < i.toNat) (hle : i.toNat ≤ n) :
    i ∈ idsUpTo n := by
  refine List.mem_map.2 ⟨i.toNat - 1, List.mem_range.2 (by omega), ?_⟩
  rw [Nat.sub_add_cancel hpos]
  apply NodeId.toNat_inj.1
  exact UInt64.toNat_ofNat_of_lt i.value.toNat_lt_size

/-- A workspace whose ids lie in a range can be numbered within that range. -/
lemma exists_renumber {high : NodeId} (h : v.IdsBetween 0 high.toNat) :
    ∃ budget v', renumber budget v = .ok v' := by
  obtain ⟨b, hshadows⟩ := exists_shadow_budget v.source.macroCalls.entries
  have hbudget : v.Within (max v.root.nodeCount b) :=
    ⟨Nat.le_max_left .., fun e he => Nat.le_trans (hshadows e he) (Nat.le_max_right ..)⟩
  have hset {i : NodeId} (hi : 0 < i.toNat ∧ i.toNat ≤ high.toNat) : i.isSet :=
    NodeId.isSet_of_lt (i := .unset) hi.1
  have hreach : (IdSupply.ofSeed .unset).reach (idsUpTo high.toNat) = high.toNat := by
    rw [IdSupply.reach_ofSeed, idsUpTo, List.length_map, List.length_range]
    exact Nat.zero_add _
  have hend : high.toNat < UInt64.size := high.value.toNat_lt_size
  have hslots : NodeId.unsetCount v.root.slots = 0 :=
    NodeId.unsetCount_eq_zero fun i hi => hset (h.1 i hi)
  have hkeys : NodeId.unsetCount v.source.macroCalls.keys = 0 := by
    apply NodeId.unsetCount_eq_zero
    intro i hi
    obtain ⟨e, he, rfl⟩ := List.mem_map.1 hi
    exact hset (h.2 e he).1
  have hids : ∀ i ∈ v.idSlots, i.isSet → i ∈ idsUpTo high.toNat := by
    intro i hi hiset
    rcases List.mem_append.1 hi with hi | hi
    · exact mem_idsUpTo (h.1 i hi).1 (h.1 i hi).2
    · obtain ⟨e, he, hi⟩ := List.mem_flatMap.1 hi
      rcases List.mem_cons.1 hi with rfl | hi
      · exact mem_idsUpTo (h.2 e he).1.1 (h.2 e he).1.2
      · obtain ⟨hpos, hle⟩ := (h.2 e he).2 i hi hiset
        exact mem_idsUpTo hpos hle
  obtain ⟨root, g, calls, t, hroot, hcalls, -⟩ :=
    exists_renumber_rederive (s := .ofSeed .unset) hbudget hids (by omega)
  exact ⟨_, _, renumber_eq_ok_iff.2 ⟨root, g, calls, t, hroot, hcalls, rfl⟩⟩

/-- Renumbering keeps the tree up to ids and lists its ids as one, two, three and so on. So trees with
distinct ids that are equal up to ids become equal, and a second renumbering keeps the tree. Positions
follow the ids of the tree, the others are dropped, and the rest of the metadata is kept. -/
theorem renumber_canonical (hdistinct : w.root.DistinctIds) (h : renumber budget w = .ok v) :
    v.root.eraseIds = w.root.eraseIds ∧
    v.root.slots.map NodeId.toNat = List.range' 1 w.root.slots.length ∧
    (∀ budget' w' v', w'.root.eraseIds = w.root.eraseIds → w'.root.DistinctIds →
      renumber budget' w' = .ok v' → v'.root = v.root) ∧
    (∀ budget' v', renumber budget' v = .ok v' → v'.root = v.root) ∧
    (∃ least, ∀ budget', least ≤ budget' → ∃ v', renumber budget' v = .ok v') ∧
    (∀ new offset, (new, offset) ∈ v.source.positions.entries ↔
      ∃ old, old.isSet ∧ (old, new) ∈ w.root.slots.zip v.root.slots ∧
        (old, offset) ∈ w.source.positions.entries) ∧
    v.source.description = w.source.description ∧ v.source.lineOffsets = w.source.lineOffsets ∧
    v.source.extensions = w.source.extensions := by
  obtain ⟨g, hnumbered, hsource⟩ := numbered_of_renumber hdistinct h
  refine ⟨hnumbered.shape, hnumbered.ids, ?_, ?_, ?_, ?_, ?_⟩
  · intro budget' w' v' hshape hdistinct' h'
    obtain ⟨g', hnumbered', -⟩ := numbered_of_renumber hdistinct' h'
    exact hnumbered.root_eq hnumbered' hshape
  · intro budget' v' h'
    obtain ⟨g', hnumbered', -⟩ := numbered_of_renumber hnumbered.distinct h'
    exact hnumbered.root_eq hnumbered' hnumbered.shape
  · obtain ⟨t, hrelocated⟩ := relocated_of_renumber h
    obtain ⟨least, v', hv'⟩ := exists_renumber hrelocated.idsBetween
    exact ⟨least, fun budget' hle => ⟨v', (hasPrice_renumber v).budgetOnly.same hle hv'⟩⟩
  · intro new offset
    rw [hsource, mem_movedPositions hnumbered.injective]
    simp only [hnumbered.exchanged, and_assoc]
  · rw [hsource]
    exact ⟨rfl, rfl, rfl⟩

/-- The entry of a map, its key without an id and its value are numbered after the map. A position
that belongs to none of them is dropped. -/
theorem renumber_canonical_map :
    let w : Workspace :=
      ⟨⟨⟨9⟩, .map ⟨[⟨⟨7⟩, ⟨.unset, .ident ⟨"k"⟩⟩, ⟨⟨3⟩, .ident ⟨"x"⟩⟩, false⟩]⟩⟩,
        { SourceInfo.empty with positions := .ofList [(⟨7⟩, 4), (⟨3⟩, 8), (⟨20⟩, 1)] }⟩
    ∃ v, renumber 3 w = .ok v ∧ v.root.slots = [⟨1⟩, ⟨2⟩, ⟨3⟩, ⟨4⟩] ∧
      (∀ budget v', renumber budget v = .ok v' → v'.root = v.root) ∧
      (⟨2⟩, 4) ∈ v.source.positions.entries ∧ ∀ new, (new, 1) ∉ v.source.positions.entries := by
  intro w
  have hsome : (renumber 3 w).toOption.isSome := by decide +kernel
  obtain ⟨v, hv⟩ := Option.isSome_iff_exists.1 hsome
  rw [except_toOption_eq_some] at hv
  have hdistinct : w.root.DistinctIds := by decide +kernel
  obtain ⟨-, hids, -, hagain, -, hpositions, -⟩ := renumber_canonical hdistinct hv
  have hslots : v.root.slots = [⟨1⟩, ⟨2⟩, ⟨3⟩, ⟨4⟩] := by
    apply List.map_injective_iff.2 (fun _ _ => NodeId.toNat_inj.1)
    rw [hids]
    decide +kernel
  refine ⟨v, hv, hslots, hagain, (hpositions _ _).2 ⟨⟨7⟩, rfl, ?_, by decide +kernel⟩, ?_⟩
  · rw [hslots]
    decide +kernel
  · intro new hnew
    obtain ⟨old, -, hzip, hentry⟩ := (hpositions _ _).1 hnew
    have houtside : ∀ e ∈ w.source.positions.entries, e.2 = 1 → e.1 ∉ w.root.slots := by
      decide +kernel
    exact houtside (old, 1) hentry rfl (List.of_mem_zip hzip).1

end Workspace

end CelEdit
