import CelEdit.Proofs.Replacements

/-!
# Reserves of ids

A supply mints an id for each set id that it has not exchanged before and for each unset one. Counted
from the last id minted, the set ids still to come give the reach of the supply, which no exchange of
one of them raises and which only unset ids push further. As long as the reach stays below the end of
the word, a walk that its budget covers always ends, and it ends within the reach.
-/

namespace CelEdit

/-- How many of the ids are unset. -/
def NodeId.unsetCount (ids : List NodeId) : Nat := ids.countP (fun i => !i.isSet)

lemma NodeId.unsetCount_eq_zero {ids : List NodeId} (h : ∀ i ∈ ids, i.isSet) :
    unsetCount ids = 0 := by
  rw [unsetCount, List.countP_eq_zero]
  intro i hi
  simp [h i hi]

@[simp] lemma NodeId.unsetCount_append (ids ids' : List NodeId) :
    unsetCount (ids ++ ids') = unsetCount ids + unsetCount ids' := List.countP_append

namespace IdSupply

open Runs NodeId

/-- The last id that is minted if all of the given ids are exchanged. -/
def reach (ids : List NodeId) (s : IdSupply) : Nat :=
  s.maxId.toNat + ids.countP (fun i => (s.exchanged? i).isNone)

variable {ids : List NodeId} {s : IdSupply} {i : NodeId}

lemma maxId_le_reach (ids : List NodeId) (s : IdSupply) : s.maxId.toNat ≤ s.reach ids :=
  Nat.le_add_right ..

lemma reach_ofSeed (ids : List NodeId) (seed : NodeId) :
    (ofSeed seed).reach ids = seed.toNat + ids.length := by
  have hall : ids.countP (fun i => ((ofSeed seed).exchanged? i).isNone) = ids.length :=
    List.countP_eq_length.2 fun _ _ => rfl
  rw [reach, hall]
  rfl

lemma isNone_of_insert {c : IdCounter} {old new : NodeId}
    (h : ((IdSupply.mk c (s.exchanged.insert old new)).exchanged? i).isNone) :
    i ≠ old ∧ (s.exchanged? i).isNone := by
  rw [exchanged?_insert] at h
  by_cases hold : i = old
  · rw [if_pos hold] at h
    cases h
  · rw [if_neg hold] at h
    exact ⟨hold, h⟩

/-- Remembering an exchange leaves fewer ids to come. -/
lemma reach_insert (ids : List NodeId) (s : IdSupply) (old new : NodeId) :
    reach ids ⟨s.counter, s.exchanged.insert old new⟩ ≤ s.reach ids := by
  have hfewer : ids.countP
      (fun i => ((IdSupply.mk s.counter (s.exchanged.insert old new)).exchanged? i).isNone) ≤
      ids.countP (fun i => (s.exchanged? i).isNone) :=
    List.countP_mono_left fun i _ h => (isNone_of_insert h).2
  exact Nat.add_le_add_left hfewer _

/-- An id that is exchanged for the first time is no longer to come. -/
lemma countP_insert_lt (hi : i ∈ ids) (hnew : s.exchanged? i = none) (c : IdCounter) (j : NodeId) :
    ids.countP (fun k => ((IdSupply.mk c (s.exchanged.insert i j)).exchanged? k).isNone) <
      ids.countP (fun k => (s.exchanged? k).isNone) := by
  obtain ⟨before, after, rfl⟩ := List.append_of_mem hi
  have hbefore (is : List NodeId) :
      is.countP (fun k => ((IdSupply.mk c (s.exchanged.insert i j)).exchanged? k).isNone) ≤
        is.countP (fun k => (s.exchanged? k).isNone) :=
    List.countP_mono_left fun k _ h => (isNone_of_insert h).2
  have hknown : ((IdSupply.mk c (s.exchanged.insert i j)).exchanged? i).isNone = false := by
    rw [exchanged?_insert, if_pos rfl, Option.isNone_some]
  have h₁ := hbefore before
  have h₂ := hbefore after
  rw [List.countP_append, List.countP_append, List.countP_cons, List.countP_cons, hknown, hnew]
  simp only [Bool.false_eq_true, if_false, Option.isNone_none, if_true]
  omega

lemma exists_next (h : i.toNat + 1 < UInt64.size) : ∃ j, i.next? = some j := by
  rw [NodeId.next?, if_pos h]
  exact ⟨_, rfl⟩

/-- Exchanging a set id stays within the reach. -/
lemma exists_exchange_set (hset : i.isSet) (hi : i ∈ ids) (hroom : s.reach ids < UInt64.size) :
    ∃ j t, Ends (exchange i) s j t ∧ t.reach ids ≤ s.reach ids := by
  cases hknown : s.exchanged? i with
  | some j => exact ⟨j, s, (ends_exchange_set hset).2 (.inl ⟨hknown, rfl⟩), Nat.le_refl _⟩
  | none =>
    have hfewer := countP_insert_lt hi hknown
    have hpositive := hfewer s.counter i
    obtain ⟨j, hj⟩ : ∃ j, s.maxId.next? = some j := by
      apply exists_next
      rw [reach] at hroom
      omega
    refine ⟨j, _, (ends_exchange_set hset).2 (.inr ⟨hknown, hj, rfl⟩), ?_⟩
    have hj' := toNat_next hj
    have hless := hfewer ⟨j⟩ j
    change j.toNat + _ ≤ s.maxId.toNat + _
    omega

/-- Exchanging an unset id pushes the reach by one. -/
lemma exists_exchange_unset (hroom : s.reach ids + 1 < UInt64.size) :
    ∃ j t, Ends (exchange .unset) s j t ∧ t.reach ids ≤ s.reach ids + 1 := by
  have hle := maxId_le_reach ids s
  obtain ⟨j, hj⟩ : ∃ j, s.maxId.next? = some j := exists_next (by omega)
  refine ⟨j, _, ends_mint.2 ⟨hj, rfl⟩, ?_⟩
  have hj' := toNat_next hj
  change j.toNat + ids.countP (fun i => (s.exchanged? i).isNone) ≤ s.maxId.toNat + _ + 1
  omega

theorem exists_exchange (hi : i.isSet → i ∈ ids)
    (hroom : s.reach ids + (if !i.isSet then 1 else 0) < UInt64.size) :
    ∃ j t, Ends (exchange i) s j t ∧ t.reach ids ≤ s.reach ids + (if !i.isSet then 1 else 0) := by
  by_cases hset : i.isSet
  · simp only [hset, Bool.not_true, Bool.false_eq_true, if_false, Nat.add_zero] at hroom ⊢
    exact exists_exchange_set hset (hi hset) hroom
  · simp only [hset, Bool.not_false, if_true] at hroom ⊢
    rw [isSet_iff, not_not] at hset
    rw [hset]
    exact exists_exchange_unset hroom

/-- A loop whose every step can be taken below a limit, and pushes a measure by at most one where a
test holds, reaches its end. -/
lemma exists_thread {σ α β : Type} {R : α → σ → β → σ → Prop} {measure : σ → Nat} {p : α → Bool}
    {limit : Nat} {as : List α} {s : σ}
    (hstep : ∀ a ∈ as, ∀ s, measure s + (if p a then 1 else 0) < limit →
      ∃ b t, R a s b t ∧ measure t ≤ measure s + (if p a then 1 else 0))
    (hlimit : measure s + as.countP p < limit) :
    ∃ bs t, Thread R as s bs t ∧ measure t ≤ measure s + as.countP p := by
  induction as generalizing s with
  | nil => exact ⟨[], s, .nil s, Nat.le_refl _⟩
  | cons a as ih =>
    rw [List.countP_cons] at hlimit ⊢
    obtain ⟨b, t, hhead, hle⟩ := hstep a List.mem_cons_self s (by omega)
    have hrest : measure t + as.countP p < limit := by omega
    obtain ⟨bs, u, htail, hle'⟩ := ih (fun a ha => hstep a (List.mem_cons_of_mem _ ha)) hrest
    exact ⟨b :: bs, u, .cons hhead htail, by omega⟩

lemma exists_thread_exchange {is : List NodeId} (his : ∀ i ∈ is, i.isSet → i ∈ ids)
    (hroom : s.reach ids + unsetCount is < UInt64.size) :
    ∃ js t, Thread (fun i => Ends (exchange i)) is s js t ∧
      t.reach ids ≤ s.reach ids + unsetCount is :=
  exists_thread (fun i hi _ => exists_exchange (his i hi)) hroom

lemma exists_onSet (hi : i.isSet → i ∈ ids) (hroom : s.reach ids < UInt64.size) :
    ∃ j t, Ends (Renaming.onSet exchange i) s j t ∧ t.reach ids ≤ s.reach ids := by
  unfold Renaming.onSet
  by_cases hset : i.isSet
  · rw [if_pos hset]
    exact exists_exchange_set hset (hi hset) hroom
  · rw [if_neg hset]
    exact ⟨i, s, (ends_pure ..).2 ⟨rfl, rfl⟩, Nat.le_refl _⟩

lemma exists_thread_onSet {is : List NodeId} (his : ∀ i ∈ is, i.isSet → i ∈ ids)
    (hroom : s.reach ids < UInt64.size) :
    ∃ js t, Thread (fun i => Ends (Renaming.onSet exchange i)) is s js t ∧
      t.reach ids ≤ s.reach ids := by
  have hthread := exists_thread (p := fun _ => false) (s := s)
    (fun i hi s hs => by simpa using exists_onSet (his i hi) (by simpa using hs))
  simpa using hthread (by simpa using hroom)

end IdSupply

open Runs NodeId

/-! ### Walks -/

lemma Expr.exists_renumber {rename : Renaming} {e : Expr} {js : List NodeId} {budget : Nat}
    {s t : IdSupply} (h : Thread (fun i => Ends (rename i)) e.slots s js t)
    (hbudget : e.nodeCount ≤ budget) :
    ∃ e', Ends ((e.renumber rename).run' budget) s e' t := by
  obtain ⟨e', hshape, hslots⟩ := e.exists_slots_eq h.length_eq
  exact ⟨e', ends_renumber_run'.2 ⟨hshape, hbudget, hslots ▸ h⟩⟩

namespace MacroCalls

/-- The ids of a table of macro calls: its keys and the ids of its shadows. -/
def idSlots (calls : IdMap Expr) : List NodeId := calls.entries.flatMap (fun e => e.1 :: e.2.slots)

variable {ids : List NodeId} {replaced : Option NodeId} {root : Expr} {budget : Nat} {s : IdSupply}

lemma exists_rederiveEntry {entry : NodeId × Expr} (hkey : entry.1.isSet → entry.1 ∈ ids)
    (hshadow : ∀ i ∈ entry.2.slots, i.isSet → i ∈ ids) (hbudget : entry.2.nodeCount ≤ budget)
    (hroom : s.reach ids + (if !entry.1.isSet then 1 else 0) < UInt64.size) (t : IdMap Expr) :
    ∃ t' s', Ends (rederiveEntry replaced root.nodesById IdSupply.exchange budget t entry) s t' s' ∧
      s'.reach ids ≤ s.reach ids + (if !entry.1.isSet then 1 else 0) := by
  obtain ⟨key, s₁, hexchange, hle⟩ := IdSupply.exists_exchange hkey hroom
  cases hnode : root.nodesById.get? key with
  | none =>
    exact ⟨t, s₁, ends_rederiveEntry.2 ⟨key, s₁, hexchange, .inl ⟨hnode, rfl, rfl⟩⟩, hle⟩
  | some expanded =>
    have hroom' : s₁.reach ids < UInt64.size := Nat.lt_of_le_of_lt hle hroom
    obtain ⟨js, s₂, hthread, hle'⟩ := IdSupply.exists_thread_onSet hshadow hroom'
    obtain ⟨shadow, hrun⟩ := Expr.exists_renumber hthread hbudget
    refine ⟨t.insert key (derive replaced root expanded shadow), s₂, ends_rederiveEntry.2 ?_,
      Nat.le_trans hle' hle⟩
    exact ⟨key, s₁, hexchange, .inr ⟨expanded, shadow, hnode, hrun, rfl⟩⟩

lemma exists_foldlM_rederiveEntry {es : List (NodeId × Expr)}
    (hids : ∀ i ∈ es.flatMap (fun e => e.1 :: e.2.slots), i.isSet → i ∈ ids)
    (hbudget : ∀ e ∈ es, e.2.nodeCount ≤ budget)
    (hroom : s.reach ids + unsetCount (es.map Prod.fst) < UInt64.size) (t : IdMap Expr) :
    ∃ t' s', Ends (es.foldlM (rederiveEntry replaced root.nodesById IdSupply.exchange budget) t) s
      t' s' ∧ s'.reach ids ≤ s.reach ids + unsetCount (es.map Prod.fst) := by
  induction es generalizing s t with
  | nil => exact ⟨t, s, (ends_foldlM_nil ..).2 ⟨rfl, rfl⟩, Nat.le_refl _⟩
  | cons entry es ih =>
    rw [List.forall_mem_cons] at hbudget
    rw [unsetCount, List.map_cons, List.countP_cons] at hroom ⊢
    rw [List.flatMap_cons] at hids
    have hhead : ∀ i ∈ entry.1 :: entry.2.slots, i.isSet → i ∈ ids :=
      fun i hi => hids i (List.mem_append_left _ hi)
    have hfirst : s.reach ids + (if !entry.1.isSet then 1 else 0) < UInt64.size := by omega
    obtain ⟨t₁, s₁, hentry, hle⟩ := exists_rederiveEntry (hhead _ List.mem_cons_self)
      (fun i hi => hhead i (List.mem_cons_of_mem _ hi)) hbudget.1 hfirst t
    have hrest : s₁.reach ids + unsetCount (es.map Prod.fst) < UInt64.size := by
      rw [unsetCount]
      omega
    obtain ⟨t₂, s₂, hes, hle'⟩ :=
      ih (fun i hi => hids i (List.mem_append_right _ hi)) hbudget.2 hrest t₁
    rw [unsetCount] at hle'
    exact ⟨t₂, s₂, (ends_foldlM_cons ..).2 ⟨t₁, s₁, hentry, hes⟩, by omega⟩

/-- Only unset keys push the reach when macro calls are derived again. -/
theorem exists_rederive {calls : IdMap Expr} (hids : ∀ i ∈ idSlots calls, i.isSet → i ∈ ids)
    (hbudget : ∀ e ∈ calls.entries, e.2.nodeCount ≤ budget)
    (hroom : s.reach ids + unsetCount calls.keys < UInt64.size) (replaced : Option NodeId)
    (root : Expr) : ∃ t s', Ends (rederive calls replaced root IdSupply.exchange budget) s t s' ∧
      s'.reach ids ≤ s.reach ids + unsetCount calls.keys :=
  exists_foldlM_rederiveEntry hids hbudget hroom .empty

lemma keys_sublist_idSlots (calls : IdMap Expr) : calls.keys.Sublist (idSlots calls) := by
  rw [IdMap.keys, idSlots]
  induction calls.entries with
  | nil => exact .slnil
  | cons e es ih =>
    rw [List.map_cons, List.flatMap_cons, List.cons_append]
    exact (ih.trans (List.sublist_append_right _ _)).cons_cons _

end MacroCalls

namespace Workspace

variable {ids : List NodeId} {budget : Nat} {seed target : NodeId} {w host donor : Workspace}

/-- The ids of the tree and of the macro calls. -/
def idSlots (w : Workspace) : List NodeId := w.root.slots ++ MacroCalls.idSlots w.source.macroCalls

/-- A budget that is enough for the tree and for each shadow. -/
def Within (budget : Nat) (w : Workspace) : Prop :=
  w.root.nodeCount ≤ budget ∧ ∀ e ∈ w.source.macroCalls.entries, e.2.nodeCount ≤ budget

lemma length_filter_isSet (ids : List NodeId) :
    (ids.filter isSet).length + unsetCount ids = ids.length := by
  rw [← List.countP_eq_length_filter, unsetCount]
  have hsplit := List.length_eq_countP_add_countP isSet (l := ids)
  simpa only [Bool.not_eq_true, Bool.decide_eq_false] using hsplit.symm

/-- The tree and the macro calls get new ids within the reach, pushed by the unset ids of the tree and
by the unset keys. -/
lemma exists_renumber_rederive {s : IdSupply} (hbudget : w.Within budget)
    (hids : ∀ i ∈ w.idSlots, i.isSet → i ∈ ids)
    (hroom : s.reach ids + unsetCount w.root.slots + unsetCount w.source.macroCalls.keys <
      UInt64.size) :
    ∃ root g calls t, Ends ((w.root.renumber IdSupply.exchange).run' budget) s root g ∧
      Ends (MacroCalls.rederive w.source.macroCalls none root IdSupply.exchange budget) g calls t ∧
      t.reach ids ≤ s.reach ids + unsetCount w.root.slots + unsetCount w.source.macroCalls.keys := by
  have hroom₀ : s.reach ids + unsetCount w.root.slots < UInt64.size := by omega
  obtain ⟨js, g, hthread, hle⟩ :=
    IdSupply.exists_thread_exchange (fun i hi => hids i (List.mem_append_left _ hi)) hroom₀
  obtain ⟨root, hroot⟩ := Expr.exists_renumber hthread hbudget.1
  have hroom₁ : g.reach ids + unsetCount w.source.macroCalls.keys < UInt64.size := by omega
  obtain ⟨calls, t, hcalls, hle'⟩ := MacroCalls.exists_rederive
    (fun i hi => hids i (List.mem_append_right _ hi)) hbudget.2 hroom₁ none root
  exact ⟨root, g, calls, t, hroot, hcalls, by omega⟩

/-- A workspace moves within as many ids as it has. -/
theorem exists_relocate (hbudget : w.Within budget)
    (hroom : seed.toNat + w.idSlots.length < UInt64.size) :
    ∃ v t, Ends (relocate budget w) (.ofSeed seed) v t ∧
      t.maxId.toNat ≤ seed.toNat + w.idSlots.length := by
  have hids : ∀ i ∈ w.idSlots, i.isSet → i ∈ w.idSlots.filter isSet :=
    fun i hi hset => List.mem_filter.2 ⟨hi, hset⟩
  have hreach := IdSupply.reach_ofSeed (w.idSlots.filter isSet) seed
  have hcount : unsetCount w.root.slots + unsetCount w.source.macroCalls.keys ≤
      unsetCount w.idSlots := by
    rw [idSlots, unsetCount, unsetCount, unsetCount, List.countP_append]
    exact Nat.add_le_add_left (MacroCalls.keys_sublist_idSlots _).countP_le _
  have hlength := length_filter_isSet w.idSlots
  obtain ⟨root, g, calls, t, hroot, hcalls, hle⟩ :=
    exists_renumber_rederive (s := .ofSeed seed) hbudget hids (by omega)
  have hmax := IdSupply.maxId_le_reach (w.idSlots.filter isSet) t
  refine ⟨⟨root, { SourceInfo.empty with macroCalls := calls, extensions := w.source.extensions }⟩,
    t, ?_, by omega⟩
  simp only [relocate, ends_bind, ends_pure]
  exact ⟨root, g, hroot, calls, t, hcalls, rfl, rfl⟩

section Graft

variable {p : Position} {s : IdSupply}

lemma exists_graftRun (htarget : target.isSet) (d : Expr) (before after : List NodeId)
    (hids : ∀ i ∈ before ++ d.slots ++ after, i.isSet → i ∈ ids)
    (hmem : target ∈ ids) (hroom : s.reach ids + unsetCount (before ++ d.slots ++ after) < UInt64.size) :
    ∃ js t, GraftRun target d before after s js t ∧
      js.length = (before ++ d.slots ++ after).length ∧
      t.reach ids ≤ s.reach ids + unsetCount (before ++ d.slots ++ after) := by
  rw [unsetCount_append, unsetCount_append] at hroom ⊢
  rw [List.forall_mem_append, List.forall_mem_append] at hids
  obtain ⟨⟨hids₁, hids₂⟩, hids₃⟩ := hids
  have hroom₁ : s.reach ids + unsetCount before < UInt64.size := by omega
  obtain ⟨js₁, s₁, hbefore, hle₁⟩ := IdSupply.exists_thread_exchange hids₁ hroom₁
  obtain ⟨placed, s₂, hplaced, hle₂⟩ :=
    IdSupply.exists_exchange_set htarget hmem (Nat.lt_of_le_of_lt hle₁ hroom₁)
  have hpin := IdSupply.reach_insert ids s₂ d.id placed
  have hroom₂ : IdSupply.reach ids ⟨s₂.counter, s₂.exchanged.insert d.id placed⟩ +
      unsetCount d.slots < UInt64.size := by omega
  obtain ⟨js₂, s₃, hdonor, hle₃⟩ := IdSupply.exists_thread_exchange hids₂ hroom₂
  have hroom₃ : s₃.reach ids + unsetCount after < UInt64.size := by omega
  obtain ⟨js₃, t, hafter, hle₄⟩ := IdSupply.exists_thread_exchange hids₃ hroom₃
  refine ⟨_, t, ⟨js₁, js₂, js₃, s₁, s₂, s₃, placed, rfl, hbefore, hplaced, hdonor, hafter⟩, ?_, ?_⟩
  · simp [hbefore.length_eq, hdonor.length_eq, hafter.length_eq]
  · omega

/-- A donor is put in within the set ids of the tree that is built and of all macro calls, and one
id for each unset id of the tree and each unset key. -/
theorem exists_transplantDonor (htarget : target.isSet) (hfound : host.root.firstAt? target = some p)
    (hmem : target ∈ ids) (htree : ∀ i ∈ (Expr.setAt donor.root p host.root).slots, i.isSet → i ∈ ids)
    {calls : IdMap Expr}
    (hcalls : calls = (host.source.macroCalls.erase target).union donor.source.macroCalls)
    (hids : ∀ i ∈ MacroCalls.idSlots calls, i.isSet → i ∈ ids)
    (hbudget : (Expr.setAt donor.root p host.root).nodeCount + 1 ≤ budget)
    (hshadows : ∀ e ∈ calls.entries, e.2.nodeCount ≤ budget)
    (hroom : s.reach ids + unsetCount (Expr.setAt donor.root p host.root).slots +
      unsetCount calls.keys < UInt64.size) :
    ∃ w t, Ends (transplantDonor budget host donor target) s w t ∧
      t.reach ids ≤ s.reach ids + unsetCount (Expr.setAt donor.root p host.root).slots +
        unsetCount calls.keys := by
  subst hcalls
  obtain ⟨x, hx, -⟩ := Expr.exists_of_firstAt? hfound
  have hslots := Expr.slots_setAt hx donor.root
  rw [hslots] at htree
  have hroom₀ : s.reach ids + unsetCount (Expr.slotsBefore p host.root ++ donor.root.slots ++
      Expr.slotsAfter p host.root) < UInt64.size := by
    rw [← hslots]
    omega
  obtain ⟨js, s₁, hgraft, hlength, hle₁⟩ :=
    exists_graftRun htarget donor.root _ _ htree hmem hroom₀
  rw [← hslots] at hlength hle₁
  obtain ⟨root, hshape, rfl⟩ := Expr.exists_slots_eq _ hlength
  have hroom₁ : s₁.reach ids < UInt64.size := by omega
  obtain ⟨replaced, s₂, hreplaced, hle₂⟩ := IdSupply.exists_exchange_set htarget hmem hroom₁
  have hroom₂ : s₂.reach ids + unsetCount
      ((host.source.macroCalls.erase target).union donor.source.macroCalls).keys < UInt64.size := by
    omega
  obtain ⟨calls, t, hcalls, hle₃⟩ :=
    MacroCalls.exists_rederive hids hshadows hroom₂ (some replaced) root
  obtain ⟨rest, hrest⟩ := Nat.exists_eq_add_of_le' hbudget
  have hwalk := (ends_transplant_found hfound).2 ⟨rfl, hshape, hrest, hgraft⟩
  exact ⟨_, t, ends_transplantDonor.2 ⟨root, rest, s₁, replaced, s₂, calls, hwalk, hreplaced, hcalls,
    rfl⟩, by omega⟩

end Graft

end Workspace

end CelEdit
