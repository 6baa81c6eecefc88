import CelEdit.Proofs.Tables

/-!
# Supplies of ids

What a supply hands out along a run. Every id that it mints is above all ids before it, and what it
remembers it keeps. So an id that is set names its exchange from then on, and an id that was handed
out for an unset one is never the exchange of anything.
-/

namespace CelEdit.IdSupply

open Runs

variable {s t u : IdSupply} {i j : NodeId} {seed : NodeId}

lemma next_eq_ok {c c' : IdCounter} :
    c.next = .ok (j, c') ↔ c.max.next? = some j ∧ c' = ⟨j⟩ := by
  rw [IdCounter.next]
  cases c.max.next? with
  | none => simp
  | some id =>
    simp only [Except.ok.injEq, Prod.mk.injEq, Option.some.injEq]
    constructor
    · rintro ⟨rfl, rfl⟩
      exact ⟨rfl, rfl⟩
    · rintro ⟨rfl, rfl⟩
      exact ⟨rfl, rfl⟩

lemma ends_mint : Ends mint s j t ↔ s.maxId.next? = some j ∧ t = ⟨⟨j⟩, s.exchanged⟩ := by
  simp only [mint, ends_bind, ends_get, ends_liftExcept, ends_set, ends_pure]
  constructor
  · rintro ⟨_, _, ⟨rfl, rfl⟩, ⟨id, c⟩, _, ⟨hnext, rfl⟩, _, _, rfl, rfl, rfl⟩
    obtain ⟨hid, rfl⟩ := next_eq_ok.1 hnext
    exact ⟨hid, rfl⟩
  · rintro ⟨hid, rfl⟩
    exact ⟨s, s, ⟨rfl, rfl⟩, (j, ⟨j⟩), s, ⟨next_eq_ok.2 ⟨hid, rfl⟩, rfl⟩, ⟨⟩, _, rfl, rfl, rfl⟩

lemma ends_remember {old new : NodeId} {a : Unit} :
    Ends (remember old new) s a t ↔ t = ⟨s.counter, s.exchanged.insert old new⟩ := by
  change Except.ok ((), _) = Except.ok (a, t) ↔ _
  rw [Except.ok.injEq, Prod.mk.injEq]
  exact ⟨fun h => h.2.symm, fun h => ⟨rfl, h.symm⟩⟩

lemma ends_exchange_set (hset : i.isSet) :
    Ends (exchange i) s j t ↔ s.exchanged? i = some j ∧ t = s ∨
      s.exchanged? i = none ∧ s.maxId.next? = some j ∧ t = ⟨⟨j⟩, s.exchanged.insert i j⟩ := by
  simp only [exchange, hset, if_true, ends_bind, ends_get]
  constructor
  · rintro ⟨_, s', ⟨rfl, hs'⟩, h⟩
    subst hs'
    cases hknown : s'.exchanged? i with
    | some known =>
      rw [hknown] at h
      obtain ⟨rfl, rfl⟩ := (ends_pure ..).1 h
      exact .inl ⟨rfl, rfl⟩
    | none =>
      rw [hknown] at h
      simp only [ends_bind, ends_mint, ends_remember, ends_pure] at h
      obtain ⟨_, _, ⟨hnext, rfl⟩, _, _, rfl, rfl, rfl⟩ := h
      exact .inr ⟨rfl, hnext, rfl⟩
  · rintro (⟨hknown, rfl⟩ | ⟨hnew, hnext, rfl⟩)
    · refine ⟨t, t, ⟨rfl, rfl⟩, ?_⟩
      rw [hknown]
      exact (ends_pure ..).2 ⟨rfl, rfl⟩
    · refine ⟨s, s, ⟨rfl, rfl⟩, ?_⟩
      rw [hnew]
      simp only [ends_bind, ends_mint, ends_remember, ends_pure]
      exact ⟨j, _, ⟨hnext, rfl⟩, ⟨⟩, _, rfl, rfl, rfl⟩

/-! ### What a step keeps -/

/-- Everything remembered lies above the seed and is not larger than the last id minted. -/
structure Sound (seed : NodeId) (s : IdSupply) : Prop where
  seed_le : seed.toNat ≤ s.maxId.toNat
  bounds : ∀ {i v}, s.exchanged? i = some v → seed.toNat < v.toNat ∧ v.toNat ≤ s.maxId.toNat

/-- A later state of the same supply: what was remembered stays, and new exchanges are new ids or
ids that were exchanges before. -/
structure Extends (s t : IdSupply) : Prop where
  max_le : s.maxId.toNat ≤ t.maxId.toNat
  keeps : ∀ {i v}, s.exchanged? i = some v → t.exchanged? i = some v
  fresh : ∀ {i v}, t.exchanged? i = some v →
    (∃ k, s.exchanged? k = some v) ∨ s.maxId.toNat < v.toNat

/-- No two of the ids in `K` have the same exchange. -/
def InjectiveOn (K : NodeId → Prop) (s : IdSupply) : Prop :=
  ∀ i j v, K i → K j → s.exchanged? i = some v → s.exchanged? j = some v → i = j

/-- An id that is set has been exchanged for `j`; for an unset one `j` is the exchange of no id. -/
def Gave (s : IdSupply) (i j : NodeId) : Prop :=
  (i.isSet → s.exchanged? i = some j) ∧ (i = .unset → ∀ k, s.exchanged? k ≠ some j)

lemma sound_ofSeed (seed : NodeId) : Sound seed (ofSeed seed) :=
  ⟨Nat.le_refl _, fun h => by cases h⟩

lemma injectiveOn_ofSeed (K : NodeId → Prop) (seed : NodeId) : InjectiveOn K (ofSeed seed) := by
  intro i j v _ _ h
  cases h

lemma Extends.refl (s : IdSupply) : Extends s s :=
  ⟨Nat.le_refl _, fun h => h, fun h => .inl ⟨_, h⟩⟩

lemma Extends.trans (hst : Extends s t) (htu : Extends t u) : Extends s u := by
  refine ⟨Nat.le_trans hst.max_le htu.max_le, fun h => htu.keeps (hst.keeps h), fun h => ?_⟩
  rcases htu.fresh h with ⟨k, hk⟩ | hlt
  · exact hst.fresh hk
  · exact .inr (Nat.lt_of_le_of_lt hst.max_le hlt)

lemma Gave.mono (h : Gave s i j) (hj : j.toNat ≤ s.maxId.toNat) (hst : Extends s t) :
    Gave t i j := by
  refine ⟨fun hset => hst.keeps (h.1 hset), fun hunset k hk => ?_⟩
  rcases hst.fresh hk with ⟨k', hk'⟩ | hlt
  · exact h.2 hunset k' hk'
  · omega

lemma exchanged?_insert (c : IdCounter) (m : IdMap NodeId) (v k : NodeId) :
    (IdSupply.mk c (m.insert i v)).exchanged? k = if k = i then some v else m.get? k :=
  IdMap.get?_insert ..

/-- The three ways of an exchange: known, new for a set id, or minted for an unset one. -/
lemma exchange_cases (h : Ends (exchange i) s j t) :
    i.isSet ∧ s.exchanged? i = some j ∧ t = s ∨
    (i.isSet ∧ s.exchanged? i = none ∧ t = ⟨⟨j⟩, s.exchanged.insert i j⟩ ∨
      i = .unset ∧ t = ⟨⟨j⟩, s.exchanged⟩) ∧ j.toNat = s.maxId.toNat + 1 := by
  by_cases hset : i.isSet
  · rcases (ends_exchange_set hset).1 h with ⟨hknown, rfl⟩ | ⟨hnew, hnext, rfl⟩
    · exact .inl ⟨hset, hknown, rfl⟩
    · exact .inr ⟨.inl ⟨hset, hnew, rfl⟩, NodeId.toNat_next hnext⟩
  · have hunset : i = .unset := by
      rw [NodeId.isSet_iff, not_not] at hset
      exact hset
    subst hunset
    obtain ⟨hnext, rfl⟩ := ends_mint.1 h
    exact .inr ⟨.inr ⟨rfl, rfl⟩, NodeId.toNat_next hnext⟩

lemma exchange_extends (h : Ends (exchange i) s j t) : Extends s t := by
  rcases exchange_cases h with ⟨-, -, rfl⟩ | ⟨⟨-, hnew, rfl⟩ | ⟨-, rfl⟩, hj⟩
  · exact Extends.refl t
  · refine ⟨by change _ ≤ j.toNat; omega, fun {k v} hk => ?_, fun {k v} hk => ?_⟩
    · rw [exchanged?_insert]
      by_cases hki : k = i
      · rw [hki, hnew] at hk
        cases hk
      · rw [if_neg hki]
        exact hk
    · rw [exchanged?_insert] at hk
      by_cases hki : k = i
      · rw [if_pos hki, Option.some.injEq] at hk
        rw [← hk]
        exact .inr (by omega)
      · rw [if_neg hki] at hk
        exact .inl ⟨k, hk⟩
  · exact ⟨by change _ ≤ j.toNat; omega, fun hk => hk, fun hk => .inl ⟨_, hk⟩⟩

lemma exchange_sound (h : Ends (exchange i) s j t) (hs : Sound seed s) : Sound seed t := by
  rcases exchange_cases h with ⟨-, -, rfl⟩ | ⟨⟨-, -, rfl⟩ | ⟨-, rfl⟩, hj⟩
  · exact hs
  · have hseed := hs.seed_le
    refine ⟨by change _ ≤ j.toNat; omega, fun {k v} hk => ?_⟩
    change _ ∧ _ ≤ j.toNat
    rw [exchanged?_insert] at hk
    by_cases hki : k = i
    · rw [if_pos hki, Option.some.injEq] at hk
      subst hk
      omega
    · rw [if_neg hki] at hk
      have hbounds := hs.bounds hk
      omega
  · have hseed := hs.seed_le
    refine ⟨by change _ ≤ j.toNat; omega, fun {k v} hk => ?_⟩
    change _ ∧ _ ≤ j.toNat
    have hbounds := hs.bounds hk
    omega

lemma exchange_bounds (h : Ends (exchange i) s j t) (hs : Sound seed s) :
    seed.toNat < j.toNat ∧ j.toNat ≤ t.maxId.toNat ∧ (i = .unset → s.maxId.toNat < j.toNat) := by
  have hseed := hs.seed_le
  rcases exchange_cases h with ⟨hset, hknown, rfl⟩ | ⟨⟨-, -, rfl⟩ | ⟨-, rfl⟩, hj⟩
  · have hbounds := hs.bounds hknown
    rw [NodeId.isSet_iff] at hset
    exact ⟨hbounds.1, hbounds.2, fun hunset => absurd hunset hset⟩
  · exact ⟨by omega, Nat.le_refl _, fun _ => by omega⟩
  · exact ⟨by omega, Nat.le_refl _, fun _ => by omega⟩

lemma exchange_gave (h : Ends (exchange i) s j t) (hs : Sound seed s) : Gave t i j := by
  rcases exchange_cases h with ⟨hset, hknown, rfl⟩ | ⟨⟨hset, -, rfl⟩ | ⟨rfl, rfl⟩, hj⟩
  · rw [NodeId.isSet_iff] at hset
    exact ⟨fun _ => hknown, fun hunset => absurd hunset hset⟩
  · rw [NodeId.isSet_iff] at hset
    refine ⟨fun _ => ?_, fun hunset => absurd hunset hset⟩
    rw [exchanged?_insert, if_pos rfl]
  · refine ⟨fun hset => ?_, fun _ k hk => ?_⟩
    · rw [NodeId.isSet_iff] at hset
      exact absurd rfl hset
    · have hbounds := hs.bounds hk
      omega

lemma exchange_injectiveOn {K : NodeId → Prop} (h : Ends (exchange i) s j t) (hs : Sound seed s)
    (hK : InjectiveOn K s) : InjectiveOn K t := by
  rcases exchange_cases h with ⟨-, -, rfl⟩ | ⟨⟨-, -, rfl⟩ | ⟨-, rfl⟩, hj⟩
  · exact hK
  · intro a b v ha hb hav hbv
    rw [exchanged?_insert] at hav hbv
    by_cases hai : a = i
    · by_cases hbi : b = i
      · rw [hai, hbi]
      · rw [if_pos hai, Option.some.injEq] at hav
        rw [if_neg hbi, ← hav] at hbv
        have hbounds := hs.bounds hbv
        omega
    · by_cases hbi : b = i
      · rw [if_pos hbi, Option.some.injEq] at hbv
        rw [if_neg hai, ← hbv] at hav
        have hbounds := hs.bounds hav
        omega
      · rw [if_neg hai] at hav
        rw [if_neg hbi] at hbv
        exact hK a b v ha hb hav hbv
  · exact hK

/-! ### What a run keeps -/

lemma exchange_exchanged {k v : NodeId} (h : Ends (exchange i) s j t) (hk : t.exchanged? k = some v) :
    s.exchanged? k = some v ∨ k = i := by
  rcases exchange_cases h with ⟨-, -, rfl⟩ | ⟨⟨-, -, rfl⟩ | ⟨-, rfl⟩, -⟩
  · exact .inl hk
  · rw [exchanged?_insert] at hk
    by_cases hki : k = i
    · exact .inr hki
    · rw [if_neg hki] at hk
      exact .inl hk
  · exact .inl hk

lemma thread_exchanged {k v : NodeId} {is js : List NodeId}
    (h : Thread (fun i => Ends (exchange i)) is s js t) (hk : t.exchanged? k = some v) :
    s.exchanged? k = some v ∨ k ∈ is := by
  induction h with
  | nil => exact .inl hk
  | cons head _ ih =>
    rcases ih hk with hk | hk
    · rcases exchange_exchanged head hk with hk | rfl
      · exact .inl hk
      · exact .inr List.mem_cons_self
    · exact .inr (List.mem_cons_of_mem _ hk)

/-- A run of a supply over a list of ids. Between two of them it may exchange other ids, and it may
pin a new id to the exchange of one known id; of these two at most one belongs to `K`. -/
inductive Exchanges (K : NodeId → Prop) : IdSupply → List NodeId → List NodeId → IdSupply → Prop
  | nil (s : IdSupply) : Exchanges K s [] [] s
  | cons {s t u : IdSupply} {i j : NodeId} {is js : List NodeId} (step : Ends (exchange i) s j t)
      (rest : Exchanges K t is js u) : Exchanges K s (i :: is) (j :: js) u
  | aside {s t u : IdSupply} {i j : NodeId} {is js : List NodeId} (step : Ends (exchange i) s j t)
      (rest : Exchanges K t is js u) : Exchanges K s is js u
  | pin {s u : IdSupply} {old known v : NodeId} {is js : List NodeId}
      (hknown : ∀ k, s.exchanged? k = some v ↔ k = known) (hold : s.exchanged? old = none)
      (hK : ¬ (K old ∧ K known))
      (rest : Exchanges K ⟨s.counter, s.exchanged.insert old v⟩ is js u) : Exchanges K s is js u

section Pin

variable {K : NodeId → Prop} {old known v : NodeId}

lemma pin_extends (hknown : s.exchanged? known = some v) (hold : s.exchanged? old = none) :
    Extends s ⟨s.counter, s.exchanged.insert old v⟩ := by
  refine ⟨Nat.le_refl _, fun {k w} hk => ?_, fun {k w} hk => ?_⟩
  · rw [exchanged?_insert]
    by_cases hkold : k = old
    · rw [hkold, hold] at hk
      cases hk
    · rw [if_neg hkold]
      exact hk
  · rw [exchanged?_insert] at hk
    by_cases hkold : k = old
    · rw [if_pos hkold] at hk
      exact .inl ⟨known, hknown.trans hk⟩
    · rw [if_neg hkold] at hk
      exact .inl ⟨k, hk⟩

lemma pin_sound (hknown : s.exchanged? known = some v) (hs : Sound seed s) :
    Sound seed ⟨s.counter, s.exchanged.insert old v⟩ := by
  refine ⟨hs.seed_le, fun {k w} hk => ?_⟩
  rw [exchanged?_insert] at hk
  by_cases hkold : k = old
  · rw [if_pos hkold, Option.some.injEq] at hk
    subst hk
    exact hs.bounds hknown
  · rw [if_neg hkold] at hk
    exact hs.bounds hk

lemma pin_injectiveOn (hknown : ∀ k, s.exchanged? k = some v ↔ k = known)
    (hpair : ¬ (K old ∧ K known)) (hK : InjectiveOn K s) :
    InjectiveOn K ⟨s.counter, s.exchanged.insert old v⟩ := by
  intro a b w ha hb haw hbw
  rw [exchanged?_insert] at haw hbw
  by_cases haold : a = old
  · by_cases hbold : b = old
    · rw [haold, hbold]
    · rw [if_pos haold, Option.some.injEq] at haw
      rw [if_neg hbold, ← haw] at hbw
      have hbknown := (hknown b).1 hbw
      exact absurd ⟨haold ▸ ha, hbknown ▸ hb⟩ hpair
  · by_cases hbold : b = old
    · rw [if_pos hbold, Option.some.injEq] at hbw
      rw [if_neg haold, ← hbw] at haw
      have haknown := (hknown a).1 haw
      exact absurd ⟨hbold ▸ hb, haknown ▸ ha⟩ hpair
    · rw [if_neg haold] at haw
      rw [if_neg hbold] at hbw
      exact hK a b w ha hb haw hbw

end Pin

namespace Exchanges

variable {K : NodeId → Prop} {is js is' js' : List NodeId}

lemma of_thread (h : Thread (fun i => Ends (exchange i)) is s js t) : Exchanges K s is js t := by
  induction h with
  | nil s => exact .nil s
  | cons head _ ih => exact .cons head ih

lemma append (h : Exchanges K s is js t) (h' : Exchanges K t is' js' u) :
    Exchanges K s (is ++ is') (js ++ js') u := by
  induction h with
  | nil => exact h'
  | cons step _ ih => exact .cons step (ih h')
  | aside step _ ih => exact .aside step (ih h')
  | pin hknown hold hK _ ih => exact .pin hknown hold hK (ih h')

lemma sound_extends (h : Exchanges K s is js t) (hs : Sound seed s) : Sound seed t ∧ Extends s t := by
  induction h with
  | nil s => exact ⟨hs, Extends.refl s⟩
  | cons step _ ih =>
    obtain ⟨hsound, hextends⟩ := ih (exchange_sound step hs)
    exact ⟨hsound, (exchange_extends step).trans hextends⟩
  | aside step _ ih =>
    obtain ⟨hsound, hextends⟩ := ih (exchange_sound step hs)
    exact ⟨hsound, (exchange_extends step).trans hextends⟩
  | pin hknown hold _ _ ih =>
    have hvalue := (hknown _).2 rfl
    obtain ⟨hsound, hextends⟩ := ih (pin_sound hvalue hs)
    exact ⟨hsound, (pin_extends hvalue hold).trans hextends⟩

lemma injectiveOn (h : Exchanges K s is js t) (hs : Sound seed s) (hK : InjectiveOn K s) :
    InjectiveOn K t := by
  induction h with
  | nil s => exact hK
  | cons step _ ih => exact ih (exchange_sound step hs) (exchange_injectiveOn step hs hK)
  | aside step _ ih => exact ih (exchange_sound step hs) (exchange_injectiveOn step hs hK)
  | pin hknown _ hpair _ ih =>
    exact ih (pin_sound ((hknown _).2 rfl) hs) (pin_injectiveOn hknown hpair hK)

/-- Every id of a run has been given its answer, which lies above the seed; the answer to an unset
id lies above all ids minted before the run. -/
theorem gave (h : Exchanges K s is js t) (hs : Sound seed s) :
    List.Forall₂ (fun i j => Gave t i j ∧ seed.toNat < j.toNat ∧ j.toNat ≤ t.maxId.toNat ∧
      (i = .unset → s.maxId.toNat < j.toNat)) is js := by
  induction h with
  | nil => exact .nil
  | @cons s t u i j is js step rest ih =>
    have hsound := exchange_sound step hs
    have hextends := (rest.sound_extends hsound).2
    have hstep := exchange_extends step
    obtain ⟨hseed, hle, hlt⟩ := exchange_bounds step hs
    refine .cons ⟨(exchange_gave step hs).mono hle hextends, hseed, ?_, hlt⟩ ?_
    · exact Nat.le_trans hle hextends.max_le
    · exact (ih hsound).imp (fun a b ⟨hgave, hb, hb', hunset⟩ =>
        ⟨hgave, hb, hb', fun ha => Nat.lt_of_le_of_lt hstep.max_le (hunset ha)⟩)
  | aside step _ ih =>
    have hstep := exchange_extends step
    exact (ih (exchange_sound step hs)).imp (fun a b ⟨hgave, hb, hb', hunset⟩ =>
      ⟨hgave, hb, hb', fun ha => Nat.lt_of_le_of_lt hstep.max_le (hunset ha)⟩)
  | pin hknown _ _ _ ih => exact ih (pin_sound ((hknown _).2 rfl) hs)

lemma bounds (h : Exchanges K s is js t) (hs : Sound seed s) {j : NodeId} (hj : j ∈ js) :
    seed.toNat < j.toNat ∧ j.toNat ≤ t.maxId.toNat := by
  obtain ⟨i, -, -, hlt, hle, -⟩ := exists_of_forall₂_right (h.gave hs) hj
  exact ⟨hlt, hle⟩

/-- Distinct ids, and unset ones, get distinct ids. -/
theorem nodup (h : Exchanges K s is js t) (hs : Sound seed s) (hK : InjectiveOn K s)
    (hdistinct : (is.filter NodeId.isSet).Nodup) (hmem : ∀ i ∈ is, i.isSet → K i) : js.Nodup := by
  induction h with
  | nil => exact List.nodup_nil
  | @cons s t u i j is js step rest ih =>
    have hsound := exchange_sound step hs
    have hinj := exchange_injectiveOn step hs hK
    obtain ⟨hsound', hextends⟩ := rest.sound_extends hsound
    have hinj' := rest.injectiveOn hsound hinj
    obtain ⟨-, hle, -⟩ := exchange_bounds step hs
    have hgave := (exchange_gave step hs).mono hle hextends
    have hrest : (is.filter NodeId.isSet).Nodup :=
      List.Nodup.sublist ((List.sublist_cons_self i is).filter _) hdistinct
    rw [List.nodup_cons]
    refine ⟨fun hj => ?_, ih hsound hinj hrest (fun k hk => hmem k (List.mem_cons_of_mem _ hk))⟩
    obtain ⟨i', hi', hgave', -, -, hlt⟩ := exists_of_forall₂_right (rest.gave hsound) hj
    -- the answers agree, so both ids are set, and then they are one id
    by_cases hset : i.isSet
    · by_cases hset' : i'.isSet
      · have heq := hinj' i i' j (hmem i List.mem_cons_self hset)
          (hmem i' (List.mem_cons_of_mem _ hi') hset') (hgave.1 hset) (hgave'.1 hset')
        rw [List.filter_cons_of_pos hset, List.nodup_cons] at hdistinct
        exact hdistinct.1 (List.mem_filter.2 ⟨heq ▸ hi', hset⟩)
      · rw [NodeId.isSet_iff, not_not] at hset'
        exact hgave'.2 hset' i (hgave.1 hset)
    · rw [NodeId.isSet_iff, not_not] at hset
      by_cases hset' : i'.isSet
      · exact hgave.2 hset i' (hgave'.1 hset')
      · rw [NodeId.isSet_iff, not_not] at hset'
        have hlt := hlt hset'
        omega
  | aside step _ ih =>
    exact ih (exchange_sound step hs) (exchange_injectiveOn step hs hK) hdistinct hmem
  | pin hknown _ hpair _ ih =>
    exact ih (pin_sound ((hknown _).2 rfl) hs) (pin_injectiveOn hknown hpair hK) hdistinct hmem

end Exchanges

end CelEdit.IdSupply
