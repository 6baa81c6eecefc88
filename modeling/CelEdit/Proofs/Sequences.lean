import Mathlib.Data.List.Forall2
import Mathlib.Data.Option.Defs
import Mathlib.Tactic.Lemma

/-!
# Lists, options and results

Facts about lists, options and results that the theory of trees and edits rests on. Nothing here
mentions them.
-/

namespace CelEdit

variable {α β γ ε : Type}

/-! ### Lists related one by one -/

section Related

variable {R R' : α → β → Prop} {S : β → γ → Prop} {T : α → γ → Prop} {as as' : List α}
  {bs bs' : List β} {cs : List γ}

lemma forall₂_of_getElem? (hlength : as.length = bs.length)
    (h : ∀ (i : Nat) (a : α) (b : β), as[i]? = some a → bs[i]? = some b → R a b) :
    List.Forall₂ R as bs := by
  rw [List.forall₂_iff_get]
  refine ⟨hlength, fun i hi hi' => h i _ _ ?_ ?_⟩
  · exact List.getElem?_eq_getElem hi
  · exact List.getElem?_eq_getElem hi'

lemma forall₂_imp_of_mem (h : List.Forall₂ R as bs)
    (himp : ∀ a ∈ as, ∀ b ∈ bs, R a b → R' a b) : List.Forall₂ R' as bs := by
  induction h with
  | nil => exact .nil
  | cons hab _ ih =>
    refine .cons (himp _ List.mem_cons_self _ List.mem_cons_self hab) (ih ?_)
    intro a ha b hb
    exact himp a (List.mem_cons_of_mem _ ha) b (List.mem_cons_of_mem _ hb)

lemma forall₂_trans (h₁ : List.Forall₂ R as bs) (h₂ : List.Forall₂ S bs cs)
    (h : ∀ a ∈ as, ∀ b c, R a b → S b c → T a c) : List.Forall₂ T as cs := by
  induction h₁ generalizing cs with
  | nil =>
    cases h₂
    exact .nil
  | cons hab _ ih =>
    cases h₂ with
    | cons hbc htail =>
      exact .cons (h _ List.mem_cons_self _ _ hab hbc)
        (ih htail (fun a ha => h a (List.mem_cons_of_mem _ ha)))

lemma forall₂_append_iff (hlength : as.length = bs.length) :
    List.Forall₂ R (as ++ as') (bs ++ bs') ↔ List.Forall₂ R as bs ∧ List.Forall₂ R as' bs' := by
  constructor
  · intro h
    have htake := List.forall₂_take as.length h
    have hdrop := List.forall₂_drop as.length h
    rw [List.take_left, List.take_left' hlength.symm] at htake
    rw [List.drop_left, List.drop_left' hlength.symm] at hdrop
    exact ⟨htake, hdrop⟩
  · rintro ⟨h, h'⟩
    exact List.rel_append h h'

lemma forall₂_eq_map_iff {f : α → β} :
    List.Forall₂ (fun a b => b = f a) as bs ↔ bs = as.map f := by
  rw [← List.forall₂_eq_eq_eq, List.forall₂_map_right_iff]
  exact ⟨List.Forall₂.flip, List.Forall₂.flip⟩

lemma exists_of_forall₂_right {b : β} (h : List.Forall₂ R as bs) (hb : b ∈ bs) :
    ∃ a ∈ as, R a b := by
  induction h with
  | nil => cases hb
  | cons hhead _ ih =>
    rcases List.mem_cons.1 hb with rfl | hb
    · exact ⟨_, List.mem_cons_self, hhead⟩
    · obtain ⟨a, ha, hab⟩ := ih hb
      exact ⟨a, List.mem_cons_of_mem _ ha, hab⟩

end Related

/-! ### Lists -/

lemma eq_of_map_eq_of_map_eq {f : α → β} {g : α → γ}
    (hfg : ∀ a b, f a = f b → g a = g b → a = b) {as bs : List α} (hf : as.map f = bs.map f)
    (hg : as.map g = bs.map g) : as = bs := by
  induction as generalizing bs with
  | nil => simpa using hf
  | cons a as ih =>
    obtain _ | ⟨b, bs⟩ := bs
    · simp at hf
    · simp only [List.map_cons, List.cons.injEq] at hf hg
      rw [hfg a b hf.1 hg.1, ih hf.2 hg.2]

lemma map_unit_eq_iff {as : List α} {bs : List β} :
    as.map (fun _ => ()) = bs.map (fun _ => ()) ↔ as.length = bs.length := by
  rw [List.map_const', List.map_const', List.replicate_inj]
  simp

lemma mapIdx_map (as : List α) (f : α → β) (g : Nat → β → γ) :
    (as.map f).mapIdx g = as.zipIdx.map (fun p => g p.2 (f p.1)) := by
  rw [List.mapIdx_eq_zipIdx_map, List.zipIdx_map, List.map_map]
  rfl

lemma forall_mem_modify {f : α → α} {as : List α} {P : α → Prop} (h : ∀ a ∈ as, P a)
    (hf : ∀ a ∈ as, P (f a)) (i : Nat) : ∀ a ∈ as.modify i f, P a := by
  intro a ha
  obtain ⟨j, hj⟩ := List.getElem?_of_mem ha
  rw [List.getElem?_modify] at hj
  obtain ⟨b, hb, rfl⟩ := Option.map_eq_some_iff.1 hj
  have hmem := List.mem_of_getElem? hb
  split
  · exact hf b hmem
  · exact h b hmem

lemma map_modify_of_forall {f : α → α} {as : List α} {g : α → β}
    (hf : ∀ a ∈ as, g (f a) = g a) (i : Nat) : (as.modify i f).map g = as.map g := by
  apply List.ext_getElem?
  intro j
  rw [List.getElem?_map, List.getElem?_modify, List.getElem?_map]
  cases hj : as[j]? with
  | none => rfl
  | some a =>
    simp only [Option.map_eq_map, Option.map_some]
    split
    · rw [hf a (List.mem_of_getElem? hj)]
    · rfl

lemma findSome?_congr {f g : α → Option β} {as : List α} (h : ∀ a ∈ as, f a = g a) :
    as.findSome? f = as.findSome? g := by
  induction as with
  | nil => rfl
  | cons a as ih =>
    rw [List.findSome?_cons, List.findSome?_cons, h a List.mem_cons_self,
      ih (fun b hb => h b (List.mem_cons_of_mem _ hb))]

lemma findSome?_cons_or (f : α → Option β) (a : α) (as : List α) :
    (a :: as).findSome? f = (f a).or (as.findSome? f) := by
  rw [List.findSome?_cons]
  cases f a <;> rfl

lemma findSome?_flatMap (f : α → List β) (g : β → Option γ) (as : List α) :
    (as.flatMap f).findSome? g = as.findSome? (fun a => (f a).findSome? g) := by
  induction as with
  | nil => rfl
  | cons a as ih => rw [List.flatMap_cons, List.findSome?_append, ih, findSome?_cons_or]

lemma foldr_add (ns : List Nat) (n : Nat) : ns.foldr (· + ·) n = ns.foldr (· + ·) 0 + n := by
  have hassoc : ns.foldr (· + ·) (0 + n) = ns.foldr (· + ·) 0 + n := List.foldr_assoc
  rwa [Nat.zero_add] at hassoc

/-! ### Options -/

lemma option_map_unit_eq_iff {a : Option α} {b : Option β} :
    a.map (fun _ => ()) = b.map (fun _ => ()) ↔ a.toList.length = b.toList.length := by
  cases a <;> cases b <;> simp

lemma optionRel_flip {R : α → β → Prop} {S : β → α → Prop} {a : Option α} {b : Option β}
    (h : Option.Rel R a b) (hRS : ∀ x y, R x y → S y x) : Option.Rel S b a := by
  cases h with
  | some hxy => exact .some (hRS _ _ hxy)
  | none => exact .none

lemma eq_none_of_isSome_eq {a : Option α} {b : Option β} (h : a.isSome = b.isSome)
    (ha : a = none) : b = none := by
  rw [ha, Option.isSome_none, eq_comm, Option.isSome_eq_false_iff, Option.isNone_iff_eq_none] at h
  exact h

lemma mapM_eq_some_map {as : List α} {f : β → Option γ} {g : α → β} {h : α → γ}
    (hf : ∀ a ∈ as, f (g a) = some (h a)) : (as.map g).mapM f = some (as.map h) := by
  induction as with
  | nil => rfl
  | cons a as ih =>
    obtain ⟨ha, has⟩ := List.forall_mem_cons.1 hf
    rw [List.map_cons, List.mapM_cons, ha, ih has]
    rfl

/-! ### Results -/

lemma except_bind_eq_ok (x : Except ε α) (f : α → Except ε β) (b : β) :
    x >>= f = .ok b ↔ ∃ a, x = .ok a ∧ f a = .ok b := by
  cases x <;> simp [bind, Except.bind]

lemma except_toOption_eq_some {x : Except ε α} {a : α} :
    x.toOption = some a ↔ x = .ok a := by
  cases x <;> simp [Except.toOption]

lemma except_map_eq_ok {x : Except ε α} {f : α → β} {b : β} :
    x.map f = .ok b ↔ ∃ a, x = .ok a ∧ f a = b := by
  cases x <;> simp [Except.map]

lemma except_bind_map (x : Except ε α) (f : α → β) (g : β → Except ε γ) :
    (x.map f >>= g) = x >>= fun a => g (f a) := by
  cases x <;> rfl

lemma except_map_bind (x : Except ε α) (f : α → Except ε β) (g : β → γ) :
    (x >>= f).map g = x >>= fun a => (f a).map g := by
  cases x <;> rfl

lemma mapM_eq_ok {f : α → Except ε β} {as : List α} {bs : List β} :
    as.mapM f = .ok bs ↔ List.Forall₂ (fun a b => f a = .ok b) as bs := by
  induction as generalizing bs with
  | nil =>
    change Except.ok [] = .ok bs ↔ _
    rw [Except.ok.injEq, List.forall₂_nil_left_iff, eq_comm]
  | cons a as ih =>
    rw [List.mapM_cons, except_bind_eq_ok, List.forall₂_cons_left_iff]
    constructor
    · rintro ⟨b, hb, h⟩
      obtain ⟨bs', hbs', h⟩ := (except_bind_eq_ok ..).1 h
      cases h
      exact ⟨b, bs', hb, ih.1 hbs', rfl⟩
    · rintro ⟨b, bs', hb, hbs', rfl⟩
      exact ⟨b, hb, (except_bind_eq_ok ..).2 ⟨bs', ih.2 hbs', rfl⟩⟩

end CelEdit
