import CelEdit.Ids.Renumber
import CelEdit.Proofs.Sequences

/-!
# Successful runs

The edits are written in towers of state over failure. `Runs.Ends x s a t` says that `x`, started in
state `s`, succeeds with `a` in state `t`; where the tower has several states they are taken
together. The lowest state stands on a monad in which a computation `Returns` a value or fails. A
loop over a list becomes a `Thread`, which hands the state from one element to the next.
-/

namespace CelEdit

/-- Monads in which a computation gives one value or fails. -/
class Returns (m : Type → Type) [Monad m] where
  Gives : {α : Type} → m α → α → Prop
  gives_pure : ∀ {α : Type} (a b : α), Gives (pure a) b ↔ b = a
  gives_bind : ∀ {α β : Type} (x : m α) (f : α → m β) (b : β),
    Gives (x >>= f) b ↔ ∃ a, Gives x a ∧ Gives (f a) b

/-- Monads in which a computation runs from a state to a state or fails. -/
class Runs (m : Type → Type) [Monad m] (σ : outParam Type) where
  Ends : {α : Type} → m α → σ → α → σ → Prop
  ends_pure : ∀ {α : Type} (a b : α) (s t : σ), Ends (pure a) s b t ↔ b = a ∧ t = s
  ends_bind : ∀ {α β : Type} (x : m α) (f : α → m β) (s u : σ) (b : β),
    Ends (x >>= f) s b u ↔ ∃ a t, Ends x s a t ∧ Ends (f a) t b u

instance (ε : Type) : Returns (Except ε) where
  Gives x a := x = .ok a
  gives_pure a b := by
    change Except.ok a = .ok b ↔ _
    rw [Except.ok.injEq, eq_comm]
  gives_bind x f b := except_bind_eq_ok x f b

instance : Returns Id where
  Gives x a := x = a
  gives_pure _ _ := eq_comm
  gives_bind x _ _ := ⟨fun h => ⟨x, rfl, h⟩, fun ⟨_, hx, hf⟩ => hx ▸ hf⟩

instance (σ : Type) (m : Type → Type) [Monad m] [Returns m] : Runs (StateT σ m) σ where
  Ends x s a t := Returns.Gives (x s) (a, t)
  ends_pure a b s t := by
    change Returns.Gives (pure (a, s)) (b, t) ↔ _
    rw [Returns.gives_pure, Prod.mk.injEq]
  ends_bind x f s u b := by
    change Returns.Gives (x s >>= fun p => f p.1 p.2) (b, u) ↔ _
    rw [Returns.gives_bind, Prod.exists]

instance (τ σ : Type) (m : Type → Type) [Monad m] [Runs m σ] : Runs (StateT τ m) (τ × σ) where
  Ends x s a t := Runs.Ends (x s.1) s.2 (a, t.1) t.2
  ends_pure a b s t := by
    change Runs.Ends (pure (a, s.1)) s.2 (b, t.1) t.2 ↔ _
    rw [Runs.ends_pure, Prod.mk.injEq, Prod.ext_iff, and_assoc]
  ends_bind x f s u b := by
    change Runs.Ends (x s.1 >>= fun p => f p.1 p.2) s.2 (b, u.1) u.2 ↔ _
    rw [Runs.ends_bind]
    constructor
    · rintro ⟨⟨a, t⟩, t', hx, hf⟩
      exact ⟨a, (t, t'), hx, hf⟩
    · rintro ⟨a, ⟨t, t'⟩, hx, hf⟩
      exact ⟨(a, t), t', hx, hf⟩

/-- The state passes through the elements of a list in order. -/
inductive Thread {σ α β : Type} (R : α → σ → β → σ → Prop) : List α → σ → List β → σ → Prop
  | nil (s : σ) : Thread R [] s [] s
  | cons {a : α} {as : List α} {b : β} {bs : List β} {s t u : σ}
      (head : R a s b t) (tail : Thread R as t bs u) : Thread R (a :: as) s (b :: bs) u

namespace Thread

variable {σ τ α β : Type} {R S : α → σ → β → σ → Prop}

@[simp] lemma nil_iff {s t : σ} {bs : List β} : Thread R [] s bs t ↔ bs = [] ∧ t = s := by
  constructor
  · rintro ⟨⟩
    exact ⟨rfl, rfl⟩
  · rintro ⟨rfl, rfl⟩
    exact .nil _

lemma cons_iff {a : α} {as : List α} {bs : List β} {s u : σ} :
    Thread R (a :: as) s bs u ↔ ∃ b bs' t, bs = b :: bs' ∧ R a s b t ∧ Thread R as t bs' u := by
  constructor
  · rintro (_ | ⟨head, tail⟩)
    exact ⟨_, _, _, rfl, head, tail⟩
  · rintro ⟨b, bs', t, rfl, head, tail⟩
    exact .cons head tail

lemma length_eq {as : List α} {bs : List β} {s t : σ} (h : Thread R as s bs t) :
    bs.length = as.length := by
  induction h with
  | nil => rfl
  | cons _ _ ih => rw [List.length_cons, List.length_cons, ih]

lemma append {as as' : List α} {bs bs' : List β} {s t u : σ} (h : Thread R as s bs t)
    (h' : Thread R as' t bs' u) : Thread R (as ++ as') s (bs ++ bs') u := by
  induction h with
  | nil => exact h'
  | cons head _ ih => exact .cons head (ih h')

lemma append_iff {as as' : List α} {bs : List β} {s u : σ} :
    Thread R (as ++ as') s bs u ↔
      ∃ bs₁ bs₂ t, bs = bs₁ ++ bs₂ ∧ Thread R as s bs₁ t ∧ Thread R as' t bs₂ u := by
  constructor
  · intro h
    induction as generalizing bs s with
    | nil => exact ⟨[], bs, s, rfl, .nil s, h⟩
    | cons a as ih =>
      obtain _ | ⟨head, tail⟩ := h
      obtain ⟨bs₁, bs₂, t, rfl, htail, hrest⟩ := ih tail
      exact ⟨_ :: bs₁, bs₂, t, rfl, .cons head htail, hrest⟩
  · rintro ⟨bs₁, bs₂, t, rfl, h, h'⟩
    exact h.append h'

lemma split {as as' : List α} {bs bs' : List β} {s u : σ} (hlength : bs.length = as.length)
    (h : Thread R (as ++ as') s (bs ++ bs') u) :
    ∃ t, Thread R as s bs t ∧ Thread R as' t bs' u := by
  obtain ⟨bs₁, bs₂, t, heq, h₁, h₂⟩ := append_iff.1 h
  obtain ⟨rfl, rfl⟩ := List.append_inj heq (hlength.trans h₁.length_eq.symm)
  exact ⟨t, h₁, h₂⟩

lemma map_left {γ : Type} {f : γ → α} {cs : List γ} {bs : List β} {s t : σ} :
    Thread R (cs.map f) s bs t ↔ Thread (fun c => R (f c)) cs s bs t := by
  induction cs generalizing bs s with
  | nil => simp
  | cons c cs ih => simp only [List.map_cons, cons_iff, ih]

lemma imp {S : α → τ → β → τ → Prop} (f : σ → τ) {as : List α} {bs : List β} {s t : σ}
    (h : Thread R as s bs t) (hR : ∀ a ∈ as, ∀ s b t, R a s b t → S a (f s) b (f t)) :
    Thread S as (f s) bs (f t) := by
  induction h with
  | nil => exact .nil _
  | cons head _ ih =>
    exact .cons (hR _ List.mem_cons_self _ _ _ head)
      (ih (fun a ha => hR a (List.mem_cons_of_mem _ ha)))

lemma map_eq {γ : Type} {f : α → γ} {g : β → γ} {as : List α} {bs : List β} {s t : σ}
    (h : Thread (fun a _ b _ => g b = f a) as s bs t) : bs.map g = as.map f := by
  induction h with
  | nil => rfl
  | cons head _ ih => rw [List.map_cons, List.map_cons, head, ih]

lemma exists_of_mem {as : List α} {bs : List β} {s t : σ} (h : Thread R as s bs t) {b : β}
    (hb : b ∈ bs) : ∃ a ∈ as, ∃ u v, R a u b v := by
  induction h with
  | nil => cases hb
  | cons head _ ih =>
    rcases List.mem_cons.1 hb with rfl | hb
    · exact ⟨_, List.mem_cons_self, _, _, head⟩
    · obtain ⟨a, ha, hab⟩ := ih hb
      exact ⟨a, List.mem_cons_of_mem _ ha, hab⟩

/-- What every element preserves, the whole list preserves. -/
lemma preserves {P : σ → Prop} {as : List α} {bs : List β} {s t : σ}
    (h : Thread (fun _ s _ t => P s → P t) as s bs t) (hs : P s) : P t := by
  induction h with
  | nil => exact hs
  | cons head _ ih => exact ih (head hs)

end Thread

namespace Runs

section OneState

variable {m : Type → Type} {σ : Type} [Monad m] [Returns m]

lemma ends_get (s t a : σ) : Ends (get : StateT σ m σ) s a t ↔ a = s ∧ t = s := by
  change Returns.Gives (pure (s, s)) (a, t) ↔ _
  rw [Returns.gives_pure, Prod.mk.injEq]

lemma ends_set (s t v : σ) (a : PUnit) : Ends (set v : StateT σ m PUnit) s a t ↔ t = v := by
  change Returns.Gives (pure (PUnit.unit, v)) (a, t) ↔ _
  rw [Returns.gives_pure, Prod.mk.injEq]
  exact and_iff_right rfl

end OneState

section Failure

variable {σ ε α : Type}

lemma ends_liftExcept (x : Except ε α) (s t : σ) (a : α) :
    Ends (liftM x : StateT σ (Except ε) α) s a t ↔ x = .ok a ∧ t = s := by
  change (x >>= fun a => Except.ok (a, s)) = Except.ok (a, t) ↔ _
  rw [except_bind_eq_ok]
  constructor
  · rintro ⟨a', rfl, h⟩
    rw [Except.ok.injEq, Prod.mk.injEq] at h
    exact ⟨by rw [h.1], h.2.symm⟩
  · rintro ⟨rfl, rfl⟩
    exact ⟨a, rfl, rfl⟩

lemma run'_eq_ok (x : StateT σ (Except ε) α) (s : σ) (a : α) :
    x.run' s = .ok a ↔ ∃ t, Ends x s a t := by
  change (Prod.fst <$> x s) = .ok a ↔ ∃ t, x s = .ok (a, t)
  cases x s with
  | error e => simp [Functor.map, Except.map]
  | ok p => simp [Functor.map, Except.map, Prod.ext_iff]

end Failure

variable {m : Type → Type} {σ τ α β : Type} [Monad m] [Runs m σ]

lemma ends_getOuter (s t : τ × σ) (a : τ) :
    Ends (get : StateT τ m τ) s a t ↔ a = s.1 ∧ t = s := by
  change Ends (pure (s.1, s.1)) s.2 (a, t.1) t.2 ↔ _
  rw [ends_pure, Prod.mk.injEq, Prod.ext_iff, and_assoc]

lemma ends_setOuter (s t : τ × σ) (v : τ) (a : PUnit) :
    Ends (set v : StateT τ m PUnit) s a t ↔ t = (v, s.2) := by
  change Ends (pure (PUnit.unit, v)) s.2 (a, t.1) t.2 ↔ _
  rw [ends_pure, Prod.mk.injEq, Prod.ext_iff]
  exact ⟨fun h => ⟨h.1.2, h.2⟩, fun h => ⟨⟨rfl, h.1⟩, h.2⟩⟩

lemma ends_lift (x : m α) (s t : τ × σ) (a : α) :
    Ends (liftM x : StateT τ m α) s a t ↔ t.1 = s.1 ∧ Ends x s.2 a t.2 := by
  change Ends (x >>= fun a => pure (a, s.1)) s.2 (a, t.1) t.2 ↔ _
  rw [ends_bind]
  constructor
  · rintro ⟨a', u, hx, hpure⟩
    obtain ⟨hpair, hu⟩ := (ends_pure ..).1 hpure
    obtain ⟨rfl, ht⟩ := Prod.mk.inj hpair
    exact ⟨ht, hu ▸ hx⟩
  · rintro ⟨ht, hx⟩
    exact ⟨a, t.2, hx, (ends_pure ..).2 ⟨by rw [ht], rfl⟩⟩

/-- Where every element leaves the outer state alone, the whole list does. -/
lemma thread_lift {f : α → m β} {as : List α} {bs : List β} {s t : τ × σ} :
    Thread (fun a => Ends (liftM (f a) : StateT τ m β)) as s bs t ↔
      t.1 = s.1 ∧ Thread (fun a => Ends (f a)) as s.2 bs t.2 := by
  induction as generalizing bs s with
  | nil => rw [Thread.nil_iff, Thread.nil_iff, Prod.ext_iff, and_left_comm]
  | cons a as ih =>
    simp only [Thread.cons_iff, ends_lift, ih]
    constructor
    · rintro ⟨b, bs, u, rfl, ⟨hu, hhead⟩, ht, htail⟩
      exact ⟨ht.trans hu, b, bs, u.2, rfl, hhead, htail⟩
    · rintro ⟨ht, b, bs, u, rfl, hhead, htail⟩
      exact ⟨b, bs, (s.1, u), rfl, ⟨rfl, hhead⟩, ht, htail⟩

lemma ends_foldlM_cons (f : β → α → m β) (b c : β) (a : α) (as : List α) (s u : σ) :
    Ends ((a :: as).foldlM f b) s c u ↔ ∃ b' t, Ends (f b a) s b' t ∧ Ends (as.foldlM f b') t c u := by
  rw [List.foldlM_cons, ends_bind]

lemma ends_foldlM_nil (f : β → α → m β) (b c : β) (s t : σ) :
    Ends (([] : List α).foldlM f b) s c t ↔ c = b ∧ t = s := by
  rw [List.foldlM_nil, ends_pure]

lemma ends_listMapM [LawfulMonad m] (f : α → m β) (as : List α) (s t : σ) (bs : List β) :
    Ends (as.mapM f) s bs t ↔ Thread (fun a => Ends (f a)) as s bs t := by
  induction as generalizing bs s t with
  | nil => rw [List.mapM_nil, ends_pure, Thread.nil_iff]
  | cons a as ih =>
    simp only [List.mapM_cons, ends_bind, ends_pure, ih, Thread.cons_iff]
    constructor
    · rintro ⟨b, u, hb, bs', v, hbs, rfl, rfl⟩
      exact ⟨b, bs', u, rfl, hb, hbs⟩
    · rintro ⟨b, bs', u, rfl, hb, hbs⟩
      exact ⟨b, u, hb, bs', t, hbs, rfl, rfl⟩

lemma ends_optionMapM [LawfulMonad m] (f : α → m β) (a : Option α) (s t : σ) (b : Option β) :
    Ends (a.mapM f) s b t ↔ Thread (fun a => Ends (f a)) a.toList s b.toList t := by
  cases a with
  | none =>
    change Ends (pure none) s b t ↔ _
    cases b <;> simp [ends_pure]
  | some a =>
    change Ends (some <$> f a) s b t ↔ _
    rw [← bind_pure_comp, ends_bind]
    simp only [ends_pure, Option.toList_some, Thread.cons_iff, Thread.nil_iff]
    constructor
    · rintro ⟨b', u, hb, rfl, rfl⟩
      exact ⟨b', [], t, rfl, hb, rfl, rfl⟩
    · rintro ⟨b', _, u, hlist, hb, rfl, rfl⟩
      exact ⟨b', t, hb, by simpa using hlist, rfl⟩

end Runs

end CelEdit
