import CelEdit.Edit.Bind
import CelEdit.Edit.Call
import CelEdit.Proofs.Grafts
import CelEdit.Proofs.Mangling

/-!
# Budgets

The budget of a walk is looked at only to see whether it is used up. So a walk has a price, which it
pays whatever the budget is: with less the budget is exhausted, and from there on the outcome is
always the same. An edit makes several walks, each with the budget anew, and its price is the
largest of theirs.
-/

namespace CelEdit

variable {α β : Type}

/-- With less than the price the budget is exhausted; from there on it does not matter. -/
def HasPrice (run : Nat → Except EditError α) : Prop :=
  ∃ (price : Nat) (outcome : Except EditError α), outcome ≠ .error .budgetExhausted ∧
    ∀ budget, run budget = if price ≤ budget then outcome else .error .budgetExhausted

namespace HasPrice

lemma const {x : Except EditError α} (h : x ≠ .error .budgetExhausted) : HasPrice (fun _ => x) :=
  ⟨0, x, h, fun budget => (if_pos (Nat.zero_le budget)).symm⟩

lemma ok (a : α) : HasPrice (fun _ => .ok a) := const (fun h => nomatch h)

lemma bind {x : Nat → Except EditError α} {f : Nat → α → Except EditError β} (hx : HasPrice x)
    (hf : ∀ a, HasPrice (fun budget => f budget a)) :
    HasPrice (fun budget => x budget >>= f budget) := by
  obtain ⟨price, outcome, houtcome, hx⟩ := hx
  cases outcome with
  | error e =>
    refine ⟨price, .error e, fun h => houtcome (by cases h; rfl), fun budget => ?_⟩
    change x budget >>= f budget = _
    rw [hx]
    by_cases hle : price ≤ budget
    · rw [if_pos hle, if_pos hle]
      rfl
    · rw [if_neg hle, if_neg hle]
      rfl
  | ok a =>
    obtain ⟨price', outcome', houtcome', hf⟩ := hf a
    refine ⟨max price price', outcome', houtcome', fun budget => ?_⟩
    change x budget >>= f budget = _
    rw [hx]
    by_cases hle : price ≤ budget
    · rw [if_pos hle]
      refine (hf budget).trans ?_
      by_cases hle' : price' ≤ budget
      · rw [if_pos hle', if_pos (Nat.max_le.2 ⟨hle, hle'⟩)]
      · rw [if_neg hle', if_neg (fun h => hle' (Nat.max_le.1 h).2)]
    · rw [if_neg hle, if_neg (fun h => hle (Nat.max_le.1 h).1)]
      rfl

end HasPrice

/-- What succeeds with one budget fails with another one only because that one is exhausted. -/
lemma HasPrice.ok_or_exhausted {run : Nat → Except EditError α} (h : HasPrice run) {budget : Nat}
    {a : α} (hok : run budget = .ok a) (budget' : Nat) :
    run budget' = .ok a ∨ run budget' = .error .budgetExhausted := by
  obtain ⟨price, outcome, -, hrun⟩ := h
  have houtcome : outcome = .ok a := by
    rw [hrun] at hok
    by_cases hle : price ≤ budget
    · rwa [if_pos hle] at hok
    · rw [if_neg hle] at hok
      cases hok
  rw [hrun, houtcome]
  by_cases hle : price ≤ budget'
  · exact .inl (if_pos hle)
  · exact .inr (if_neg hle)

/-- The budget decides whether there is a result, and nothing about it. -/
structure BudgetOnly (run : Nat → Except EditError α) : Prop where
  same : ∀ {budget budget' : Nat} {a : α}, budget ≤ budget' → run budget = .ok a →
    run budget' = .ok a
  enough : ∃ least, ∀ budget, least ≤ budget → run budget ≠ .error .budgetExhausted

theorem HasPrice.budgetOnly {run : Nat → Except EditError α} (h : HasPrice run) :
    BudgetOnly run := by
  obtain ⟨price, outcome, houtcome, hrun⟩ := h
  constructor
  · intro budget budget' a hle hok
    rw [hrun] at hok ⊢
    by_cases hprice : price ≤ budget
    · rw [if_pos hprice] at hok
      rw [if_pos (Nat.le_trans hprice hle), hok]
    · rw [if_neg hprice] at hok
      cases hok
  · refine ⟨price, fun budget hle => ?_⟩
    rw [hrun, if_pos hle]
    exact houtcome

/-! ### Walks -/

/-- Monads that carry what is left of a budget beside another state. -/
class Walks (m : Type → Type) [Monad m] {ρ : outParam Type} [Runs m ρ] (σ : outParam Type) where
  start : {α : Type} → m α → Nat → σ → Except EditError (α × Nat × σ)
  start_pure : ∀ {α : Type} (a : α) (b : Nat) (s : σ), start (pure a) b s = .ok (a, b, s)
  start_bind : ∀ {α β : Type} (x : m α) (f : α → m β) (b : Nat) (s : σ),
    start (x >>= f) b s = start x b s >>= fun r => start (f r.1) r.2.1 r.2.2
  ends_of_start : ∀ {α : Type} {x : m α} {b b' : Nat} {s s' : σ} {a : α},
    start x b s = .ok (a, b', s') → ∃ t t', Runs.Ends x t a t'

instance : Walks (Walk (Except EditError)) Unit where
  start x b _ := (x b).map fun r => (r.1, r.2, ())
  start_pure _ _ _ := rfl
  start_bind x f b _ := by
    change (x b >>= fun r => f r.1 r.2).map _ = _
    rw [except_map_bind, except_bind_map]
  ends_of_start h := by
    obtain ⟨_, hx, hr⟩ := except_map_eq_ok.1 h
    cases hr
    exact ⟨_, _, hx⟩

instance : Walks (Walk Mint) IdSupply where
  start x b s := (x b s).map fun r => (r.1.1, r.1.2, r.2)
  start_pure _ _ _ := rfl
  start_bind x f b s := by
    change (x b s >>= fun r => f r.1.1 r.1.2 r.2).map _ = _
    rw [except_map_bind, except_bind_map]
  ends_of_start {_ _ b _ s _ _} h := by
    obtain ⟨_, hx, hr⟩ := except_map_eq_ok.1 h
    cases hr
    exact ⟨(b, s), (_, _), hx⟩

instance (τ σ ρ : Type) (m : Type → Type) [Monad m] [Runs m ρ] [Walks m σ] :
    Walks (StateT τ m) (τ × σ) where
  start x b s := (Walks.start (x s.1) b s.2).map fun r => (r.1.1, r.2.1, (r.1.2, r.2.2))
  start_pure a b s := by
    change (Walks.start (pure (a, s.1)) b s.2).map _ = _
    rw [Walks.start_pure]
    rfl
  start_bind x f b s := by
    change (Walks.start (x s.1 >>= fun r => f r.1 r.2) b s.2).map _ = _
    rw [Walks.start_bind, except_map_bind, except_bind_map]
  ends_of_start {_ _ _ _ s _ _} h := by
    obtain ⟨_, hx, hr⟩ := except_map_eq_ok.1 h
    cases hr
    obtain ⟨t, t', hx⟩ := Walks.ends_of_start hx
    exact ⟨(s.1, t), (_, t'), hx⟩

section Walks

variable {m : Type → Type} {σ τ ρ : Type} [Monad m] [Runs m ρ] [Walks m σ]

/-- The walk pays a price that its state fixes, and leaves the rest of the budget. -/
def Metered (x : m α) : Prop :=
  ∀ s, ∃ (price : Nat) (outcome : Except EditError (α × σ)), outcome ≠ .error .budgetExhausted ∧
    ∀ b, Walks.start x b s =
      if price ≤ b then outcome.map (fun r => (r.1, b - price, r.2)) else .error .budgetExhausted

namespace Metered

lemma free {x : m α} (outcome : σ → Except EditError (α × σ))
    (houtcome : ∀ s, outcome s ≠ .error .budgetExhausted)
    (h : ∀ b s, Walks.start x b s = (outcome s).map (fun r => (r.1, b, r.2))) : Metered x := by
  intro s
  refine ⟨0, outcome s, houtcome s, fun b => ?_⟩
  rw [if_pos (Nat.zero_le b), h]
  rfl

lemma unit {x : m Unit} (hzero : ∀ s, Walks.start x 0 s = .error .budgetExhausted)
    (hsucc : ∀ b s, Walks.start x (b + 1) s = .ok ((), b, s)) : Metered x := by
  intro s
  refine ⟨1, .ok ((), s), (fun h => nomatch h), fun b => ?_⟩
  cases b with
  | zero => rw [hzero, if_neg (by omega)]
  | succ b =>
    rw [hsucc, if_pos (by omega)]
    rfl

lemma pure (a : α) : Metered (Pure.pure a : m α) :=
  free (fun s => .ok (a, s)) (fun _ h => nomatch h) (fun _ _ => Walks.start_pure ..)

lemma bind_of_ends {x : m α} {f : α → m β} (hx : Metered x)
    (hf : ∀ a, (∃ t t', Runs.Ends x t a t') → Metered (f a)) : Metered (x >>= f) := by
  intro s
  obtain ⟨price, outcome, houtcome, hx⟩ := hx s
  cases outcome with
  | error e =>
    refine ⟨price, .error e, fun h => houtcome (by cases h; rfl), fun b => ?_⟩
    rw [Walks.start_bind, hx]
    by_cases hle : price ≤ b
    · rw [if_pos hle, if_pos hle]
      rfl
    · rw [if_neg hle, if_neg hle]
      rfl
  | ok r =>
    have hends : ∃ t t', Runs.Ends x t r.1 t' :=
      Walks.ends_of_start ((hx price).trans (if_pos (Nat.le_refl price)))
    obtain ⟨price', outcome', houtcome', hf⟩ := hf r.1 hends r.2
    refine ⟨price + price', outcome', houtcome', fun b => ?_⟩
    rw [Walks.start_bind, hx]
    by_cases hle : price ≤ b
    · rw [if_pos hle]
      change Walks.start (f r.1) (b - price) r.2 = _
      rw [hf]
      by_cases hle' : price' ≤ b - price
      · rw [if_pos hle', if_pos (by omega), Nat.sub_sub]
      · rw [if_neg hle', if_neg (by omega)]
    · rw [if_neg hle, if_neg (by omega)]
      rfl

lemma bind {x : m α} {f : α → m β} (hx : Metered x) (hf : ∀ a, Metered (f a)) :
    Metered (x >>= f) :=
  hx.bind_of_ends fun a _ => hf a

lemma listMapM [LawfulMonad m] {f : α → m β} {as : List α} (h : ∀ a ∈ as, Metered (f a)) :
    Metered (as.mapM f) := by
  induction as with
  | nil =>
    rw [List.mapM_nil]
    exact pure []
  | cons a as ih =>
    rw [List.mapM_cons]
    refine (h a List.mem_cons_self).bind fun b => ?_
    refine (ih (fun a ha => h a (List.mem_cons_of_mem _ ha))).bind fun bs => ?_
    exact pure (b :: bs)

lemma optionMapM [LawfulMonad m] {f : α → m β} {a : Option α} (h : ∀ c ∈ a.toList, Metered (f c)) :
    Metered (a.mapM f) := by
  cases a with
  | none => exact pure none
  | some a =>
    change Metered (some <$> f a)
    rw [← bind_pure_comp]
    exact (h a (by simp)).bind fun b => pure (some b)

lemma traverse [LawfulMonad m] {f : α → m β} {k : Kind α} (h : ∀ c ∈ k.children, Metered (f c)) :
    Metered (k.traverse f) := by
  cases k with
  | notSet => exact pure _
  | constant c => exact pure _
  | ident i => exact pure _
  | select s => exact (h s.operand (by simp [Kind.children])).bind fun _ => pure _
  | call c =>
    have htarget : ∀ d ∈ c.target.toList, Metered (f d) :=
      fun d hd => h d (List.mem_append_left _ hd)
    have hargs : ∀ d ∈ c.args, Metered (f d) := fun d hd => h d (List.mem_append_right _ hd)
    exact (optionMapM htarget).bind fun _ => (listMapM hargs).bind fun _ => pure _
  | list l => exact (listMapM h).bind fun _ => pure _
  | struct s =>
    refine (listMapM fun e he => ?_).bind fun _ => pure _
    exact (h e.value (List.mem_map_of_mem he)).bind fun _ => pure _
  | map literal =>
    refine (listMapM fun e he => ?_).bind fun _ => pure _
    have hkey := h e.key (List.mem_flatMap.2 ⟨e, he, by simp⟩)
    have hvalue := h e.value (List.mem_flatMap.2 ⟨e, he, by simp⟩)
    exact hkey.bind fun _ => hvalue.bind fun _ => pure _
  | comprehension c =>
    have hrange := h c.iterRange (by simp [Kind.children])
    have hinit := h c.accuInit (by simp [Kind.children])
    have hcondition := h c.loopCondition (by simp [Kind.children])
    have hstep := h c.loopStep (by simp [Kind.children])
    have hresult := h c.result (by simp [Kind.children])
    exact hrange.bind fun _ => hinit.bind fun _ => hcondition.bind fun _ => hstep.bind fun _ =>
      hresult.bind fun _ => pure _

lemma traverseEntryIds [LawfulMonad m] {f : NodeId → m NodeId} (h : ∀ id, Metered (f id))
    (k : Kind α) : Metered (k.traverseEntryIds f) := by
  cases k with
  | struct s => exact (listMapM fun e _ => (h e.id).bind fun _ => pure _).bind fun _ => pure _
  | map literal => exact (listMapM fun e _ => (h e.id).bind fun _ => pure _).bind fun _ => pure _
  | _ => exact pure _

lemma get : Metered (MonadState.get : StateT τ m τ) :=
  free (fun s => .ok (s.1, s)) (fun _ h => nomatch h) (fun b s => by
    change (Walks.start (Pure.pure (s.1, s.1)) b s.2).map _ = _
    rw [Walks.start_pure]
    rfl)

lemma set (t : τ) : Metered (MonadStateOf.set t : StateT τ m PUnit) :=
  free (fun s => .ok (⟨⟩, (t, s.2))) (fun _ h => nomatch h) (fun b s => by
    change (Walks.start (Pure.pure (PUnit.unit, t)) b s.2).map _ = _
    rw [Walks.start_pure]
    rfl)

lemma lift {x : m α} (h : Metered x) : Metered (liftM x : StateT τ m α) := by
  rintro ⟨t, s⟩
  obtain ⟨price, outcome, houtcome, hx⟩ := h s
  refine ⟨price, outcome.map (fun r => (r.1, (t, r.2))), ?_, fun b => ?_⟩
  · intro herror
    cases outcome with
    | error e => exact houtcome (by cases herror; rfl)
    | ok r => cases herror
  · change (Walks.start (x >>= fun a => Pure.pure (a, t)) b s).map _ = _
    rw [Walks.start_bind, hx]
    by_cases hle : price ≤ b
    · rw [if_pos hle, if_pos hle]
      cases outcome with
      | error e => rfl
      | ok r =>
        change (Walks.start (Pure.pure (r.1, t)) (b - price) r.2).map _ = _
        rw [Walks.start_pure]
        rfl
    · rw [if_neg hle, if_neg hle]
      rfl

end Metered

end Walks

/-! ### Computations with a budget -/

section Families

variable {σ : Type}

/-- It can fail, but not for want of a budget. -/
def Steady (x : StateT σ (Except EditError) α) : Prop := ∀ s, x s ≠ .error .budgetExhausted

namespace Steady

lemma pure (a : α) : Steady (Pure.pure a : StateT σ (Except EditError) α) := fun _ h => nomatch h

lemma get : Steady (MonadState.get : StateT σ (Except EditError) σ) := fun _ h => nomatch h

lemma set (s : σ) : Steady (MonadStateOf.set s : StateT σ (Except EditError) PUnit) :=
  fun _ h => nomatch h

lemma bind {x : StateT σ (Except EditError) α} {f : α → StateT σ (Except EditError) β}
    (hx : Steady x) (hf : ∀ a, Steady (f a)) : Steady (x >>= f) := by
  intro s h
  change (x s >>= fun r => f r.1 r.2) = _ at h
  cases hrun : x s with
  | error e =>
    rw [hrun] at h
    cases h
    exact hx s hrun
  | ok r =>
    rw [hrun] at h
    exact hf r.1 r.2 h

lemma lift {x : Except EditError α} (h : x ≠ .error .budgetExhausted) :
    Steady (liftM x : StateT σ (Except EditError) α) := by
  intro s herror
  cases x with
  | error e =>
    cases herror
    exact h rfl
  | ok a => cases herror

end Steady

/-- From every state, the computation has a price. -/
def Priced (x : Nat → StateT σ (Except EditError) α) : Prop := ∀ s, HasPrice (fun b => x b s)

namespace Priced

lemma const {x : StateT σ (Except EditError) α} (h : Steady x) : Priced (fun _ => x) :=
  fun s => .const (h s)

lemma pure (a : α) : Priced (fun _ => (Pure.pure a : StateT σ (Except EditError) α)) :=
  const fun _ h => nomatch h

lemma bind {x : Nat → StateT σ (Except EditError) α} {f : Nat → α → StateT σ (Except EditError) β}
    (hx : Priced x) (hf : ∀ a, Priced (fun b => f b a)) : Priced (fun b => x b >>= f b) :=
  fun s => (hx s).bind fun r => hf r.1 r.2

lemma foldlM {f : Nat → β → α → StateT σ (Except EditError) β}
    (hf : ∀ c a, Priced (fun b => f b c a)) (as : List α) (c : β) :
    Priced (fun b => as.foldlM (f b) c) := by
  induction as generalizing c with
  | nil => exact pure c
  | cons a as ih => exact (hf c a).bind ih

lemma listMapM {f : Nat → α → StateT σ (Except EditError) β} (hf : ∀ a, Priced (fun b => f b a))
    (as : List α) : Priced (fun b => as.mapM (f b)) := by
  induction as with
  | nil =>
    simp only [List.mapM_nil]
    exact pure []
  | cons a as ih =>
    simp only [List.mapM_cons]
    exact (hf a).bind fun c => ih.bind fun cs => pure (c :: cs)

lemma lift {x : Nat → Except EditError α} (h : HasPrice x) :
    Priced (fun b => (liftM (x b) : StateT σ (Except EditError) α)) :=
  fun s => h.bind fun a => .ok (a, s)

lemma run' {x : Nat → StateT σ (Except EditError) α} (h : Priced x) (s : σ) :
    HasPrice (fun b => (x b).run' s) := by
  have hrun : (fun b => (x b).run' s) = fun b => x b s >>= fun r => .ok r.1 := by
    funext b
    change Prod.fst <$> x b s = _
    cases x b s <;> rfl
  rw [hrun]
  exact (h s).bind fun r => .ok r.1

end Priced

end Families

section Mint

variable {rename : Renaming}

lemma steady_next (c : IdCounter) : c.next ≠ .error .budgetExhausted := by
  unfold IdCounter.next
  cases c.max.next? <;> exact fun h => nomatch h

lemma steady_mint : Steady IdSupply.mint := by
  unfold IdSupply.mint
  refine .bind .get fun s => (Steady.lift (steady_next _)).bind fun r => ?_
  exact (Steady.set _).bind fun _ => .pure _

lemma steady_remember (old new : NodeId) : Steady (IdSupply.remember old new) :=
  fun _ h => nomatch h

lemma steady_exchange (id : NodeId) : Steady (IdSupply.exchange id) := by
  unfold IdSupply.exchange
  by_cases hset : id.isSet
  · rw [if_pos hset]
    refine .bind .get fun s => ?_
    cases s.exchanged? id with
    | some known => exact .pure known
    | none =>
      exact steady_mint.bind fun fresh => (steady_remember id fresh).bind fun _ => .pure fresh
  · rw [if_neg hset]
    exact steady_mint

lemma steady_onSet (h : ∀ id, Steady (rename id)) (id : NodeId) : Steady (rename.onSet id) := by
  unfold Renaming.onSet
  by_cases hset : id.isSet
  · rw [if_pos hset]
    exact h id
  · rw [if_neg hset]
    exact .pure id

lemma metered_pay : Metered (Walk.pay : Walk Mint Unit) := .unit (fun _ => rfl) (fun _ _ => rfl)

lemma metered_mint {x : Mint α} (h : Steady x) : Metered (liftM x : Walk Mint α) :=
  .free x h fun b s => by
    change (x s >>= fun r => Except.ok ((r.1, b), r.2)).map _ = _
    cases x s <;> rfl

lemma children_of_ends {m : Type → Type} {ρ : Type} [Monad m] [Runs m ρ] [LawfulMonad m]
    {f : NodeId → m NodeId} {k l : Kind α} {t t' : ρ}
    (h : Runs.Ends (k.traverseEntryIds f) t l t') : l.children = k.children := by
  have hrest := congrArg Kind.children ((Kind.ends_traverseEntryIds f k l t t').1 h).1
  rwa [Kind.children_mapEntryIds, Kind.children_mapEntryIds] at hrest

/-- What the walks do after they have an id for a node. -/
lemma metered_node {m : Type → Type} {σ ρ : Type} [Monad m] [Runs m ρ] [Walks m σ] [LawfulMonad m]
    {f : NodeId → m NodeId} (hf : ∀ id, Metered (f id)) {g : Expr → m Expr} {k : Kind Expr}
    (hg : ∀ c ∈ k.children, Metered (g c)) (id : NodeId) :
    Metered (do
      let k ← (k.mapChildren (fun c => (c, g c))).traverseEntryIds f
      let k ← k.traverse Prod.snd
      pure (⟨id, k⟩ : Expr)) := by
  refine (Metered.traverseEntryIds hf _).bind_of_ends fun l hl => ?_
  obtain ⟨t, t', hl⟩ := hl
  refine (Metered.traverse fun c hc => ?_).bind fun _ => .pure _
  rw [children_of_ends hl, Kind.children_mapChildren] at hc
  obtain ⟨child, hchild, rfl⟩ := List.mem_map.1 hc
  exact hg child hchild

lemma metered_renumber (h : ∀ id, Steady (rename id)) (e : Expr) : Metered (e.renumber rename) := by
  induction e using Expr.induct with
  | node id k ih =>
    rw [Expr.renumber_mk]
    refine metered_pay.bind fun _ => (metered_mint (h id)).bind fun id' => ?_
    exact metered_node (fun i => metered_mint (h i)) ih id'

lemma metered_transplant (target : NodeId) (e : Expr) :
    Metered (Workspace.transplant target e) := by
  have hexchange : ∀ id, Metered (liftM (IdSupply.exchange id) :
      StateT (Option Expr) (Walk Mint) NodeId) := fun id => (metered_mint (steady_exchange id)).lift
  induction e using Expr.induct with
  | node id k ih =>
    rw [Workspace.transplant_mk]
    refine metered_pay.lift.bind fun _ => Metered.get.bind fun pending => ?_
    cases (if id = target then pending else none) with
    | some donor =>
      refine (Metered.set _).bind fun _ => (hexchange target).bind fun placed => ?_
      refine (metered_mint (steady_remember donor.id placed)).lift.bind fun _ => ?_
      exact (metered_renumber steady_exchange donor).lift
    | none => exact (hexchange id).bind (metered_node hexchange ih)

lemma Metered.hasPrice {m : Type → Type} {σ ρ γ : Type} [Monad m] [Runs m ρ] [Walks m σ] {x : m α}
    (h : Metered x) (s : σ) (f : α → σ → γ) :
    HasPrice (fun b => (Walks.start x b s).map (fun r => f r.1 r.2.2)) := by
  obtain ⟨price, outcome, houtcome, hx⟩ := h s
  refine ⟨price, outcome.map (fun r => f r.1 r.2), ?_, fun b => ?_⟩
  · intro herror
    cases outcome with
    | error e =>
      cases herror
      exact houtcome rfl
    | ok r => cases herror
  · change (Walks.start x b s).map _ = _
    rw [hx]
    by_cases hle : price ≤ b
    · rw [if_pos hle, if_pos hle]
      cases outcome <;> rfl
    · rw [if_neg hle, if_neg hle]
      rfl

lemma priced_renumber (h : ∀ id, Steady (rename id)) (e : Expr) :
    Priced (fun b => (e.renumber rename).run' b) := by
  intro s
  have hrun : (fun b => (e.renumber rename).run' b s) =
      fun b => (Walks.start (e.renumber rename) b s).map (fun r => (r.1, r.2.2)) := by
    funext b
    change (e.renumber rename b s >>= fun r => Except.ok (r.1.1, r.2)) =
      ((e.renumber rename b s).map _).map _
    cases e.renumber rename b s <;> rfl
  rw [hrun]
  exact (metered_renumber h e).hasPrice s _

lemma priced_rederive (h : ∀ id, Steady (rename id)) (calls : IdMap Expr) (replaced : Option NodeId)
    (root : Expr) : Priced (MacroCalls.rederive calls replaced root rename) := by
  refine Priced.foldlM (fun derived entry => ?_) calls.entries IdMap.empty
  refine (Priced.const (h entry.1)).bind fun key => ?_
  cases root.nodesById.get? key with
  | none => exact .pure derived
  | some expanded => exact (priced_renumber (steady_onSet h) entry.2).bind fun shadow => .pure _

end Mint

/-! ### Edits -/

namespace Workspace

lemma priced_relocate (w : Workspace) : Priced (fun b => relocate b w) :=
  (priced_renumber steady_exchange w.root).bind fun root =>
    (priced_rederive steady_exchange w.source.macroCalls none root).bind fun _ => .pure _

lemma priced_transplant (host : Expr) (donor : Option Expr) (target : NodeId) :
    Priced (fun b => ((transplant target host).run donor).run' b) := by
  intro s
  have hrun : (fun b => ((transplant target host).run donor).run' b s) =
      fun b => (Walks.start (transplant target host) b (donor, s)).map
        (fun r => ((r.1, r.2.2.1), r.2.2.2)) := by
    funext b
    change (transplant target host donor b s >>= fun r => Except.ok (r.1.1, r.2)) =
      (((transplant target host donor b s).map _).map _).map _
    cases transplant target host donor b s <;> rfl
  rw [hrun]
  exact (metered_transplant target host).hasPrice (donor, s) (fun e t => ((e, t.1), t.2))

lemma priced_transplantDonor (host donor : Workspace) (target : NodeId) :
    Priced (fun b => transplantDonor b host donor target) := by
  refine (priced_transplant host.root (some donor.root) target).bind ?_
  rintro ⟨root, pending⟩
  cases pending with
  | some _ => exact .const (x := throw (.notFound target)) (fun _ h => nomatch h)
  | none =>
    refine (Priced.const (steady_exchange target)).bind fun replaced => ?_
    exact (priced_rederive steady_exchange _ (some replaced) root).bind fun _ => .pure _

/-- Some budget is enough for every shadow. -/
lemma exists_shadow_budget (es : List (NodeId × Expr)) :
    ∃ budget, ∀ e ∈ es, e.2.nodeCount ≤ budget := by
  induction es with
  | nil => exact ⟨0, fun _ he => (nomatch he)⟩
  | cons e es ih =>
    obtain ⟨budget, hbudget⟩ := ih
    refine ⟨max e.2.nodeCount budget, List.forall_mem_cons.2 ⟨Nat.le_max_left .., fun d hd => ?_⟩⟩
    exact Nat.le_trans (hbudget d hd) (Nat.le_max_right ..)

lemma hasPrice_rederiveKeeping (calls : IdMap Expr) (root : Expr) :
    HasPrice (MacroCalls.rederiveKeeping calls root) :=
  (priced_rederive .pure calls none root).run' default

theorem hasPrice_replaceBy (host donor : Workspace) (target : NodeId) :
    HasPrice (fun b => replaceBy b host donor target) := by
  unfold replaceBy
  cases if target.isSet then host.root.find? target else none with
  | none => exact .const fun h => nomatch h
  | some existing =>
    by_cases hsame : donor.root.id = target ∧ existing = donor.root
    · simp only [if_pos hsame]
      exact (hasPrice_rederiveKeeping host.source.macroCalls host.root).bind fun _ => .ok _
    · simp only [if_neg hsame]
      exact (priced_relocate donor _).bind fun moved =>
        (priced_transplantDonor host moved.1 target).run' _

theorem hasPrice_renumber (w : Workspace) : HasPrice (fun b => renumber b w) :=
  (priced_renumber steady_exchange w.root _).bind fun r =>
    ((priced_rederive steady_exchange w.source.macroCalls none r.1).run' r.2).bind fun _ => .ok _

lemma priced_bindDonor (host : Workspace) (name : String) (init result : Expr) (populate : Bool) :
    Priced (fun b => bindDonor b host name init result populate) := by
  have hbound : Priced (fun b => bindComprehension b name init result) := by
    refine (priced_renumber (fun _ => steady_mint) init).bind fun accuInit => ?_
    refine (priced_renumber steady_exchange result).bind fun result => .const ?_
    exact steady_mint.bind fun _ => steady_mint.bind fun _ => steady_mint.bind fun _ =>
      steady_mint.bind fun _ => steady_mint.bind fun _ => .pure _
  refine hbound.bind fun bound => ?_
  cases populate with
  | false => exact (Priced.pure _).bind fun _ => .pure _
  | true =>
    refine Priced.bind ?_ fun _ => .pure _
    refine (Priced.const steady_mint).bind fun _ => (Priced.const steady_mint).bind fun _ => ?_
    exact (priced_rederive steady_exchange host.source.macroCalls none bound).bind fun _ => .pure _

theorem hasPrice_replaceByBind (host : Workspace) (name : String) (init result : Expr)
    (target : NodeId) (populate : Bool) :
    HasPrice (fun b => replaceByBind b host name init result target populate) :=
  ((priced_bindDonor host name init result populate).run' _).bind fun donor =>
    hasPrice_replaceBy host donor target

lemma priced_takeIn (w : Workspace) : Priced (fun b => takeIn b w) := by
  refine (Priced.const .get).bind fun a => ?_
  refine (Priced.lift (priced_relocate w _)).bind fun moved => ?_
  exact .const ((Steady.set _).bind fun _ => .pure _)

theorem hasPrice_assembleCall (target : Option Workspace) (function : String)
    (args : List Workspace) : HasPrice (fun b => assembleCall b target function args) := by
  refine HasPrice.bind ?_ fun r => (HasPrice.const (steady_next _)).bind fun _ => .ok _
  refine ((Priced.listMapM priced_takeIn args).bind fun args => ?_) _
  cases target with
  | none => exact .pure _
  | some target => exact (priced_takeIn target).bind fun _ => .pure _

end Workspace

/-! ### Mangling -/

namespace Mangle

lemma metered_payPass : Metered (Walk.pay : Walk (Except EditError) Unit) :=
  .unit (fun _ => rfl) (fun _ _ => rfl)

lemma metered_enter (iterPrefix accuPrefix : String) (id : NodeId) (iterVar accuVar : String) :
    Metered (enter iterPrefix accuPrefix id iterVar accuVar) :=
  Metered.get.bind fun _ => (Metered.set _).bind fun _ => .pure _

lemma metered_renameIn (iterPrefix accuPrefix : String) (e : Expr) (scopes : Scopes) :
    Metered (renameIn iterPrefix accuPrefix e scopes) := by
  induction e using Expr.induct generalizing scopes with
  | node id k ih =>
    by_cases hident : k.tag = .ident
    · cases k with
      | ident i =>
        rw [renameIn_ident]
        exact metered_payPass.lift.bind fun _ => .pure _
      | _ => cases hident
    · by_cases hcomprehension : k.tag = .comprehension
      · cases k with
        | comprehension c =>
          have hrange := ih c.iterRange (by simp [Kind.children])
          have hinit := ih c.accuInit (by simp [Kind.children])
          have hcondition := ih c.loopCondition (by simp [Kind.children])
          have hstep := ih c.loopStep (by simp [Kind.children])
          have hresult := ih c.result (by simp [Kind.children])
          rw [renameIn_comprehension]
          have henter := metered_enter iterPrefix accuPrefix id c.iterVar c.accuVar
          refine metered_payPass.lift.bind fun _ => henter.bind fun r => ?_
          exact (hrange _).bind fun _ => (hinit _).bind fun _ => (hcondition _).bind fun _ =>
            (hstep _).bind fun _ => (hresult _).bind fun _ => .pure _
        | _ => cases hcomprehension
      · rw [renameIn_of_tag_ne hident hcomprehension]
        refine metered_payPass.lift.bind fun _ => ?_
        refine (Metered.traverse fun c hc => ?_).bind fun _ => .pure _
        rw [Kind.children_mapChildren] at hc
        obtain ⟨child, hchild, rfl⟩ := List.mem_map.1 hc
        exact ih child hchild scopes

end Mangle

theorem Workspace.hasPrice_mangle (w : Workspace) (iterPrefix accuPrefix : String) :
    HasPrice (fun b => w.mangle b iterPrefix accuPrefix) := by
  have hrun : (fun b => ((Mangle.renameIn iterPrefix accuPrefix w.root []).run []).run' b) =
      fun b => (Walks.start (Mangle.renameIn iterPrefix accuPrefix w.root []) b ([], ())).map
        (fun r => (r.1, r.2.2.1)) := by
    funext b
    change Prod.fst <$> Mangle.renameIn iterPrefix accuPrefix w.root [] [] b =
      (((Mangle.renameIn iterPrefix accuPrefix w.root [] [] b).map _).map _).map _
    cases Mangle.renameIn iterPrefix accuPrefix w.root [] [] b <;> rfl
  have hwalk : HasPrice
      (fun b => ((Mangle.renameIn iterPrefix accuPrefix w.root []).run []).run' b) := by
    rw [hrun]
    have hmetered := Mangle.metered_renameIn iterPrefix accuPrefix w.root []
    exact hmetered.hasPrice ([], ()) (fun e t => (e, t.1))
  refine hwalk.bind fun r => ?_
  by_cases hempty : r.2.isEmpty
  · simp only [if_pos hempty]
    exact .ok _
  · simp only [if_neg hempty]
    exact (Workspace.hasPrice_rederiveKeeping w.source.macroCalls r.1).bind fun _ => .ok _

/-- The budget decides whether an edit succeeds and nothing else. What succeeds with some budget
succeeds with every larger one, with the same ids and the same metadata, and no edit needs more than
some budget of its own. -/
theorem Workspace.edits_budgetOnly :
    (∀ host e target, BudgetOnly (fun b => replace b host e target)) ∧
    (∀ host donor target, BudgetOnly (fun b => replaceBy b host donor target)) ∧
    (∀ host name init result target populate,
      BudgetOnly (fun b => replaceByBind b host name init result target populate)) ∧
    (∀ w iterPrefix accuPrefix, BudgetOnly (fun b => mangle b w iterPrefix accuPrefix)) ∧
    (∀ w, BudgetOnly (fun b => renumber b w)) ∧
    (∀ function args, BudgetOnly (fun b => globalCall b function args)) ∧
    (∀ target function args, BudgetOnly (fun b => memberCall b target function args)) := by
  refine ⟨?_, ?_, ?_, ?_, ?_, ?_, ?_⟩
  · exact fun host e target => (hasPrice_replaceBy host (.ofExpr e) target).budgetOnly
  · exact fun host donor target => (hasPrice_replaceBy host donor target).budgetOnly
  · exact fun host name init result target populate =>
      (hasPrice_replaceByBind host name init result target populate).budgetOnly
  · exact fun w iterPrefix accuPrefix => (hasPrice_mangle w iterPrefix accuPrefix).budgetOnly
  · exact fun w => (hasPrice_renumber w).budgetOnly
  · exact fun function args => (hasPrice_assembleCall none function args).budgetOnly
  · exact fun target function args => (hasPrice_assembleCall (some target) function args).budgetOnly

/-- A binding in the place of a single node visits eight nodes when it is put in. -/
theorem Workspace.edits_budgetOnly_bind :
    let host := ofExpr ⟨⟨1⟩, .ident ⟨"x"⟩⟩
    let run := fun b => replaceByBind b host "v" ⟨⟨0⟩, .constant (.int 7)⟩ host.root ⟨1⟩ true
    (∀ w, run 7 ≠ .ok w) ∧ ∃ w, run 8 = .ok w ∧ ∀ b, 8 ≤ b → run b = .ok w := by
  intro host run
  have hnone : (run 7).toOption = none := by decide +kernel
  have hsome : (run 8).toOption.isSome := by decide +kernel
  constructor
  · intro w hw
    rw [hw] at hnone
    cases hnone
  · obtain ⟨w, hw⟩ := Option.isSome_iff_exists.1 hsome
    rw [except_toOption_eq_some] at hw
    have honly := edits_budgetOnly.2.2.1 host "v" ⟨⟨0⟩, .constant (.int 7)⟩ host.root ⟨1⟩ true
    exact ⟨w, hw, fun b hb => honly.same hb hw⟩

end CelEdit
