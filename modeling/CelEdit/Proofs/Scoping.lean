import CelEdit.Proofs.Mangling
import Mathlib.Data.List.Nodup

/-!
# Scopes

Which variable an identifier refers to, and that mangling does not change it. The range and the
initial value of a comprehension belong to the scope around it; the accumulator is bound in the
condition, the step and the result, and the iteration variable in the condition and the step.
-/

namespace CelEdit

/-- What an identifier refers to: a variable of the comprehension with an ordinal in pre-order, or a
free variable. -/
inductive Reference where
  | iter (ordinal : Nat)
  | accu (ordinal : Nat)
  | free (name : String)
deriving DecidableEq

/-- A tree whose identifiers are resolved: of the names only those of free variables are left. -/
structure Resolved where
  id : NodeId
  reference : Option Reference
  kind : Kind Resolved

instance : Inhabited Resolved := ⟨⟨.unset, none, .notSet⟩⟩

/-- The bound names with what they refer to, the innermost first. -/
abbrev Scope := List (String × Reference)

namespace Expr

/-- Resolves a tree inside of a scope. The state is the next ordinal. -/
def resolveIn : Expr → Scope → StateM Nat Resolved :=
  fold fun id k scope =>
    match k with
    | .ident i => pure ⟨id, some ((scope.lookup i.name).getD (.free i.name)), .ident ⟨""⟩⟩
    | .comprehension c => do
      let ordinal ← get
      set (ordinal + 1)
      let iterRange ← c.iterRange.2 scope
      let accuInit ← c.accuInit.2 scope
      let withAccu := (c.accuVar, .accu ordinal) :: scope
      let withIter := (c.iterVar, .iter ordinal) :: withAccu
      let loopCondition ← c.loopCondition.2 withIter
      let loopStep ← c.loopStep.2 withIter
      let result ← c.result.2 withAccu
      pure ⟨id, none,
        .comprehension ⟨"", iterRange, "", accuInit, loopCondition, loopStep, result⟩⟩
    | k => do
      let k ← k.traverse (fun child => child.2 scope)
      pure ⟨id, none, k⟩

/-- The tree with every identifier resolved to its binder. -/
def resolve (e : Expr) : Resolved := ((e.resolveIn []).run 0).1

/-- The names of the variables that are not bound in the tree. -/
def freeNames : Expr → List String :=
  fold fun _ k =>
    match k with
    | .ident i => [i.name]
    | .comprehension c =>
      c.iterRange.2 ++ c.accuInit.2 ++
        (c.loopCondition.2 ++ c.loopStep.2).filter (fun x => x ≠ c.iterVar ∧ x ≠ c.accuVar) ++
        c.result.2.filter (fun x => x ≠ c.accuVar)
    | k => k.children.flatMap Prod.snd

/-- The comprehensions of a tree in pre-order. -/
def comprehensions (e : Expr) : List (Comprehension Expr) :=
  e.preorder.filterMap fun n =>
    match n.kind with
    | .comprehension c => some c
    | _ => none

/-- The names of all iteration variables and accumulators. -/
def boundNames (e : Expr) : List String :=
  e.comprehensions.flatMap fun c => [c.iterVar, c.accuVar]

section Equations

variable {id : NodeId} {k : Kind Expr} {scope : Scope}

lemma resolveIn_ident (i : Ident) :
    resolveIn ⟨id, .ident i⟩ scope =
      pure ⟨id, some ((scope.lookup i.name).getD (.free i.name)), .ident ⟨""⟩⟩ := by
  unfold resolveIn
  rw [fold_eq]
  rfl

lemma resolveIn_comprehension (c : Comprehension Expr) :
    resolveIn ⟨id, .comprehension c⟩ scope = (do
      let ordinal ← get
      set (ordinal + 1)
      let iterRange ← resolveIn c.iterRange scope
      let accuInit ← resolveIn c.accuInit scope
      let withAccu := (c.accuVar, .accu ordinal) :: scope
      let withIter := (c.iterVar, .iter ordinal) :: withAccu
      let loopCondition ← resolveIn c.loopCondition withIter
      let loopStep ← resolveIn c.loopStep withIter
      let result ← resolveIn c.result withAccu
      pure ⟨id, none,
        .comprehension ⟨"", iterRange, "", accuInit, loopCondition, loopStep, result⟩⟩) := by
  conv_lhs => unfold resolveIn
  rw [fold_eq]
  rfl

lemma resolveIn_of_tag_ne (hident : k.tag ≠ .ident) (hcomprehension : k.tag ≠ .comprehension) :
    resolveIn ⟨id, k⟩ scope = (do
      let k ← (k.mapChildren (fun c => (c, resolveIn c))).traverse (fun child => child.2 scope)
      pure ⟨id, none, k⟩) := by
  conv_lhs => unfold resolveIn
  rw [fold_eq]
  cases k with
  | ident i => exact absurd rfl hident
  | comprehension c => exact absurd rfl hcomprehension
  | _ => rfl

lemma freeNames_ident (i : Ident) : freeNames ⟨id, .ident i⟩ = [i.name] := by
  unfold freeNames
  rw [fold_eq]
  rfl

lemma freeNames_comprehension (c : Comprehension Expr) :
    freeNames ⟨id, .comprehension c⟩ =
      c.iterRange.freeNames ++ c.accuInit.freeNames ++
        (c.loopCondition.freeNames ++ c.loopStep.freeNames).filter
          (fun x => x ≠ c.iterVar ∧ x ≠ c.accuVar) ++
        c.result.freeNames.filter (fun x => x ≠ c.accuVar) := by
  conv_lhs => unfold freeNames
  rw [fold_eq]
  rfl

lemma freeNames_of_tag_ne (hident : k.tag ≠ .ident) (hcomprehension : k.tag ≠ .comprehension) :
    freeNames ⟨id, k⟩ = k.children.flatMap freeNames := by
  conv_lhs => unfold freeNames
  rw [fold_eq]
  have hchildren : (k.mapChildren (fun c => (c, freeNames c))).children.flatMap Prod.snd =
      k.children.flatMap freeNames := by
    rw [children_paired, List.flatMap_map]
  rw [← hchildren]
  cases k with
  | ident i => exact absurd rfl hident
  | comprehension c => exact absurd rfl hcomprehension
  | _ => rfl

lemma comprehensions_of_tag_ne (hcomprehension : k.tag ≠ .comprehension) :
    comprehensions ⟨id, k⟩ = k.children.flatMap comprehensions := by
  rw [comprehensions, preorder_mk, List.filterMap_cons, List.filterMap_flatMap]
  cases k with
  | comprehension c => exact absurd rfl hcomprehension
  | _ => rfl

lemma comprehensions_comprehension (c : Comprehension Expr) :
    comprehensions ⟨id, .comprehension c⟩ =
      c :: (c.iterRange.comprehensions ++ (c.accuInit.comprehensions ++
        (c.loopCondition.comprehensions ++ (c.loopStep.comprehensions ++
          c.result.comprehensions)))) := by
  rw [comprehensions, preorder_mk, List.filterMap_cons, List.filterMap_flatMap]
  simp only [Kind.children, List.flatMap_cons, List.flatMap_nil, List.append_nil]
  rfl

end Equations

end Expr

namespace Mangle

open Runs CelEdit.Expr

lemma nameAt_inj {label : String} {j k : Nat} (h : nameAt label j = nameAt label k) : j = k := by
  have hdigits : Nat.toDigits 10 j = Nat.toDigits 10 k :=
    String.ofList_injective ((String.append_right_inj label).1 h)
  have hvalue := congrArg (fun l => Nat.ofDigitChars 10 l 0) hdigits
  simpa only [Nat.ofDigitChars_ten_toDigits] using hvalue

variable {iterPrefix accuPrefix : String} {scopes : Scopes} {id : NodeId} {e e' : Expr}

/-! ### Induction over a pass -/

/-- What holds of a pass by its three cases, where of the state only the number of records matters,
which is the next ordinal. -/
theorem renameIn_induct {P : Expr → Scopes → Nat → Expr → Nat → Prop}
    (ident : ∀ id i scopes n,
      P ⟨id, .ident i⟩ scopes n ⟨id, .ident ⟨(scopes.lookup i.name).getD i.name⟩⟩ n)
    (comprehension : ∀ id (c : Comprehension Expr) scopes n range init condition step result
      n₁ n₂ n₃ n₄ m, P c.iterRange scopes (n + 1) range n₁ → P c.accuInit scopes n₁ init n₂ →
      P c.loopCondition ((c.iterVar, nameAt iterPrefix n) :: (c.accuVar, nameAt accuPrefix n) :: scopes)
        n₂ condition n₃ →
      P c.loopStep ((c.iterVar, nameAt iterPrefix n) :: (c.accuVar, nameAt accuPrefix n) :: scopes)
        n₃ step n₄ →
      P c.result ((c.accuVar, nameAt accuPrefix n) :: scopes) n₄ result m →
      P ⟨id, .comprehension c⟩ scopes n ⟨id, .comprehension
        ⟨nameAt iterPrefix n, range, nameAt accuPrefix n, init, condition, step, result⟩⟩ m)
    (other : ∀ id (k k' : Kind Expr) scopes n m, k.tag ≠ .ident → k.tag ≠ .comprehension →
      k'.shape = k.shape → Thread (fun c => P c scopes) k.children n k'.children m →
      P ⟨id, k⟩ scopes n ⟨id, k'⟩ m)
    {u v : List VariableRenaming × Nat}
    (h : Ends (renameIn iterPrefix accuPrefix e scopes) u e' v) :
    P e scopes u.1.length e' v.1.length := by
  refine pass_induct (P := fun e scopes u e' v => P e scopes u.1.length e' v.1.length)
    (fun _ _ _ _ _ => ident ..) ?comprehension ?other h
  case comprehension =>
    intro id c scopes records b r range init condition step result u₁ u₂ u₃ u₄ v hr hrange hinit
      hcondition hstep hresult
    subst hr
    rw [List.length_append] at hrange
    exact comprehension _ _ _ _ _ _ _ _ _ _ _ _ _ _ hrange hinit hcondition hstep hresult
  case other =>
    intro id k k' scopes records b v hident hcomprehension hshape hthread
    exact other _ _ _ _ _ _ hident hcomprehension hshape
      (hthread.imp (fun u => u.1.length) (fun _ _ _ _ _ h => h))

/-! ### The new names -/

/-- The names of the variables with the ordinals from `n` on. -/
def namesFrom (iterPrefix accuPrefix : String) (n count : Nat) : List String :=
  (List.range' n count).flatMap fun k => [nameAt iterPrefix k, nameAt accuPrefix k]

lemma namesFrom_append (n j k : Nat) :
    namesFrom iterPrefix accuPrefix n j ++ namesFrom iterPrefix accuPrefix (n + j) k =
      namesFrom iterPrefix accuPrefix n (j + k) := by
  rw [namesFrom, namesFrom, namesFrom, ← List.flatMap_append, List.range'_append_1]

/-- The comprehensions `cs'` have the names of the ordinals from `n` up to `m`, one ordinal for each
of `cs`. -/
def Numbers (iterPrefix accuPrefix : String) (cs cs' : List (Comprehension Expr)) (n m : Nat) : Prop :=
  m = n + cs.length ∧
    cs'.flatMap (fun c => [c.iterVar, c.accuVar]) = namesFrom iterPrefix accuPrefix n cs.length

lemma Numbers.append {cs cs' ds ds' : List (Comprehension Expr)} {n m l : Nat}
    (hcs : Numbers iterPrefix accuPrefix cs cs' n m) (hds : Numbers iterPrefix accuPrefix ds ds' m l) :
    Numbers iterPrefix accuPrefix (cs ++ ds) (cs' ++ ds') n l := by
  obtain ⟨rfl, hcs⟩ := hcs
  obtain ⟨rfl, hds⟩ := hds
  refine ⟨by rw [List.length_append, Nat.add_assoc], ?_⟩
  rw [List.flatMap_append, hcs, hds, namesFrom_append, List.length_append]

lemma numbers_thread {cs cs' : List Expr} {n m : Nat}
    (h : Thread (fun c n c' m => Numbers iterPrefix accuPrefix c.comprehensions c'.comprehensions n m)
      cs n cs' m) :
    Numbers iterPrefix accuPrefix (cs.flatMap comprehensions) (cs'.flatMap comprehensions) n m := by
  induction h with
  | nil => exact ⟨rfl, rfl⟩
  | cons head _ ih =>
    rw [List.flatMap_cons, List.flatMap_cons]
    exact head.append ih

/-- A pass numbers the comprehensions in pre-order. -/
theorem numbers_renameIn {u v : List VariableRenaming × Nat}
    (h : Ends (renameIn iterPrefix accuPrefix e scopes) u e' v) :
    Numbers iterPrefix accuPrefix e.comprehensions e'.comprehensions u.1.length v.1.length := by
  refine renameIn_induct
    (P := fun e _ n e' m => Numbers iterPrefix accuPrefix e.comprehensions e'.comprehensions n m)
    ?ident ?comprehension ?other h
  case ident =>
    intro id i scopes n
    exact ⟨rfl, rfl⟩
  case comprehension =>
    intro id c scopes n range init condition step result n₁ n₂ n₃ n₄ m hrange hinit hcondition hstep
      hresult
    have hrest := hrange.append (hinit.append (hcondition.append (hstep.append hresult)))
    rw [comprehensions_comprehension, comprehensions_comprehension]
    refine ⟨?_, ?_⟩
    · have hm := hrest.1
      rw [List.length_cons]
      omega
    · rw [List.flatMap_cons, hrest.2, List.length_cons]
      rfl
  case other =>
    intro id k k' scopes n m _ hcomprehension hshape hthread
    have htag : k'.tag ≠ .comprehension := by
      rwa [Kind.tag_eq_of_outline_eq (Kind.outline_eq_of_shape_eq hshape)]
    rw [comprehensions_of_tag_ne hcomprehension, comprehensions_of_tag_ne htag]
    exact numbers_thread hthread

/-- No two variables with ordinals below `n` have a name in common. -/
lemma nodup_namesFrom {n : Nat}
    (hapart : ∀ j < n, ∀ k < n, nameAt iterPrefix j ≠ nameAt accuPrefix k) :
    (namesFrom iterPrefix accuPrefix 0 n).Nodup := by
  have hbelow : ∀ k ∈ List.range' 0 n, k < n := by
    intro k hk
    have := List.mem_range'_1.1 hk
    omega
  rw [namesFrom, List.nodup_flatMap]
  refine ⟨fun k hk => ?_, ?_⟩
  · simpa using hapart k (hbelow k hk) k (hbelow k hk)
  · refine List.Pairwise.imp_of_mem (fun {j k} hj hk hjk => ?_) (List.nodup_range' 1)
    have hjk' := hapart j (hbelow j hj) k (hbelow k hk)
    have hkj := hapart k (hbelow k hk) j (hbelow j hj)
    have hiter : nameAt iterPrefix j ≠ nameAt iterPrefix k := fun h => hjk (nameAt_inj h)
    have haccu : nameAt accuPrefix j ≠ nameAt accuPrefix k := fun h => hjk (nameAt_inj h)
    simp [Function.onFun, hjk'.symm, hkj, hiter.symm, haccu.symm]

/-! ### References -/

/-- The name by which a reference is written after mangling. -/
def nameOf (iterPrefix accuPrefix : String) : Reference → String
  | .iter k => nameAt iterPrefix k
  | .accu k => nameAt accuPrefix k
  | .free x => x

/-- The reference is a variable of one of the first `n` comprehensions. -/
def BoundBelow (n : Nat) : Reference → Prop
  | .iter k => k < n
  | .accu k => k < n
  | .free _ => False

lemma nameOf_inj {n : Nat} (hapart : ∀ j < n, ∀ k < n, nameAt iterPrefix j ≠ nameAt accuPrefix k)
    {r r' : Reference} (hr : BoundBelow n r) (hr' : BoundBelow n r')
    (h : nameOf iterPrefix accuPrefix r = nameOf iterPrefix accuPrefix r') : r = r' := by
  cases r with
  | free x => exact hr.elim
  | iter j =>
    cases r' with
    | free x => exact hr'.elim
    | iter k => rw [nameAt_inj h]
    | accu k => exact absurd h (hapart j hr k hr')
  | accu j =>
    cases r' with
    | free x => exact hr'.elim
    | iter k => exact absurd h.symm (hapart k hr' j hr)
    | accu k => rw [nameAt_inj h]

variable {f : Reference → String} {Γ : Scope} {x : String}

lemma lookup_written (f : Reference → String) (Γ : Scope) (x : String) :
    (Γ.map fun b => (b.1, f b.2)).lookup x = (Γ.lookup x).map f := by
  induction Γ with
  | nil => rfl
  | cons b Γ ih =>
    rw [List.map_cons, List.lookup_cons, List.lookup_cons, ih]
    cases x == b.1 <;> rfl

lemma mem_of_lookup {r : Reference} (h : Γ.lookup x = some r) : ∃ b ∈ Γ, b.2 = r := by
  induction Γ with
  | nil => cases h
  | cons b Γ ih =>
    rw [List.lookup_cons] at h
    cases hx : x == b.1 with
    | true =>
      rw [hx] at h
      exact ⟨b, List.mem_cons_self, Option.some.inj h⟩
    | false =>
      rw [hx] at h
      obtain ⟨b', hb', hr⟩ := ih h
      exact ⟨b', List.mem_cons_of_mem _ hb', hr⟩

/-- Where no two references are written alike, a written name is read back as its reference. -/
lemma lookup_read {r : Reference} (hinj : ∀ b ∈ Γ, f r = f b.2 → b.2 = r) (hr : ∃ b ∈ Γ, b.2 = r) :
    (Γ.map fun b => (f b.2, b.2)).lookup (f r) = some r := by
  induction Γ with
  | nil =>
    obtain ⟨_, hb, -⟩ := hr
    cases hb
  | cons b Γ ih =>
    rw [List.map_cons, List.lookup_cons]
    by_cases hb : f r = f b.2
    · rw [beq_iff_eq.2 hb, hinj b List.mem_cons_self hb]
    · rw [beq_eq_false_iff_ne.2 hb]
      refine ih (fun b' hb' => hinj b' (List.mem_cons_of_mem _ hb')) ?_
      obtain ⟨b', hb', rfl⟩ := hr
      rcases List.mem_cons.1 hb' with rfl | hb'
      · exact absurd rfl hb
      · exact ⟨b', hb', rfl⟩

lemma lookup_read_eq_none (h : ∀ b ∈ Γ, x ≠ f b.2) :
    (Γ.map fun b => (f b.2, b.2)).lookup x = none := by
  induction Γ with
  | nil => rfl
  | cons b Γ ih =>
    rw [List.map_cons, List.lookup_cons, beq_eq_false_iff_ne.2 (h b List.mem_cons_self)]
    exact ih (fun b' hb' => h b' (List.mem_cons_of_mem _ hb'))

/-- In the tree after mangling, an identifier resolves as before. -/
lemma lookup_mangled {n : Nat} (hapart : ∀ j < n, ∀ k < n, nameAt iterPrefix j ≠ nameAt accuPrefix k)
    (hΓ : ∀ b ∈ Γ, BoundBelow n b.2)
    (hfresh : Γ.lookup x = none → ∀ r, BoundBelow n r → x ≠ nameOf iterPrefix accuPrefix r) :
    let y := ((Γ.map fun b => (b.1, nameOf iterPrefix accuPrefix b.2)).lookup x).getD x
    ((Γ.map fun b => (nameOf iterPrefix accuPrefix b.2, b.2)).lookup y).getD (.free y) =
      (Γ.lookup x).getD (.free x) := by
  intro y
  cases hx : Γ.lookup x with
  | none =>
    have hy : y = x := by
      simp only [y, lookup_written, hx, Option.map_none, Option.getD_none]
    rw [hy, lookup_read_eq_none (fun b hb => hfresh hx b.2 (hΓ b hb))]
  | some r =>
    have hy : y = nameOf iterPrefix accuPrefix r := by
      simp only [y, lookup_written, hx, Option.map_some, Option.getD_some]
    obtain ⟨b₀, hb₀, hr⟩ := mem_of_lookup hx
    have hbound : BoundBelow n r := hr ▸ hΓ b₀ hb₀
    rw [hy, lookup_read (fun b hb h => (nameOf_inj hapart hbound (hΓ b hb) h).symm) ⟨b₀, hb₀, hr⟩,
      Option.getD_some, Option.getD_some]

/-! ### Resolution -/

/-- The free names of a tree inside of a scope are not among the first `n` new names. -/
def Fresh (iterPrefix accuPrefix : String) (n : Nat) (Γ : Scope) (e : Expr) : Prop :=
  ∀ x ∈ e.freeNames, Γ.lookup x = none → ∀ r, BoundBelow n r → x ≠ nameOf iterPrefix accuPrefix r

/-- From ordinal `n` on, the trees `e` and `e'` resolve alike: `e` in a scope `Γ`, and `e'` where the
variables of `Γ` have their new names. -/
def ResolveAlike (iterPrefix accuPrefix : String) (total : Nat) (e : Expr) (scopes : Scopes) (n : Nat)
    (e' : Expr) (m : Nat) : Prop :=
  n ≤ m ∧ (m ≤ total → ∀ Γ : Scope, scopes = Γ.map (fun b => (b.1, nameOf iterPrefix accuPrefix b.2)) →
    (∀ b ∈ Γ, BoundBelow total b.2) → Fresh iterPrefix accuPrefix total Γ e →
    ∃ r, Ends (e.resolveIn Γ) n r m ∧
      Ends (e'.resolveIn (Γ.map fun b => (nameOf iterPrefix accuPrefix b.2, b.2))) n r m)

variable {total n m : Nat}

lemma resolveAlike_thread {cs cs' : List Expr}
    (h : Thread (fun c => ResolveAlike iterPrefix accuPrefix total c scopes) cs n cs' m) :
    n ≤ m ∧ (m ≤ total → ∀ Γ : Scope, scopes = Γ.map (fun b => (b.1, nameOf iterPrefix accuPrefix b.2)) →
      (∀ b ∈ Γ, BoundBelow total b.2) → (∀ c ∈ cs, Fresh iterPrefix accuPrefix total Γ c) →
      ∃ rs, Thread (fun c => Ends (c.resolveIn Γ)) cs n rs m ∧
        Thread (fun c => Ends (c.resolveIn (Γ.map fun b => (nameOf iterPrefix accuPrefix b.2, b.2))))
          cs' n rs m) := by
  induction h with
  | nil s => exact ⟨Nat.le_refl s, fun _ _ _ _ _ => ⟨[], .nil s, .nil s⟩⟩
  | cons head _ ih =>
    refine ⟨Nat.le_trans head.1 ih.1, ?_⟩
    intro htotal Γ hscopes hΓ hfresh
    obtain ⟨r, hr, hr'⟩ := head.2 (Nat.le_trans ih.1 htotal) Γ hscopes hΓ (hfresh _ List.mem_cons_self)
    obtain ⟨rs, hrs, hrs'⟩ := ih.2 htotal Γ hscopes hΓ (fun c hc => hfresh c (List.mem_cons_of_mem _ hc))
    exact ⟨r :: rs, .cons hr hrs, .cons hr' hrs'⟩

section Comprehension

variable {c : Comprehension Expr}

lemma Fresh.iterRange (h : Fresh iterPrefix accuPrefix total Γ ⟨id, .comprehension c⟩) :
    Fresh iterPrefix accuPrefix total Γ c.iterRange := by
  intro x hx
  apply h x
  simp [freeNames_comprehension, hx]

lemma Fresh.accuInit (h : Fresh iterPrefix accuPrefix total Γ ⟨id, .comprehension c⟩) :
    Fresh iterPrefix accuPrefix total Γ c.accuInit := by
  intro x hx
  apply h x
  simp [freeNames_comprehension, hx]

lemma lookup_cons_eq_none {b : String × Reference} :
    List.lookup x (b :: Γ) = none ↔ x ≠ b.1 ∧ Γ.lookup x = none := by
  rw [List.lookup_cons]
  by_cases hx : x = b.1
  · rw [beq_iff_eq.2 hx]
    exact ⟨fun h => (Option.some_ne_none _ h).elim, fun h => absurd hx h.1⟩
  · rw [beq_eq_false_iff_ne.2 hx]
    exact (and_iff_right hx).symm

lemma Fresh.result (h : Fresh iterPrefix accuPrefix total Γ ⟨id, .comprehension c⟩) :
    Fresh iterPrefix accuPrefix total ((c.accuVar, .accu n) :: Γ) c.result := by
  intro x hx hnone
  obtain ⟨haccu, hnone⟩ := lookup_cons_eq_none.1 hnone
  apply h x _ hnone
  simp [freeNames_comprehension, hx, haccu]

lemma Fresh.loop (h : Fresh iterPrefix accuPrefix total Γ ⟨id, .comprehension c⟩)
    (he : e = c.loopCondition ∨ e = c.loopStep) :
    Fresh iterPrefix accuPrefix total ((c.iterVar, .iter n) :: (c.accuVar, .accu n) :: Γ) e := by
  intro x hx hnone
  obtain ⟨hiter, hnone⟩ := lookup_cons_eq_none.1 hnone
  obtain ⟨haccu, hnone⟩ := lookup_cons_eq_none.1 hnone
  apply h x _ hnone
  have hmem : x ∈ c.loopCondition.freeNames ∨ x ∈ c.loopStep.freeNames := by
    rcases he with rfl | rfl
    · exact .inl hx
    · exact .inr hx
  simp only [freeNames_comprehension, List.mem_append, List.mem_filter, decide_eq_true_eq]
  exact .inl (.inr ⟨hmem, hiter, haccu⟩)

/-- A comprehension resolves as before when its parts do, each in its own scope. -/
lemma resolveAlike_comprehension {range init condition step result : Expr} {n₁ n₂ n₃ n₄ : Nat}
    (hrange : ResolveAlike iterPrefix accuPrefix total c.iterRange scopes (n + 1) range n₁)
    (hinit : ResolveAlike iterPrefix accuPrefix total c.accuInit scopes n₁ init n₂)
    (hcondition : ResolveAlike iterPrefix accuPrefix total c.loopCondition
      ((c.iterVar, nameAt iterPrefix n) :: (c.accuVar, nameAt accuPrefix n) :: scopes) n₂ condition n₃)
    (hstep : ResolveAlike iterPrefix accuPrefix total c.loopStep
      ((c.iterVar, nameAt iterPrefix n) :: (c.accuVar, nameAt accuPrefix n) :: scopes) n₃ step n₄)
    (hresult : ResolveAlike iterPrefix accuPrefix total c.result
      ((c.accuVar, nameAt accuPrefix n) :: scopes) n₄ result m) :
    ResolveAlike iterPrefix accuPrefix total ⟨id, .comprehension c⟩ scopes n ⟨id, .comprehension
      ⟨nameAt iterPrefix n, range, nameAt accuPrefix n, init, condition, step, result⟩⟩ m := by
  have h₁ := hrange.1
  have h₂ := hinit.1
  have h₃ := hcondition.1
  have h₄ := hstep.1
  have h₅ := hresult.1
  refine ⟨by omega, ?_⟩
  rintro htotal Γ rfl hΓ hfresh
  have hn : n < total := by omega
  have hΓaccu : ∀ b ∈ (c.accuVar, Reference.accu n) :: Γ, BoundBelow total b.2 :=
    List.forall_mem_cons.2 ⟨hn, hΓ⟩
  have hΓiter : ∀ b ∈ (c.iterVar, Reference.iter n) :: (c.accuVar, Reference.accu n) :: Γ,
      BoundBelow total b.2 :=
    List.forall_mem_cons.2 ⟨hn, hΓaccu⟩
  obtain ⟨r₁, e₁, e₁'⟩ := hrange.2 (by omega) Γ rfl hΓ hfresh.iterRange
  obtain ⟨r₂, e₂, e₂'⟩ := hinit.2 (by omega) Γ rfl hΓ hfresh.accuInit
  obtain ⟨r₃, e₃, e₃'⟩ := hcondition.2 (by omega) _ rfl hΓiter (hfresh.loop (.inl rfl))
  obtain ⟨r₄, e₄, e₄'⟩ := hstep.2 (by omega) _ rfl hΓiter (hfresh.loop (.inr rfl))
  obtain ⟨r₅, e₅, e₅'⟩ := hresult.2 htotal _ rfl hΓaccu hfresh.result
  refine ⟨⟨id, none, .comprehension ⟨"", r₁, "", r₂, r₃, r₄, r₅⟩⟩, ?_, ?_⟩
  all_goals
    simp only [resolveIn_comprehension, ends_bind, ends_pure, ends_get, ends_set]
  · exact ⟨n, n, ⟨rfl, rfl⟩, ⟨⟩, n + 1, rfl, r₁, n₁, e₁, r₂, n₂, e₂, r₃, n₃, e₃, r₄, n₄, e₄, r₅, m, e₅,
      rfl, rfl⟩
  · exact ⟨n, n, ⟨rfl, rfl⟩, ⟨⟩, n + 1, rfl, r₁, n₁, e₁', r₂, n₂, e₂', r₃, n₃, e₃', r₄, n₄, e₄', r₅, m,
      e₅', rfl, rfl⟩

end Comprehension

/-- A node that binds nothing resolves as before when its children do. -/
lemma resolveAlike_of_tag_ne {k k' : Kind Expr} (hident : k.tag ≠ .ident)
    (hcomprehension : k.tag ≠ .comprehension) (hshape : k'.shape = k.shape)
    (h : Thread (fun c => ResolveAlike iterPrefix accuPrefix total c scopes) k.children n k'.children m) :
    ResolveAlike iterPrefix accuPrefix total ⟨id, k⟩ scopes n ⟨id, k'⟩ m := by
  obtain ⟨hle, hrun⟩ := resolveAlike_thread h
  refine ⟨hle, ?_⟩
  intro htotal Γ hscopes hΓ hfresh
  have htag := Kind.tag_eq_of_outline_eq (Kind.outline_eq_of_shape_eq hshape)
  have hchildren : ∀ c ∈ k.children, Fresh iterPrefix accuPrefix total Γ c := by
    intro c hc x hx
    apply hfresh x
    rw [freeNames_of_tag_ne hident hcomprehension]
    exact List.mem_flatMap.2 ⟨c, hc, hx⟩
  obtain ⟨rs, hrs, hrs'⟩ := hrun htotal Γ hscopes hΓ hchildren
  obtain ⟨l, hl, hlrs⟩ : ∃ l : Kind Resolved, l.shape = k.shape ∧ l.children = rs := by
    refine ⟨(k.mapChildren (fun _ => default)).withChildren rs, ?_, Kind.children_withChildren ?_⟩
    · rw [Kind.shape_withChildren, Kind.shape_mapChildren]
    · rw [hrs.length_eq, Kind.children_mapChildren, List.length_map]
  refine ⟨⟨id, none, l⟩, ?_, ?_⟩
  · rw [resolveIn_of_tag_ne hident hcomprehension, ends_bind]
    refine ⟨l, m, (Kind.ends_traverse ..).2 ⟨?_, ?_⟩, (ends_pure ..).2 ⟨rfl, rfl⟩⟩
    · rw [Kind.shape_mapChildren, hl]
    · rw [Kind.children_mapChildren, Thread.map_left, hlrs]
      exact hrs
  · rw [resolveIn_of_tag_ne (htag ▸ hident) (htag ▸ hcomprehension), ends_bind]
    refine ⟨l, m, (Kind.ends_traverse ..).2 ⟨?_, ?_⟩, (ends_pure ..).2 ⟨rfl, rfl⟩⟩
    · rw [Kind.shape_mapChildren, hl, hshape]
    · rw [Kind.children_mapChildren, Thread.map_left, hlrs]
      exact hrs'

/-- A pass leaves every identifier with its binder. -/
theorem resolveAlike_renameIn
    (hapart : ∀ j < total, ∀ k < total, nameAt iterPrefix j ≠ nameAt accuPrefix k)
    {u v : List VariableRenaming × Nat}
    (h : Ends (renameIn iterPrefix accuPrefix e scopes) u e' v) :
    ResolveAlike iterPrefix accuPrefix total e scopes u.1.length e' v.1.length := by
  refine renameIn_induct (P := ResolveAlike iterPrefix accuPrefix total) ?ident ?comprehension ?other h
  case ident =>
    intro id i scopes n
    refine ⟨Nat.le_refl n, ?_⟩
    rintro - Γ rfl hΓ hfresh
    have hname := lookup_mangled hapart hΓ (hfresh i.name (by simp [freeNames_ident]))
    refine ⟨⟨id, some ((Γ.lookup i.name).getD (.free i.name)), .ident ⟨""⟩⟩, ?_, ?_⟩
    · rw [resolveIn_ident, ends_pure]
      exact ⟨rfl, rfl⟩
    · rw [resolveIn_ident, ends_pure, ← hname]
      exact ⟨rfl, rfl⟩
  case comprehension =>
    intro id c scopes n range init condition step result n₁ n₂ n₃ n₄ m hrange hinit hcondition hstep
      hresult
    exact resolveAlike_comprehension hrange hinit hcondition hstep hresult
  case other =>
    intro id k k' scopes n m hident hcomprehension hshape hthread
    exact resolveAlike_of_tag_ne hident hcomprehension hshape hthread

end Mangle

namespace Workspace

open Runs Mangle

/-- The mangled tree is that of a pass from the empty scope, and where there is nothing to mangle the
tree has no comprehension. -/
lemma exists_ends_of_mangle {budget : Nat} {w v : Workspace} {iterPrefix accuPrefix : String}
    {records : List VariableRenaming}
    (h : w.mangle budget iterPrefix accuPrefix = .ok (v, records)) :
    ∃ root b, Ends (renameIn iterPrefix accuPrefix w.root []) ([], budget) root (records, b) ∧
      (v.root = root ∨ v.root = w.root ∧ records = []) := by
  obtain ⟨root, b, hrun, ⟨rfl, rfl⟩ | ⟨-, calls, -, rfl⟩⟩ := mangle_eq_ok_iff.1 h
  · exact ⟨root, b, hrun, .inr ⟨rfl, rfl⟩⟩
  · exact ⟨root, b, hrun, .inl rfl⟩

/-- Mangling changes no binding. If the new names of iteration variables are not those of
accumulators and no free variable has a new name, every identifier of the mangled tree refers to what
it referred to before, and no name is bound twice. -/
theorem mangle_preserves_bindings {budget : Nat} {w v : Workspace} {iterPrefix accuPrefix : String}
    {records : List VariableRenaming}
    (hapart : ∀ j < w.root.comprehensions.length, ∀ k < w.root.comprehensions.length,
      nameAt iterPrefix j ≠ nameAt accuPrefix k)
    (hfree : ∀ x ∈ w.root.freeNames, ∀ k < w.root.comprehensions.length,
      x ≠ nameAt iterPrefix k ∧ x ≠ nameAt accuPrefix k)
    (h : w.mangle budget iterPrefix accuPrefix = .ok (v, records)) :
    v.root.resolve = w.root.resolve ∧ v.root.boundNames.Nodup := by
  obtain ⟨root, b, hrun, hv⟩ := exists_ends_of_mangle h
  obtain ⟨hlength, hnames⟩ := numbers_renameIn hrun
  obtain ⟨-, halike⟩ := resolveAlike_renameIn hapart hrun
  have hcount : records.length = w.root.comprehensions.length := by
    rw [hlength]
    exact Nat.zero_add _
  rcases hv with hv | ⟨hv, hrecords⟩
  · have hfresh : Fresh iterPrefix accuPrefix w.root.comprehensions.length [] w.root := by
      intro x hx _ r hr
      cases r with
      | iter k => exact (hfree x hx k hr).1
      | accu k => exact (hfree x hx k hr).2
      | free y => exact hr.elim
    obtain ⟨r, hr, hr'⟩ := halike (Nat.le_of_eq hcount) [] rfl (fun _ hb => nomatch hb) hfresh
    refine ⟨?_, ?_⟩
    · have hnew : v.root.resolve = r := by
        rw [hv]
        exact congrArg Prod.fst hr'
      have hold : w.root.resolve = r := congrArg Prod.fst hr
      rw [hnew, hold]
    · rw [Expr.boundNames, hv, hnames]
      exact nodup_namesFrom hapart
  · have hnone : w.root.comprehensions = [] := by
      rw [← List.length_eq_zero_iff, ← hcount, hrecords, List.length_nil]
    rw [hv]
    refine ⟨rfl, ?_⟩
    rw [Expr.boundNames, hnone]
    exact List.nodup_nil

/-- The old names are the new ones in another order: the inner variables hide the outer ones, and the
last comprehension has one name for both of its variables. -/
theorem mangle_preserves_bindings_permuted :
    let inner : Expr := ⟨⟨7⟩, .comprehension ⟨"i0", ⟨⟨8⟩, .ident ⟨"a1"⟩⟩, "a1", ⟨⟨9⟩, .ident ⟨"i0"⟩⟩,
      ⟨⟨10⟩, .ident ⟨"i0"⟩⟩, ⟨⟨11⟩, .ident ⟨"a1"⟩⟩, ⟨⟨12⟩, .ident ⟨"i0"⟩⟩⟩⟩
    let last : Expr := ⟨⟨13⟩, .comprehension ⟨"a0", ⟨⟨14⟩, .ident ⟨"xs"⟩⟩, "a0", ⟨⟨15⟩, .ident ⟨"i0"⟩⟩,
      ⟨⟨16⟩, .ident ⟨"a0"⟩⟩, ⟨⟨17⟩, .ident ⟨"a0"⟩⟩, ⟨⟨18⟩, .ident ⟨"a0"⟩⟩⟩⟩
    let w : Workspace := ⟨⟨⟨1⟩, .comprehension ⟨"a1", ⟨⟨2⟩, .ident ⟨"xs"⟩⟩, "i0", ⟨⟨3⟩, .ident ⟨"xs"⟩⟩,
      ⟨⟨4⟩, .ident ⟨"i0"⟩⟩, inner, last⟩⟩, SourceInfo.empty⟩
    (∀ j < w.root.comprehensions.length, ∀ k < w.root.comprehensions.length,
      nameAt "i" j ≠ nameAt "a" k) ∧
      (∀ x ∈ w.root.freeNames, ∀ k < w.root.comprehensions.length,
        x ≠ nameAt "i" k ∧ x ≠ nameAt "a" k) ∧
      ∃ v records, w.mangle 40 "i" "a" = .ok (v, records) ∧
        v.root.boundNames = ["i0", "a0", "i1", "a1", "i2", "a2"] ∧
        v.root.resolve = w.root.resolve ∧ v.root.boundNames.Nodup := by
  intro inner last w
  have hapart : ∀ j < w.root.comprehensions.length, ∀ k < w.root.comprehensions.length,
      nameAt "i" j ≠ nameAt "a" k := by decide +kernel
  have hfree : ∀ x ∈ w.root.freeNames, ∀ k < w.root.comprehensions.length,
      x ≠ nameAt "i" k ∧ x ≠ nameAt "a" k := by decide +kernel
  have hnames : (w.mangle 40 "i" "a").toOption.map (fun p => p.1.root.boundNames) =
      some ["i0", "a0", "i1", "a1", "i2", "a2"] := by decide +kernel
  cases hmangle : w.mangle 40 "i" "a" with
  | error err =>
    rw [hmangle] at hnames
    cases hnames
  | ok p =>
    rw [hmangle] at hnames
    have hbindings := mangle_preserves_bindings hapart hfree hmangle
    exact ⟨hapart, hfree, p.1, p.2, rfl, Option.some.inj hnames, hbindings⟩

end Workspace

end CelEdit
