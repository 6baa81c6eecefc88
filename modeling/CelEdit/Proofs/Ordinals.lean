import CelEdit.Proofs.Budgets
import CelEdit.Proofs.Walks

/-!
# Ordinals of comprehensions

A pass takes the next ordinal from the number of its records, so the records have the ordinals from
zero on. It enters the comprehensions in pre-order, which is the order in which a cursor visits them.
A pass pays for every node of the tree and needs nothing else, and deriving the macro calls pays for
every shadow whose key names a node.
-/

namespace CelEdit

open Runs CelEdit.Expr

namespace Visit

/-- The comprehension that is visited, with its id. -/
def comprehension? (v : Visit) : Option (NodeId × Comprehension Expr) :=
  match v.expr.kind with
  | .comprehension c => some (v.expr.id, c)
  | _ => none

/-- The comprehensions in the order in which a walk visits them. -/
def comprehensions (v : Visit) : List (NodeId × Comprehension Expr) :=
  v.preorder.filterMap comprehension?

lemma map_comprehensions (v : Visit) :
    v.comprehensions.map (fun b => (b.1, b.2.iterVar, b.2.accuVar)) = v.expr.binders := by
  rw [comprehensions, binders, ← map_expr_preorder, List.map_filterMap, List.filterMap_map]
  congr 1
  funext w
  obtain ⟨⟨id, k⟩, parent, depth⟩ := w
  cases k <;> rfl

lemma getElem?_comprehensions {v : Visit} {k : Nat} {id : NodeId} {iterVar accuVar : String}
    (h : v.expr.binders[k]? = some (id, iterVar, accuVar)) :
    ∃ c, v.comprehensions[k]? = some (id, c) ∧ c.iterVar = iterVar ∧ c.accuVar = accuVar := by
  rw [← map_comprehensions, List.getElem?_map, Option.map_eq_some_iff] at h
  obtain ⟨⟨id', c⟩, hc, hnames⟩ := h
  cases hnames
  exact ⟨c, hc, rfl, rfl⟩

lemma length_comprehensions (v : Visit) : v.comprehensions.length = v.expr.binders.length := by
  rw [← map_comprehensions, List.length_map]

end Visit

lemma Expr.add_nodeCount_mk (b : Nat) (id : NodeId) (k : Kind Expr) :
    b + nodeCount ⟨id, k⟩ = (k.children.map nodeCount).foldr (· + ·) b + 1 := by
  rw [nodeCount_mk, foldr_add _ 1, foldr_add _ b]
  omega

namespace Mangle

variable {iterPrefix accuPrefix : String} {scopes : Scopes} {e e' : Expr}
  {s t : List VariableRenaming × Nat} {records : List VariableRenaming}

/-! ### The ordinals of the records -/

/-- The new names are those of the ordinals from zero on. -/
def NamedInOrder (iterPrefix accuPrefix : String) (records : List VariableRenaming) : Prop :=
  ∀ k r, records[k]? = some r →
    r.newIterVar = nameAt iterPrefix k ∧ r.newAccuVar = nameAt accuPrefix k

lemma NamedInOrder.concat (h : NamedInOrder iterPrefix accuPrefix records) (id : NodeId)
    (c : Comprehension Expr) :
    NamedInOrder iterPrefix accuPrefix
      (records ++ [recordAt iterPrefix accuPrefix id c records.length]) := by
  intro k r hr
  rcases Nat.lt_trichotomy k records.length with hlt | rfl | hgt
  · rw [List.getElem?_append_left hlt] at hr
    exact h k r hr
  · rw [List.getElem?_concat_length, Option.some.injEq] at hr
    subst hr
    exact ⟨rfl, rfl⟩
  · rw [List.getElem?_eq_none (by simp; omega)] at hr
    cases hr

/-- A pass goes on with the ordinals where its records end. -/
theorem namedInOrder_renameIn (h : Ends (renameIn iterPrefix accuPrefix e scopes) s e' t)
    (hs : NamedInOrder iterPrefix accuPrefix s.1) : NamedInOrder iterPrefix accuPrefix t.1 := by
  refine pass_induct (P := fun _ _ s _ t => NamedInOrder iterPrefix accuPrefix s.1 →
    NamedInOrder iterPrefix accuPrefix t.1) ?ident ?comprehension ?other h hs
  case ident =>
    intro id i scopes records b hs
    exact hs
  case comprehension =>
    intro id c scopes records b r range init condition step result u₁ u₂ u₃ u₄ v hr hrange hinit
      hcondition hstep hresult hs
    subst hr
    exact hresult (hstep (hcondition (hinit (hrange (hs.concat id c)))))
  case other =>
    intro id k k' scopes records b v _ _ _ hthread
    exact hthread.preserves

/-! ### The price of a pass -/

lemma budget_thread {cs cs' : List Expr}
    (h : Thread (fun c s _ t => s.2 = t.2 + c.nodeCount) cs s cs' t) :
    s.2 = (cs.map nodeCount).foldr (· + ·) t.2 := by
  induction h with
  | nil => rfl
  | cons head _ ih => rw [List.map_cons, List.foldr_cons, ← ih, head, Nat.add_comm]

/-- A pass pays for each node. -/
theorem budget_renameIn (h : Ends (renameIn iterPrefix accuPrefix e scopes) s e' t) :
    s.2 = t.2 + e.nodeCount := by
  refine pass_induct (P := fun e _ s _ t => s.2 = t.2 + e.nodeCount) ?ident ?comprehension ?other h
  case ident =>
    intro id i scopes records b
    rw [add_nodeCount_mk]
    rfl
  case comprehension =>
    intro id c scopes records b r range init condition step result u₁ u₂ u₃ u₄ v _ hrange hinit
      hcondition hstep hresult
    rw [add_nodeCount_mk]
    simp only [Kind.children, List.map_cons, List.map_nil, List.foldr_cons, List.foldr_nil]
    dsimp only at hrange
    omega
  case other =>
    intro id k k' scopes records b v _ _ _ hthread
    rw [add_nodeCount_mk, ← budget_thread hthread]

lemma exists_thread_renameIn {cs : List Expr}
    (h : ∀ c ∈ cs, ∀ records b, ∃ c' records',
      Ends (renameIn iterPrefix accuPrefix c scopes) (records, b + c.nodeCount) c' (records', b))
    (records : List VariableRenaming) (b : Nat) :
    ∃ cs' records', Thread (fun c => Ends (renameIn iterPrefix accuPrefix c scopes)) cs
      (records, (cs.map nodeCount).foldr (· + ·) b) cs' (records', b) := by
  induction cs generalizing records with
  | nil => exact ⟨[], records, .nil _⟩
  | cons c cs ih =>
    rw [List.forall_mem_cons] at h
    obtain ⟨c', records₁, hc⟩ := h.1 records ((cs.map nodeCount).foldr (· + ·) b)
    obtain ⟨cs', records₂, hcs⟩ := ih h.2 records₁
    rw [Nat.add_comm] at hc
    exact ⟨c' :: cs', records₂, .cons hc hcs⟩

/-- A pass succeeds with a budget for all nodes, and what is beyond them is left. -/
theorem exists_renameIn (iterPrefix accuPrefix : String) (e : Expr) (scopes : Scopes)
    (records : List VariableRenaming) (b : Nat) :
    ∃ e' records',
      Ends (renameIn iterPrefix accuPrefix e scopes) (records, b + e.nodeCount) e' (records', b) := by
  induction e using induct generalizing scopes records b with
  | node id k ih =>
    rw [add_nodeCount_mk]
    by_cases hident : k.tag = .ident
    · cases k with
      | ident i => exact ⟨_, records, ends_renameIn_ident.2 ⟨rfl, rfl, rfl⟩⟩
      | _ => cases hident
    · by_cases hcomprehension : k.tag = .comprehension
      · cases k with
        | comprehension c =>
          simp only [Kind.children, List.forall_mem_cons, List.map_cons, List.map_nil,
            List.foldr_cons, List.foldr_nil] at ih ⊢
          obtain ⟨hrange, hinit, hcondition, hstep, hresult, -⟩ := ih
          -- each part leaves the budget for the parts after it
          let r := recordAt iterPrefix accuPrefix id c records.length
          let withAccu := (c.accuVar, r.newAccuVar) :: scopes
          let withIter := (c.iterVar, r.newIterVar) :: withAccu
          obtain ⟨range, records₁, hrange⟩ := hrange scopes (records ++ [r])
            (c.accuInit.nodeCount + (c.loopCondition.nodeCount + (c.loopStep.nodeCount +
              (c.result.nodeCount + b))))
          obtain ⟨init, records₂, hinit⟩ := hinit scopes records₁
            (c.loopCondition.nodeCount + (c.loopStep.nodeCount + (c.result.nodeCount + b)))
          obtain ⟨condition, records₃, hcondition⟩ := hcondition withIter records₂
            (c.loopStep.nodeCount + (c.result.nodeCount + b))
          obtain ⟨step, records₄, hstep⟩ := hstep withIter records₃ (c.result.nodeCount + b)
          obtain ⟨result, records₅, hresult⟩ := hresult withAccu records₄ b
          rw [Nat.add_comm _ (nodeCount _)] at hrange hinit hcondition hstep hresult
          exact ⟨_, records₅, ends_renameIn_comprehension.2 ⟨_, r, range, _, init, _, condition, _,
            step, _, result, rfl, rfl, hrange, hinit, hcondition, hstep, hresult, rfl⟩⟩
        | _ => cases hcomprehension
      · obtain ⟨cs, records', hthread⟩ :=
          exists_thread_renameIn (fun c hc => ih c hc scopes) records b
        have hchildren := Kind.children_withChildren (k := k) hthread.length_eq
        exact ⟨⟨id, k.withChildren cs⟩, records',
          (ends_renameIn_of_tag_ne hident hcomprehension).2 ⟨_, k.withChildren cs, rfl,
            Kind.shape_withChildren k cs, rfl, hchildren.symm ▸ hthread⟩⟩

end Mangle

namespace Workspace

open Mangle

variable {budget : Nat} {w v : Workspace} {iterPrefix accuPrefix : String}
  {records : List VariableRenaming}

/-- The records tell the comprehensions of the tree and of the result, in order. -/
lemma records_mangle (h : w.mangle budget iterPrefix accuPrefix = .ok (v, records)) :
    records.map before = w.root.binders ∧ records.map after = v.root.binders ∧
      NamedInOrder iterPrefix accuPrefix records := by
  obtain ⟨root, b, hrun, hcases⟩ := mangle_eq_ok_iff.1 h
  have hnamed : NamedInOrder iterPrefix accuPrefix records :=
    namedInOrder_renameIn hrun fun k r hr => (nomatch hr)
  obtain ⟨records', hall, holds, hnews⟩ := records_renameIn hrun
  obtain rfl : records = records' := hall
  refine ⟨holds, ?_, hnamed⟩
  obtain ⟨rfl, rfl⟩ | ⟨-, calls, -, rfl⟩ := hcases
  · exact holds
  · exact hnews

/-- What mangling pays for: the nodes of the tree, and if there is a comprehension the nodes of every
shadow whose key names a node. -/
def AffordsMangling (w : Workspace) (budget : Nat) : Prop :=
  w.root.nodeCount ≤ budget ∧ ((Visit.root w.root).comprehensions ≠ [] →
    ∀ entry ∈ w.source.macroCalls.entries,
      (∃ u ∈ (Visit.root w.root).preorder, u.expr.id = entry.1) → entry.2.nodeCount ≤ budget)

lemma names_node_iff {root root' : Expr} (h : root'.forgetNames = root.forgetNames) {key : NodeId} :
    (root'.nodesById.get? key).isSome ↔ ∃ u ∈ (Visit.root root).preorder, u.expr.id = key := by
  have hids := nodeIds_eq_of_forgetNames_eq h
  have hwalk : (∃ u ∈ (Visit.root root).preorder, u.expr.id = key) ↔ key ∈ root'.nodeIds := by
    have hnodes : (Visit.root root).preorder.map Visit.expr = root.preorder :=
      Visit.map_expr_preorder (.root root)
    rw [hids, nodeIds, ← hnodes, List.map_map, List.mem_map]
    rfl
  rw [hwalk, mem_nodeIds, Option.isSome_iff_exists]
  constructor
  · rintro ⟨n, hn⟩
    exact ⟨n, mem_of_nodesById hn⟩
  · rintro ⟨n, hn, rfl⟩
    exact exists_nodesById hn

/-- Mangling succeeds exactly when the budget pays for it. -/
theorem exists_mangle_iff :
    (∃ v records, w.mangle budget iterPrefix accuPrefix = .ok (v, records)) ↔
      w.AffordsMangling budget := by
  have hempty {root : Expr} {b : Nat} {records : List VariableRenaming}
      (h : Ends (renameIn iterPrefix accuPrefix w.root []) ([], budget) root (records, b)) :
      records = [] ↔ (Visit.root w.root).comprehensions = [] := by
    obtain ⟨records', hall, holds, -⟩ := records_renameIn h
    obtain rfl : records = records' := hall
    rw [← List.length_eq_zero_iff, ← List.length_eq_zero_iff, Visit.length_comprehensions]
    change _ ↔ w.root.binders.length = 0
    rw [← holds, List.length_map]
  constructor
  · rintro ⟨v, records, h⟩
    obtain ⟨root, b, hrun, hcases⟩ := mangle_eq_ok_iff.1 h
    have hpaid : budget = b + w.root.nodeCount := budget_renameIn hrun
    refine ⟨by omega, fun hsome entry hentry hnode => ?_⟩
    obtain ⟨rfl, -⟩ | ⟨-, calls, hcalls, -⟩ := hcases
    · exact absurd ((hempty hrun).1 rfl) hsome
    · exact (MacroCalls.rederiveKeeping_eq_ok_iff.1 hcalls).1 entry hentry
        ((names_node_iff (forgetNames_renameIn hrun)).2 hnode)
  · rintro ⟨hnodes, hshadows⟩
    obtain ⟨b, rfl⟩ := Nat.exists_eq_add_of_le' hnodes
    obtain ⟨root, records, hrun⟩ := exists_renameIn iterPrefix accuPrefix w.root [] [] b
    by_cases hrecords : records = []
    · subst hrecords
      exact ⟨w, [], mangle_eq_ok_iff.2 ⟨root, b, hrun, .inl ⟨rfl, rfl⟩⟩⟩
    · have hpaid := hshadows (mt (hempty hrun).2 hrecords)
      have hcalls := MacroCalls.rederiveKeeping_eq_ok_iff.2 ⟨fun entry hentry hnode =>
        hpaid entry hentry ((names_node_iff (forgetNames_renameIn hrun)).1 hnode), rfl⟩
      exact ⟨_, records, mangle_eq_ok_iff.2 ⟨root, b, hrun, .inr ⟨hrecords, _, hcalls, rfl⟩⟩⟩

/-- Mangling numbers the comprehensions in the order in which a walk visits them. There is one record
for each; the record at an ordinal has the id and the old names of the comprehension that is visited
at that place, and the comprehension that is visited there in the result has the prefixes with the
ordinal as its names. Mangling succeeds exactly when the budget pays for the tree and, if there is a
comprehension, for every shadow whose key names a node; otherwise the budget is exhausted. -/
theorem mangle_numbers_in_walk_order (w : Workspace) (iterPrefix accuPrefix : String)
    (budget : Nat) :
    (∀ v records, w.mangle budget iterPrefix accuPrefix = .ok (v, records) →
      records.length = (Visit.root w.root).comprehensions.length ∧
      (Visit.root v.root).comprehensions.length = records.length ∧
      ∀ k r, records[k]? = some r → ∃ c c',
        (Visit.root w.root).comprehensions[k]? = some (r.id, c) ∧
        r.oldIterVar = c.iterVar ∧ r.oldAccuVar = c.accuVar ∧
        (Visit.root v.root).comprehensions[k]? = some (r.id, c') ∧
        c'.iterVar = r.newIterVar ∧ c'.accuVar = r.newAccuVar ∧
        r.newIterVar = iterPrefix ++ String.ofList (Nat.toDigits 10 k) ∧
        r.newAccuVar = accuPrefix ++ String.ofList (Nat.toDigits 10 k)) ∧
    ((∃ v records, w.mangle budget iterPrefix accuPrefix = .ok (v, records)) ↔
      w.AffordsMangling budget) ∧
    (¬ w.AffordsMangling budget →
      w.mangle budget iterPrefix accuPrefix = .error .budgetExhausted) := by
  refine ⟨fun v records h => ?_, exists_mangle_iff, fun hpoor => ?_⟩
  · obtain ⟨holds, hnews, hnamed⟩ := records_mangle h
    refine ⟨?_, ?_, fun k r hr => ?_⟩
    · rw [Visit.length_comprehensions]
      exact (List.length_map _).symm.trans (congrArg List.length holds)
    · rw [Visit.length_comprehensions]
      exact (congrArg List.length hnews).symm.trans (List.length_map _)
    · have hold : w.root.binders[k]? = some (before r) := by
        rw [← holds, List.getElem?_map, hr, Option.map_some]
      have hnew : v.root.binders[k]? = some (after r) := by
        rw [← hnews, List.getElem?_map, hr, Option.map_some]
      obtain ⟨c, hc, hiter, haccu⟩ := Visit.getElem?_comprehensions (v := .root w.root) hold
      obtain ⟨c', hc', hiter', haccu'⟩ := Visit.getElem?_comprehensions (v := .root v.root) hnew
      obtain ⟨hnewIter, hnewAccu⟩ := hnamed k r hr
      exact ⟨c, c', hc, hiter.symm, haccu.symm, hc', hiter', haccu', hnewIter, hnewAccu⟩
  · -- some budget is enough, so the budget is the only cause of failure
    obtain ⟨bound, hbound⟩ := exists_shadow_budget w.source.macroCalls.entries
    have henough : w.AffordsMangling (max w.root.nodeCount bound) :=
      ⟨Nat.le_max_left .., fun _ entry hentry _ =>
        Nat.le_trans (hbound entry hentry) (Nat.le_max_right ..)⟩
    obtain ⟨v, records, hok⟩ := exists_mangle_iff.2 henough
    rcases (hasPrice_mangle w iterPrefix accuPrefix).ok_or_exhausted hok budget with h | h
    · exact absurd (exists_mangle_iff.1 ⟨v, records, h⟩) hpoor
    · exact h

/-- A comprehension in the range of another one that has the same names. The shadow that is larger
than the budget is under a key that names no node. -/
theorem mangle_numbers_in_walk_order_nested :
    let leaf (i : UInt64) (s : String) : Expr := ⟨⟨i⟩, .ident ⟨s⟩⟩
    let inner : Expr := ⟨⟨2⟩, .comprehension ⟨"x", leaf 3 "x", "y", leaf 4 "y", leaf 5 "x", leaf 6 "y",
      leaf 7 "y"⟩⟩
    let large : Expr := ⟨.unset, .list ⟨List.replicate 20 (leaf 0 "z"), .empty⟩⟩
    let w : Workspace := ⟨⟨⟨1⟩, .comprehension ⟨"x", inner, "y", leaf 8 "x", leaf 9 "x", leaf 10 "y",
      leaf 11 "y"⟩⟩, { SourceInfo.empty with macroCalls := .ofList [(⟨99⟩, large)] }⟩
    (∃ v records r, w.mangle 11 "i" "a" = .ok (v, records) ∧ records[1]? = some r ∧ r.id = ⟨2⟩ ∧
      (∃ c, (Visit.root w.root).comprehensions[1]? = some (r.id, c) ∧ c.iterVar = "x") ∧
      ∃ c, (Visit.root v.root).comprehensions[1]? = some (r.id, c) ∧ c.iterVar = "i1") ∧
    w.AffordsMangling 11 ∧ ¬ w.AffordsMangling 10 ∧
      w.mangle 10 "i" "a" = .error .budgetExhausted := by
  intro leaf inner large w
  have hpoor : ¬ w.AffordsMangling 10 := by
    rintro ⟨hnodes, -⟩
    exact absurd hnodes (by decide +kernel)
  have hrecord : (w.mangle 11 "i" "a").toOption.bind (fun p => p.2[1]?) =
      some ⟨⟨2⟩, "x", "i1", "y", "a1"⟩ := by decide +kernel
  obtain ⟨⟨v, records⟩, hok, hr⟩ := Option.bind_eq_some_iff.1 hrecord
  rw [except_toOption_eq_some] at hok
  obtain ⟨hrecords, hpays, -⟩ := mangle_numbers_in_walk_order w "i" "a" 11
  obtain ⟨-, -, hordinals⟩ := hrecords v records hok
  obtain ⟨c, c', hc, hold, -, hc', hnew, -⟩ := hordinals 1 _ hr
  exact ⟨⟨v, records, _, hok, hr, rfl, ⟨c, hc, hold.symm⟩, c', hc', hnew⟩, hpays.1 ⟨v, records, hok⟩,
    hpoor, (mangle_numbers_in_walk_order w "i" "a" 10).2.2 hpoor⟩

end Workspace

end CelEdit
