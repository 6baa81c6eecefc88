import CelEdit.Edit.Mangle
import CelEdit.Proofs.Shadows

/-!
# Mangling

Mangling changes the names of variables and nothing else in the tree: the nodes and entries keep
their ids, and there is one record for each comprehension, in pre-order. The macro calls keep the
keys that name nodes.
-/

namespace CelEdit

/-- The kind without the names of variables. -/
def Kind.forgetNames {α : Type} : Kind α → Kind α
  | .ident _ => .ident ⟨""⟩
  | .comprehension c => .comprehension { c with iterVar := "", accuVar := "" }
  | k => k

/-- The iteration variable and the accumulator of a comprehension. -/
def Kind.variables? {α : Type} : Kind α → Option (String × String)
  | .comprehension c => some (c.iterVar, c.accuVar)
  | _ => none

lemma Kind.children_forgetNames {α : Type} (k : Kind α) : k.forgetNames.children = k.children := by
  cases k <;> rfl

lemma Kind.entryIds_forgetNames {α : Type} (k : Kind α) : k.forgetNames.entryIds = k.entryIds := by
  cases k <;> rfl

lemma Kind.variables?_eq_of_shape_eq {α β : Type} {k : Kind α} {l : Kind β}
    (h : k.shape = l.shape) : k.variables? = l.variables? := by
  have hshape : ∀ {γ : Type} (k : Kind γ), k.shape.variables? = k.variables? := by
    intro γ k
    cases k <;> rfl
  rw [← hshape k, h, hshape l]

namespace Expr

/-- The ids of the nodes in pre-order. -/
def nodeIds (e : Expr) : List NodeId := e.preorder.map Expr.id

/-- The tree without the names of variables. -/
def forgetNames : Expr → Expr := fold fun id k => ⟨id, (k.mapChildren Prod.snd).forgetNames⟩

/-- The comprehensions in pre-order, by id, with their variables. -/
def binders (e : Expr) : List (NodeId × String × String) :=
  e.preorder.filterMap fun n => n.kind.variables?.map (fun names => (n.id, names))

section Names

variable {id : NodeId} {k : Kind Expr}

lemma nodeIds_mk : nodeIds ⟨id, k⟩ = id :: k.children.flatMap nodeIds := by
  rw [nodeIds, preorder_mk, List.map_cons, List.map_flatMap]
  rfl

lemma forgetNames_mk : forgetNames ⟨id, k⟩ = ⟨id, (k.mapChildren forgetNames).forgetNames⟩ := by
  conv_lhs => unfold forgetNames
  rw [fold_eq, snd_paired]
  rfl

lemma binders_mk :
    binders ⟨id, k⟩ =
      (k.variables?.map (fun names => (id, names))).toList ++ k.children.flatMap binders := by
  rw [binders, preorder_mk, List.filterMap_cons, List.filterMap_flatMap]
  cases k.variables? <;> rfl

lemma slots_forgetNames (e : Expr) : e.forgetNames.slots = e.slots := by
  induction e using induct with
  | node id k ih =>
    rw [forgetNames_mk, slots_mk, Kind.entryIds_forgetNames, Kind.children_forgetNames,
      Kind.entryIds_mapChildren, Kind.children_mapChildren, List.flatMap_map, slots_mk,
      List.flatMap_congr ih]

lemma nodeIds_forgetNames (e : Expr) : e.forgetNames.nodeIds = e.nodeIds := by
  induction e using induct with
  | node id k ih =>
    rw [forgetNames_mk, nodeIds_mk, Kind.children_forgetNames, Kind.children_mapChildren,
      List.flatMap_map, nodeIds_mk, List.flatMap_congr ih]

lemma nodeIds_eq_of_forgetNames_eq {e e' : Expr} (h : e.forgetNames = e'.forgetNames) :
    e.nodeIds = e'.nodeIds := by
  rw [← nodeIds_forgetNames, h, nodeIds_forgetNames]

lemma nodup_nodeIds {e : Expr} (hset : ∀ i ∈ e.slots, i.isSet) (h : e.DistinctIds) :
    e.nodeIds.Nodup := by
  have hslots : e.slots.Nodup := by
    rw [← List.filter_eq_self.2 hset]
    exact h
  exact hslots.sublist (ids_sublist_slots e)

lemma mem_nodeIds {e : Expr} {i : NodeId} : i ∈ e.nodeIds ↔ ∃ n ∈ e.preorder, n.id = i :=
  List.mem_map

lemma mem_binders {e : Expr} {i : NodeId} {iterVar accuVar : String} :
    (i, iterVar, accuVar) ∈ e.binders ↔ ∃ c : Comprehension Expr,
      ⟨i, .comprehension c⟩ ∈ e.preorder ∧ c.iterVar = iterVar ∧ c.accuVar = accuVar := by
  rw [binders, List.mem_filterMap]
  constructor
  · rintro ⟨⟨id, k⟩, hn, h⟩
    cases k with
    | comprehension c =>
      cases h
      exact ⟨c, hn, rfl, rfl⟩
    | _ => cases h
  · rintro ⟨c, hn, rfl, rfl⟩
    exact ⟨_, hn, rfl⟩

lemma binders_sublist_nodeIds (e : Expr) : (e.binders.map Prod.fst).Sublist e.nodeIds := by
  rw [binders, nodeIds, List.map_filterMap]
  induction e.preorder with
  | nil => exact List.Sublist.refl _
  | cons n ns ih =>
    rw [List.filterMap_cons, List.map_cons]
    cases n.kind.variables? with
    | none => exact ih.cons _
    | some names => exact ih.cons_cons _

end Names

end Expr

end CelEdit

namespace CelEdit.Mangle

open Runs CelEdit.Expr

variable {iterPrefix accuPrefix : String} {scopes : Scopes} {id : NodeId} {e e' : Expr}
  {s t : List VariableRenaming × Nat}

lemma renameIn_ident (i : Ident) :
    renameIn iterPrefix accuPrefix ⟨id, .ident i⟩ scopes = (do
      (liftM (Walk.pay : Walk (Except EditError) Unit) : Pass Unit)
      pure ⟨id, .ident ⟨(scopes.lookup i.name).getD i.name⟩⟩) := by
  unfold renameIn
  rw [fold_eq]
  rfl

lemma renameIn_comprehension (c : Comprehension Expr) :
    renameIn iterPrefix accuPrefix ⟨id, .comprehension c⟩ scopes = (do
      (liftM (Walk.pay : Walk (Except EditError) Unit) : Pass Unit)
      let r ← enter iterPrefix accuPrefix id c.iterVar c.accuVar
      let iterRange ← renameIn iterPrefix accuPrefix c.iterRange scopes
      let accuInit ← renameIn iterPrefix accuPrefix c.accuInit scopes
      let withAccu := (r.oldAccuVar, r.newAccuVar) :: scopes
      let withIter := (r.oldIterVar, r.newIterVar) :: withAccu
      let loopCondition ← renameIn iterPrefix accuPrefix c.loopCondition withIter
      let loopStep ← renameIn iterPrefix accuPrefix c.loopStep withIter
      let result ← renameIn iterPrefix accuPrefix c.result withAccu
      pure ⟨id, .comprehension
        ⟨r.newIterVar, iterRange, r.newAccuVar, accuInit, loopCondition, loopStep, result⟩⟩) := by
  conv_lhs => unfold renameIn
  rw [fold_eq]
  rfl

lemma renameIn_of_tag_ne {k : Kind Expr} (hident : k.tag ≠ .ident)
    (hcomprehension : k.tag ≠ .comprehension) :
    renameIn iterPrefix accuPrefix ⟨id, k⟩ scopes = (do
      (liftM (Walk.pay : Walk (Except EditError) Unit) : Pass Unit)
      let k ← (k.mapChildren (fun c => (c, renameIn iterPrefix accuPrefix c))).traverse
        (fun child => child.2 scopes)
      pure ⟨id, k⟩) := by
  conv_lhs => unfold renameIn
  rw [fold_eq]
  cases k with
  | ident i => exact absurd rfl hident
  | comprehension c => exact absurd rfl hcomprehension
  | _ => rfl

/-- The name that a comprehension variable gets by its ordinal. -/
def nameAt (label : String) (ordinal : Nat) : String :=
  label ++ String.ofList (Nat.toDigits 10 ordinal)

/-- The record of a comprehension under an ordinal. -/
def recordAt (iterPrefix accuPrefix : String) (id : NodeId) (c : Comprehension Expr) (n : Nat) :
    VariableRenaming :=
  ⟨id, c.iterVar, nameAt iterPrefix n, c.accuVar, nameAt accuPrefix n⟩

section Runs

variable {records : List VariableRenaming} {b : Nat} {v : List VariableRenaming × Nat}

lemma ends_payPass {a : Unit} :
    Ends (liftM (Walk.pay : Walk (Except EditError) Unit) : Pass Unit) (records, b) a v ↔
      b = v.2 + 1 ∧ v.1 = records := by
  rw [ends_lift, and_comm]
  refine and_congr_left fun _ => ?_
  cases b with
  | zero =>
    constructor
    · intro h
      cases h
    · intro h
      omega
  | succ b =>
    change Except.ok ((), b) = Except.ok (a, v.2) ↔ _
    rw [Except.ok.injEq, Prod.mk.injEq, Nat.add_right_cancel_iff]
    exact ⟨fun h => h.2, fun h => ⟨rfl, h⟩⟩

lemma ends_enter {c : Comprehension Expr} {r : VariableRenaming} :
    Ends (enter iterPrefix accuPrefix id c.iterVar c.accuVar) (records, b) r v ↔
      r = recordAt iterPrefix accuPrefix id c records.length ∧ v = (records ++ [r], b) := by
  unfold enter
  simp only [ends_bind, ends_getOuter, ends_setOuter, ends_pure]
  constructor
  · rintro ⟨_, _, ⟨rfl, rfl⟩, _, _, rfl, rfl, rfl⟩
    exact ⟨rfl, rfl⟩
  · rintro ⟨rfl, rfl⟩
    exact ⟨_, _, ⟨rfl, rfl⟩, ⟨⟩, _, rfl, rfl, rfl⟩

lemma ends_renameIn_ident {i : Ident} :
    Ends (renameIn iterPrefix accuPrefix ⟨id, .ident i⟩ scopes) (records, b) e' v ↔
      b = v.2 + 1 ∧ v.1 = records ∧ e' = ⟨id, .ident ⟨(scopes.lookup i.name).getD i.name⟩⟩ := by
  simp only [renameIn_ident, ends_bind, ends_pure]
  constructor
  · rintro ⟨_, _, hpay, rfl, rfl⟩
    obtain ⟨hb, hrecords⟩ := ends_payPass.1 hpay
    exact ⟨hb, hrecords, rfl⟩
  · rintro ⟨hb, hrecords, rfl⟩
    exact ⟨(), v, ends_payPass.2 ⟨hb, hrecords⟩, rfl, rfl⟩

/-- One comprehension: it is recorded, then its parts are renamed in the scopes that they see. -/
lemma ends_renameIn_comprehension {c : Comprehension Expr} :
    Ends (renameIn iterPrefix accuPrefix ⟨id, .comprehension c⟩ scopes) (records, b) e' v ↔
      ∃ b' r range u₁ init u₂ condition u₃ step u₄ result, b = b' + 1 ∧
        r = recordAt iterPrefix accuPrefix id c records.length ∧
        Ends (renameIn iterPrefix accuPrefix c.iterRange scopes) (records ++ [r], b') range u₁ ∧
        Ends (renameIn iterPrefix accuPrefix c.accuInit scopes) u₁ init u₂ ∧
        Ends (renameIn iterPrefix accuPrefix c.loopCondition
          ((c.iterVar, r.newIterVar) :: (c.accuVar, r.newAccuVar) :: scopes)) u₂ condition u₃ ∧
        Ends (renameIn iterPrefix accuPrefix c.loopStep
          ((c.iterVar, r.newIterVar) :: (c.accuVar, r.newAccuVar) :: scopes)) u₃ step u₄ ∧
        Ends (renameIn iterPrefix accuPrefix c.result ((c.accuVar, r.newAccuVar) :: scopes)) u₄
          result v ∧
        e' = ⟨id, .comprehension
          ⟨r.newIterVar, range, r.newAccuVar, init, condition, step, result⟩⟩ := by
  simp only [renameIn_comprehension, ends_bind, ends_pure]
  constructor
  · rintro ⟨_, ⟨_, b'⟩, hpay, r, u, henter, range, u₁, hrange, init, u₂, hinit, condition, u₃,
      hcondition, step, u₄, hstep, result, u₅, hresult, rfl, rfl⟩
    obtain ⟨rfl, rfl⟩ := ends_payPass.1 hpay
    obtain ⟨rfl, rfl⟩ := ends_enter.1 henter
    exact ⟨b', _, range, u₁, init, u₂, condition, u₃, step, u₄, result, rfl, rfl, hrange, hinit,
      hcondition, hstep, hresult, rfl⟩
  · rintro ⟨b', r, range, u₁, init, u₂, condition, u₃, step, u₄, result, rfl, rfl, hrange, hinit,
      hcondition, hstep, hresult, rfl⟩
    exact ⟨(), (records, b'), ends_payPass.2 ⟨rfl, rfl⟩, _, _, ends_enter.2 ⟨rfl, rfl⟩, range, u₁,
      hrange, init, u₂, hinit, condition, u₃, hcondition, step, u₄, hstep, result, v, hresult, rfl,
      rfl⟩

lemma ends_renameIn_of_tag_ne {k : Kind Expr} (hident : k.tag ≠ .ident)
    (hcomprehension : k.tag ≠ .comprehension) :
    Ends (renameIn iterPrefix accuPrefix ⟨id, k⟩ scopes) (records, b) e' v ↔
      ∃ b' k', b = b' + 1 ∧ k'.shape = k.shape ∧ e' = ⟨id, k'⟩ ∧
        Thread (fun c => Ends (renameIn iterPrefix accuPrefix c scopes)) k.children (records, b')
          k'.children v := by
  simp only [renameIn_of_tag_ne hident hcomprehension, ends_bind, ends_pure, Kind.ends_traverse,
    Kind.shape_mapChildren, Kind.children_mapChildren, Thread.map_left]
  constructor
  · rintro ⟨_, ⟨_, b'⟩, hpay, k', u, ⟨hshape, hthread⟩, rfl, rfl⟩
    obtain ⟨rfl, rfl⟩ := ends_payPass.1 hpay
    exact ⟨b', k', rfl, hshape, rfl, hthread⟩
  · rintro ⟨b', k', rfl, hshape, rfl, hthread⟩
    exact ⟨(), (records, b'), ends_payPass.2 ⟨rfl, rfl⟩, k', v, ⟨hshape, hthread⟩, rfl, rfl⟩

end Runs

/-- What holds of a pass by its three cases. Every node takes one unit of the budget, and every
comprehension a record under the next ordinal. -/
theorem pass_induct
    {P : Expr → Scopes → List VariableRenaming × Nat → Expr → List VariableRenaming × Nat → Prop}
    (ident : ∀ id i scopes records b, P ⟨id, .ident i⟩ scopes (records, b + 1)
      ⟨id, .ident ⟨(scopes.lookup i.name).getD i.name⟩⟩ (records, b))
    (comprehension : ∀ id (c : Comprehension Expr) scopes records b r range init condition step
      result u₁ u₂ u₃ u₄ v, r = recordAt iterPrefix accuPrefix id c records.length →
      P c.iterRange scopes (records ++ [r], b) range u₁ → P c.accuInit scopes u₁ init u₂ →
      P c.loopCondition ((c.iterVar, r.newIterVar) :: (c.accuVar, r.newAccuVar) :: scopes) u₂
        condition u₃ →
      P c.loopStep ((c.iterVar, r.newIterVar) :: (c.accuVar, r.newAccuVar) :: scopes) u₃ step u₄ →
      P c.result ((c.accuVar, r.newAccuVar) :: scopes) u₄ result v →
      P ⟨id, .comprehension c⟩ scopes (records, b + 1) ⟨id, .comprehension
        ⟨r.newIterVar, range, r.newAccuVar, init, condition, step, result⟩⟩ v)
    (other : ∀ id (k k' : Kind Expr) scopes records b v, k.tag ≠ .ident → k.tag ≠ .comprehension →
      k'.shape = k.shape → Thread (fun c => P c scopes) k.children (records, b) k'.children v →
      P ⟨id, k⟩ scopes (records, b + 1) ⟨id, k'⟩ v)
    (h : Ends (renameIn iterPrefix accuPrefix e scopes) s e' t) : P e scopes s e' t := by
  induction e using induct generalizing e' scopes s t with
  | node id k ih =>
    obtain ⟨records, b⟩ := s
    by_cases hident : k.tag = .ident
    · cases k with
      | ident i =>
        obtain ⟨rfl, rfl, rfl⟩ := ends_renameIn_ident.1 h
        exact ident ..
      | _ => cases hident
    · by_cases hcomprehension : k.tag = .comprehension
      · cases k with
        | comprehension c =>
          obtain ⟨b', r, range, u₁, init, u₂, condition, u₃, step, u₄, result, rfl, hr, hrange,
            hinit, hcondition, hstep, hresult, rfl⟩ := ends_renameIn_comprehension.1 h
          have hpart : ∀ d ∈ (Kind.comprehension c).children, ∀ {e' scopes s t},
              Ends (renameIn iterPrefix accuPrefix d scopes) s e' t → P d scopes s e' t :=
            fun d hd _ _ _ _ hrun => ih d hd hrun
          simp only [Kind.children, List.forall_mem_cons] at hpart
          obtain ⟨hrange', hinit', hcondition', hstep', hresult', -⟩ := hpart
          exact comprehension _ _ _ _ _ r _ _ _ _ _ _ _ _ _ _ hr (hrange' hrange) (hinit' hinit)
            (hcondition' hcondition) (hstep' hstep) (hresult' hresult)
        | _ => cases hcomprehension
      · obtain ⟨b', k', rfl, hshape, rfl, hthread⟩ :=
          (ends_renameIn_of_tag_ne hident hcomprehension).1 h
        exact other _ _ _ _ _ _ _ hident hcomprehension hshape
          (hthread.imp (fun u => u) (fun c hc _ _ _ hrun => ih c hc hrun))

/-- A pass renames variables and nothing else. -/
theorem forgetNames_renameIn (h : Ends (renameIn iterPrefix accuPrefix e scopes) s e' t) :
    e'.forgetNames = e.forgetNames := by
  refine pass_induct (P := fun e _ _ e' _ => e'.forgetNames = e.forgetNames) ?ident ?comprehension
    ?other h
  case ident =>
    intro id i scopes records b
    rw [forgetNames_mk, forgetNames_mk]
    rfl
  case comprehension =>
    intro id c scopes records b r range init condition step result u₁ u₂ u₃ u₄ v _ hrange hinit
      hcondition hstep hresult
    simp only [forgetNames_mk, Kind.mapChildren, Kind.forgetNames, hrange, hinit, hcondition, hstep,
      hresult]
  case other =>
    intro id k k' scopes records b v _ _ hshape hthread
    have hkind : k'.mapChildren forgetNames = k.mapChildren forgetNames := by
      apply Kind.eq_of_shape_of_children
      · rw [Kind.shape_mapChildren, Kind.shape_mapChildren, hshape]
      · rw [Kind.children_mapChildren, Kind.children_mapChildren, hthread.map_eq]
    rw [forgetNames_mk, forgetNames_mk, hkind]

/-- Renaming variables leaves the ids of nodes and entries as they are. -/
theorem slots_renameIn (h : Ends (renameIn iterPrefix accuPrefix e scopes) s e' t) :
    e'.slots = e.slots := by
  rw [← slots_forgetNames, forgetNames_renameIn h, slots_forgetNames]

/-! ### The records of a pass -/

/-- The comprehension of a record with its old names. -/
def before (r : VariableRenaming) : NodeId × String × String := (r.id, r.oldIterVar, r.oldAccuVar)

/-- The comprehension of a record with its new names. -/
def after (r : VariableRenaming) : NodeId × String × String := (r.id, r.newIterVar, r.newAccuVar)

/-- The records between two states tell the old and the new names of the given comprehensions. -/
def Records (olds news : List (NodeId × String × String)) (s t : List VariableRenaming) : Prop :=
  ∃ records, t = s ++ records ∧ records.map before = olds ∧ records.map after = news

lemma Records.append {olds news olds' news' : List (NodeId × String × String)}
    {s t u : List VariableRenaming} (h : Records olds news s t) (h' : Records olds' news' t u) :
    Records (olds ++ olds') (news ++ news') s u := by
  obtain ⟨records, rfl, rfl, rfl⟩ := h
  obtain ⟨records', rfl, rfl, rfl⟩ := h'
  exact ⟨records ++ records', List.append_assoc .., List.map_append, List.map_append⟩

lemma records_thread {cs cs' : List Expr} {s t : List VariableRenaming}
    (h : Thread (fun c s c' t => Records c.binders c'.binders s t) cs s cs' t) :
    Records (cs.flatMap binders) (cs'.flatMap binders) s t := by
  induction h with
  | nil => exact ⟨[], (List.append_nil _).symm, rfl, rfl⟩
  | cons head _ ih =>
    rw [List.flatMap_cons, List.flatMap_cons]
    exact head.append ih

/-- A pass records the comprehensions in pre-order. -/
theorem records_renameIn (h : Ends (renameIn iterPrefix accuPrefix e scopes) s e' t) :
    Records e.binders e'.binders s.1 t.1 := by
  refine pass_induct (P := fun e _ s e' t => Records e.binders e'.binders s.1 t.1) ?ident
    ?comprehension ?other h
  case ident =>
    intro id i scopes records b
    exact ⟨[], (List.append_nil _).symm, rfl, rfl⟩
  case comprehension =>
    intro id c scopes records b r range init condition step result u₁ u₂ u₃ u₄ v hr hrange hinit
      hcondition hstep hresult
    have hself : Records [(id, c.iterVar, c.accuVar)] [(id, r.newIterVar, r.newAccuVar)]
        records (records ++ [r]) := by
      subst hr
      exact ⟨_, rfl, rfl, rfl⟩
    have hparts := hrange.append (hinit.append (hcondition.append (hstep.append hresult)))
    rw [binders_mk, binders_mk]
    simp only [Kind.children, List.flatMap_cons, List.flatMap_nil, List.append_nil]
    exact hself.append hparts
  case other =>
    intro id k k' scopes records b v _ hcomprehension hshape hthread
    have hnone : k.variables? = none := by
      cases k with
      | comprehension c => exact absurd rfl hcomprehension
      | _ => rfl
    rw [binders_mk, binders_mk, Kind.variables?_eq_of_shape_eq hshape, hnone]
    exact records_thread (hthread.imp Prod.fst (fun _ _ _ _ _ h => h))

/-! ### The table -/

/-- The macro calls of the recorded comprehensions with their variables renamed. -/
def renameVariables (records : List VariableRenaming) (calls : IdMap Expr) : IdMap Expr :=
  records.foldl (fun t r => t.modify r.id (renameVariable r)) calls

lemma mem_keys_renameVariables {records : List VariableRenaming} {calls : IdMap Expr}
    {key : NodeId} :
    key ∈ (renameVariables records calls).keys ↔ key ∈ calls.keys := by
  induction records generalizing calls with
  | nil => exact Iff.rfl
  | cons r records ih =>
    rw [renameVariables, List.foldl_cons]
    rw [← renameVariables, ih, ← IdMap.get?_isSome_iff, ← IdMap.get?_isSome_iff, IdMap.get?_modify,
      Option.isSome_map]

end CelEdit.Mangle

namespace CelEdit.Workspace

open Runs

variable {budget : Nat} {w v : Workspace} {iterPrefix accuPrefix : String}
  {records : List VariableRenaming}

/-- A pass over the tree, and then the macro calls derived from the new tree, unless there was no
comprehension. -/
theorem mangle_eq_ok_iff :
    w.mangle budget iterPrefix accuPrefix = .ok (v, records) ↔
      ∃ root b,
        Ends (Mangle.renameIn iterPrefix accuPrefix w.root []) ([], budget) root (records, b) ∧
        (records = [] ∧ v = w ∨ records ≠ [] ∧ ∃ calls,
          MacroCalls.rederiveKeeping w.source.macroCalls root budget = .ok calls ∧
          v = ⟨root, { w.source with macroCalls := Mangle.renameVariables records calls }⟩) := by
  unfold mangle
  rw [except_bind_eq_ok]
  constructor
  · rintro ⟨⟨root, records'⟩, hroot, h⟩
    obtain ⟨b, hroot⟩ := (run'_eq_ok ..).1 hroot
    dsimp only at h
    by_cases hempty : records' = []
    · rw [hempty] at h hroot
      cases h
      exact ⟨root, b, hroot, .inl ⟨rfl, rfl⟩⟩
    · rw [if_neg (by rwa [List.isEmpty_iff]), except_bind_eq_ok] at h
      obtain ⟨calls, hcalls, h⟩ := h
      cases h
      exact ⟨root, b, hroot, .inr ⟨hempty, calls, hcalls, rfl⟩⟩
  · rintro ⟨root, b, hroot, h⟩
    refine ⟨(root, records), (run'_eq_ok ..).2 ⟨b, hroot⟩, ?_⟩
    dsimp only
    rcases h with ⟨rfl, rfl⟩ | ⟨hempty, calls, hcalls, rfl⟩
    · rfl
    · rw [if_neg (by rwa [List.isEmpty_iff]), except_bind_eq_ok]
      exact ⟨calls, hcalls, rfl⟩

lemma mangle_eq_error {root : Expr} {b : Nat} {error : EditError}
    (h : Ends (Mangle.renameIn iterPrefix accuPrefix w.root []) ([], budget) root (records, b))
    (hrecords : records ≠ [])
    (hcalls : MacroCalls.rederiveKeeping w.source.macroCalls root budget = .error error) :
    w.mangle budget iterPrefix accuPrefix = .error error := by
  have hpass : ((Mangle.renameIn iterPrefix accuPrefix w.root []).run []).run' budget =
      .ok (root, records) := (run'_eq_ok ..).2 ⟨b, h⟩
  rw [mangle, hpass]
  change (if records.isEmpty then _ else _) = _
  rw [if_neg (by rwa [List.isEmpty_iff]), hcalls]
  rfl

/-- A workspace either has no comprehension and stays as it is, or keeps its ids and extensions and
the macro calls that name nodes. -/
theorem mangle_cases (h : w.mangle budget iterPrefix accuPrefix = .ok (v, records)) :
    v = w ∨ v.root.slots = w.root.slots ∧ v.source.extensions = w.source.extensions ∧
      ∀ key ∈ v.source.macroCalls.keys, ∃ n ∈ v.root.preorder, n.id = key := by
  obtain ⟨root, b, hrun, ⟨-, rfl⟩ | ⟨-, calls, hcalls, rfl⟩⟩ := mangle_eq_ok_iff.1 h
  · exact .inl rfl
  · obtain ⟨-, rfl⟩ := MacroCalls.rederiveKeeping_eq_ok_iff.1 hcalls
    refine .inr ⟨Mangle.slots_renameIn hrun, rfl, ?_⟩
    intro key hkey
    exact MacroCalls.exists_node_of_mem_keys (Mangle.mem_keys_renameVariables.1 hkey)

end CelEdit.Workspace
