import CelEdit.Proofs.Budgets
import CelEdit.Proofs.MangledShadows

/-!
# Mangling twice

A second pass meets every comprehension under the same ordinal, so it gives every variable the name
that it has. The shadows mirror the tree already, so deriving them again changes nothing either, if
the budget is enough for them.
-/

namespace CelEdit

open Runs CelEdit.Expr

namespace Mangle

variable {iterPrefix accuPrefix : String} {scopes : Scopes} {e e' : Expr}
  {s t u : List VariableRenaming × Nat} {r : VariableRenaming}

/-- The comprehension has its new names already. -/
def Unchanged (r : VariableRenaming) : Prop :=
  r.oldIterVar = r.newIterVar ∧ r.oldAccuVar = r.newAccuVar

/-- Every bound name is renamed to itself. -/
def Diagonal (scopes : Scopes) : Prop := ∀ b ∈ scopes, b.2 = b.1

lemma Diagonal.cons (h : Diagonal scopes) (name : String) : Diagonal ((name, name) :: scopes) :=
  List.forall_mem_cons.2 ⟨rfl, h⟩

lemma Diagonal.lookup (h : Diagonal scopes) (name : String) :
    (scopes.lookup name).getD name = name := by
  induction scopes with
  | nil => rfl
  | cons b scopes ih =>
    rw [Diagonal, List.forall_mem_cons] at h
    rw [List.lookup_cons]
    by_cases hname : name = b.1
    · rw [beq_iff_eq.2 hname, hname]
      exact h.1
    · rw [beq_eq_false_iff_ne.2 hname]
      exact ih h.2

/-- From as many records as in `s`, with the same budget, `run` comes to as many records as in `t`,
and what it adds leaves the names as they are. -/
def Reruns (run : List VariableRenaming × Nat → List VariableRenaming × Nat → Prop)
    (s t : List VariableRenaming × Nat) : Prop :=
  ∀ records : List VariableRenaming, records.length = s.1.length →
    ∃ added, (∀ r ∈ added, Unchanged r) ∧ (records ++ added).length = t.1.length ∧
      run (records, s.2) (records ++ added, t.2)

lemma Reruns.comp {run run' : List VariableRenaming × Nat → List VariableRenaming × Nat → Prop}
    (h : Reruns run s t) (h' : Reruns run' t u) :
    Reruns (fun a c => ∃ b, run a b ∧ run' b c) s u := by
  intro records hlength
  obtain ⟨added, hadded, hlength, hrun⟩ := h records hlength
  obtain ⟨added', hadded', hlength', hrun'⟩ := h' (records ++ added) hlength
  rw [List.append_assoc] at hlength' hrun'
  exact ⟨added ++ added', List.forall_mem_append.2 ⟨hadded, hadded'⟩, hlength', _, hrun, hrun'⟩

lemma reruns_thread {cs cs' : List Expr}
    (h : Thread (fun _ s c' t => Reruns (fun s t =>
      Ends (renameIn iterPrefix accuPrefix c' scopes) s c' t) s t) cs s cs' t) :
    Reruns (fun s t => Thread (fun c => Ends (renameIn iterPrefix accuPrefix c scopes)) cs' s cs' t)
      s t := by
  induction h with
  | nil s =>
    intro records hlength
    exact ⟨[], fun _ hr => (nomatch hr), by rw [List.append_nil, hlength], by
      rw [List.append_nil]
      exact .nil _⟩
  | cons head _ ih =>
    intro records hlength
    obtain ⟨added, hadded, hlength, b, hhead, htail⟩ := head.comp ih records hlength
    exact ⟨added, hadded, hlength, .cons hhead htail⟩

/-- A pass over the result of a pass, where the names in scope are those that it gave, changes
nothing and takes as much of the budget. -/
theorem reruns_renameIn (h : Ends (renameIn iterPrefix accuPrefix e scopes) s e' t)
    {scopes' : Scopes} (hscopes : Diagonal scopes') :
    Reruns (fun s t => Ends (renameIn iterPrefix accuPrefix e' scopes') s e' t) s t := by
  refine pass_induct (P := fun _ _ s e' t => ∀ scopes', Diagonal scopes' →
    Reruns (fun s t => Ends (renameIn iterPrefix accuPrefix e' scopes') s e' t) s t)
    ?ident ?comprehension ?other h scopes' hscopes
  case ident =>
    intro id i scopes records b scopes' hscopes records' hlength
    refine ⟨[], fun _ hr => (nomatch hr), by rw [List.append_nil, hlength], ?_⟩
    rw [List.append_nil]
    exact ends_renameIn_ident.2 ⟨rfl, rfl, by rw [hscopes.lookup]⟩
  case comprehension =>
    intro id c scopes records b r range init condition step result u₁ u₂ u₃ u₄ v hr hrange hinit
      hcondition hstep hresult scopes' hscopes records' hlength
    have haccu := hscopes.cons r.newAccuVar
    have hiter := haccu.cons r.newIterVar
    have hparts := (hrange _ hscopes).comp ((hinit _ hscopes).comp ((hcondition _ hiter).comp
      ((hstep _ hiter).comp (hresult _ haccu))))
    -- the second record has the same ordinal as the first
    let r' : VariableRenaming := ⟨id, r.newIterVar, r.newIterVar, r.newAccuVar, r.newAccuVar⟩
    have hr' : r' = recordAt iterPrefix accuPrefix id
        ⟨r.newIterVar, range, r.newAccuVar, init, condition, step, result⟩ records'.length := by
      rw [hlength]
      subst hr
      rfl
    obtain ⟨added, hadded, hlength', u₁', hrange', u₂', hinit', u₃', hcondition', u₄', hstep',
      hresult'⟩ := hparts (records' ++ [r']) (by simp [hlength])
    rw [List.append_assoc] at hlength' hresult'
    refine ⟨r' :: added, List.forall_mem_cons.2 ⟨⟨rfl, rfl⟩, hadded⟩, hlength', ?_⟩
    exact ends_renameIn_comprehension.2 ⟨b, r', range, u₁', init, u₂', condition, u₃', step, u₄',
      result, rfl, hr', hrange', hinit', hcondition', hstep', hresult', rfl⟩
  case other =>
    intro id k k' scopes records b v hident hcomprehension hshape hthread scopes' hscopes
    have htag := Kind.tag_eq_of_outline_eq (Kind.outline_eq_of_shape_eq hshape)
    have hchildren :=
      reruns_thread (hthread.imp (fun s => s) (fun _ _ _ _ _ h => h scopes' hscopes))
    intro records' hlength
    obtain ⟨added, hadded, hlength', hrun⟩ := hchildren records' hlength
    refine ⟨added, hadded, hlength', ?_⟩
    exact (ends_renameIn_of_tag_ne (htag ▸ hident) (htag ▸ hcomprehension)).2
      ⟨b, k', rfl, rfl, rfl, hrun⟩

lemma renameVariable_of_unchanged (h : Unchanged r) (x : Expr) : renameVariable r x = x := by
  obtain ⟨q, i, a, -, ha, hset⟩ | hself := renameVariable_cases r x
  · have hname : newName r a.name = a.name := by
      unfold newName
      rw [← h.1, ← h.2]
      split
      · next haccu => exact haccu.symm
      · split
        · next hiter => exact hiter.symm
        · rfl
    rw [hset, hname]
    exact setAt_self ha
  · exact hself

lemma renameVariables_of_unchanged {records : List VariableRenaming}
    (h : ∀ r ∈ records, Unchanged r) (calls : IdMap Expr) : renameVariables records calls = calls := by
  induction records with
  | nil => rfl
  | cons r records ih =>
    rw [List.forall_mem_cons] at h
    have hmodify : calls.modify r.id (renameVariable r) = calls := by
      apply IdMap.eq_of_entries
      refine (List.map_congr_left fun e _ => ?_).trans (List.map_id' _)
      rw [renameVariable_of_unchanged h.1, ite_self]
    have hstep : renameVariables (r :: records) calls =
        renameVariables records (calls.modify r.id (renameVariable r)) := rfl
    rw [hstep, hmodify, ih h.2]

end Mangle

namespace MacroCalls

variable {root : Expr} {calls : IdMap Expr} {budget : Nat}

/-- Shadows that mirror the tree, under keys that name nodes, are derived as they are. -/
theorem derived_eq_self (hkeys : ∀ e ∈ calls.entries, e.1 ∈ root.nodeIds)
    (hmirrored : Mirrored root calls) : derived none root (fun i => i) calls = calls := by
  have hentry : ∀ e ∈ calls.entries, derivedEntry none root (fun i => i) e = some e := by
    intro e he
    obtain ⟨n, hn, hid⟩ := mem_nodeIds.1 (hkeys e he)
    obtain ⟨expanded, hnode⟩ := exists_nodesById hn
    rw [hid] at hnode
    refine derivedEntry_eq_some.2 ⟨expanded, hnode, ?_⟩
    have hshadow : derive none root expanded e.2 = e.2 := Shows.reflect_eq (hmirrored e he)
    rw [mapIds_id, hshadow]
  rw [derived, List.filterMap_congr hentry, List.filterMap_some, IdMap.ofList_entries]

/-- A shadow that is too large is the only cause of failure. -/
theorem rederiveKeeping_eq_error (h : ∃ e ∈ calls.entries, (root.nodesById.get? e.1).isSome ∧
    budget < e.2.nodeCount) : rederiveKeeping calls root budget = .error .budgetExhausted := by
  obtain ⟨price, outcome, -, hrun⟩ := Workspace.hasPrice_rederiveKeeping calls root
  obtain ⟨bound, hbound⟩ := Workspace.exists_shadow_budget calls.entries
  have hlarge : rederiveKeeping calls root (max price bound) =
      .ok (derived none root (fun i => i) calls) :=
    rederiveKeeping_eq_ok_iff.2
      ⟨fun e he _ => Nat.le_trans (hbound e he) (Nat.le_max_right ..), rfl⟩
  rw [hrun, if_pos (Nat.le_max_left ..)] at hlarge
  rw [hrun, hlarge]
  by_cases hprice : price ≤ budget
  · obtain ⟨e, he, hnode, hlt⟩ := h
    have hok := hrun budget
    rw [if_pos hprice, hlarge] at hok
    exact absurd ((rederiveKeeping_eq_ok_iff.1 hok).1 e he hnode) (Nat.not_le_of_lt hlt)
  · rw [if_neg hprice]

end MacroCalls

namespace Workspace

open MacroCalls Mangle

variable {budget : Nat} {w v : Workspace} {iterPrefix accuPrefix : String}
  {records : List VariableRenaming}

/-- Mangling is idempotent. A mangled workspace is mangled to itself, unless the budget is not
enough for one of its shadows. -/
theorem mangle_idempotent (hset : ∀ i ∈ w.root.slots, i.isSet) (hdistinct : w.root.DistinctIds)
    (hheads : w.HeadsApart) (h : w.mangle budget iterPrefix accuPrefix = .ok (v, records)) :
    (∃ records', v.mangle budget iterPrefix accuPrefix = .ok (v, records')) ∨
      v.mangle budget iterPrefix accuPrefix = .error .budgetExhausted ∧
        ∃ e ∈ v.source.macroCalls.entries, budget < e.2.nodeCount := by
  obtain ⟨root, b, hrun, ⟨rfl, rfl⟩ | ⟨hrecords, calls, -, hv⟩⟩ := mangle_eq_ok_iff.1 h
  · exact .inl ⟨[], h⟩
  have hmangled := mangled_of_mangle hset hdistinct hheads hrecords h
  obtain rfl : v.root = root := congrArg Workspace.root hv
  -- the second pass
  have hscopes : Diagonal [] := fun _ hb => (nomatch hb)
  obtain ⟨again, hunchanged, hlength, hagain⟩ := reruns_renameIn hrun hscopes [] rfl
  rw [List.nil_append] at hlength hagain
  have hagainNe : again ≠ [] := by
    rwa [← List.length_pos_iff, hlength, List.length_pos_iff]
  -- the shadows
  have hderived := derived_eq_self (fun _ he => hmangled.mem_nodeIds_of_entry he)
    (hmangled.mirrored hdistinct)
  by_cases hfits : ∀ e ∈ v.source.macroCalls.entries, e.2.nodeCount ≤ budget
  · have hcalls : rederiveKeeping v.source.macroCalls v.root budget = .ok v.source.macroCalls :=
      rederiveKeeping_eq_ok_iff.2 ⟨fun e he _ => hfits e he, hderived.symm⟩
    refine .inl ⟨again, mangle_eq_ok_iff.2 ⟨v.root, b, hagain, .inr ⟨hagainNe, _, hcalls, ?_⟩⟩⟩
    rw [renameVariables_of_unchanged hunchanged]
  · simp only [not_forall, Nat.not_le] at hfits
    obtain ⟨e, he, hlarge⟩ := hfits
    refine .inr ⟨mangle_eq_error hagain hagainNe ?_, e, he, hlarge⟩
    obtain ⟨n, hn, hid⟩ := mem_nodeIds.1 (hmangled.mem_nodeIds_of_entry he)
    refine rederiveKeeping_eq_error ⟨e, he, ?_, hlarge⟩
    rw [← hid, Option.isSome_iff_exists]
    exact exists_nodesById hn

/-- Empty labels, so that both variables of a comprehension get one name. The shadow has the range
four times, and it outgrows a budget that is just enough for the tree. -/
theorem mangle_idempotent_grown :
    let inner : Expr := ⟨⟨5⟩, .comprehension ⟨"y", ⟨⟨6⟩, .ident ⟨"x"⟩⟩, "acc",
      ⟨⟨7⟩, .ident ⟨"acc"⟩⟩, ⟨⟨8⟩, .ident ⟨"acc"⟩⟩, ⟨⟨9⟩, .ident ⟨"y"⟩⟩, ⟨⟨10⟩, .ident ⟨"y"⟩⟩⟩⟩
    let range : Expr := ⟨⟨2⟩, .list ⟨[⟨⟨12⟩, .ident ⟨"x"⟩⟩, ⟨⟨13⟩, .ident ⟨"acc"⟩⟩,
      ⟨⟨14⟩, .ident ⟨"0"⟩⟩], .empty⟩⟩
    let stale : Expr := ⟨⟨2⟩, .notSet⟩
    let w : Workspace := ⟨⟨⟨1⟩, .comprehension ⟨"x", range, "acc", ⟨⟨3⟩, .constant (.bool true)⟩,
      ⟨⟨4⟩, .ident ⟨"x"⟩⟩, inner, ⟨⟨11⟩, .ident ⟨"acc"⟩⟩⟩⟩,
      { SourceInfo.empty with macroCalls := .ofList [(⟨1⟩, ⟨.unset, .call ⟨some stale, "all",
        [⟨⟨20⟩, .ident ⟨"x"⟩⟩, stale, stale, stale, ⟨⟨5⟩, .notSet⟩]⟩⟩)] }⟩
    (∀ i ∈ w.root.slots, i.isSet) ∧ w.root.DistinctIds ∧ w.HeadsApart ∧
      ∃ v records, w.mangle 14 "" "" = .ok (v, records) ∧ w.mangle 40 "" "" = .ok (v, records) ∧
        (v.mangle 14 "" "" = .error .budgetExhausted ∧
          ∃ e ∈ v.source.macroCalls.entries, 14 < e.2.nodeCount) ∧
        ∃ records', v.mangle 40 "" "" = .ok (v, records') := by
  intro inner range stale w
  have hset : ∀ i ∈ w.root.slots, i.isSet := by decide +kernel
  have hdistinct : w.root.DistinctIds := by decide +kernel
  have hheads : w.HeadsApart := by decide +kernel
  have hsame : (w.mangle 40 "" "").toOption = (w.mangle 14 "" "").toOption := by decide +kernel
  have hfails : (w.mangle 14 "" "").toOption.map (fun p => (p.1.mangle 14 "" "").toOption.isSome) =
      some false := by decide +kernel
  have hagain : (w.mangle 14 "" "").toOption.map (fun p => (p.1.mangle 40 "" "").toOption.isSome) =
      some true := by decide +kernel
  cases hmangle : w.mangle 14 "" "" with
  | error err =>
    rw [hmangle] at hfails
    cases hfails
  | ok p =>
    rw [hmangle] at hsame hfails hagain
    have hmangle' := except_toOption_eq_some.1 hsame
    refine ⟨hset, hdistinct, hheads, p.1, p.2, rfl, hmangle', ?_, ?_⟩
    · refine (mangle_idempotent hset hdistinct hheads hmangle).resolve_left ?_
      rintro ⟨records', hok⟩
      rw [Except.toOption, Option.map_some, hok] at hfails
      cases hfails
    · refine (mangle_idempotent hset hdistinct hheads hmangle').resolve_right ?_
      rintro ⟨herror, -⟩
      rw [Except.toOption, Option.map_some, herror] at hagain
      cases hagain

end Workspace

end CelEdit
