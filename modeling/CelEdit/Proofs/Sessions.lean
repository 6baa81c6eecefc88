import CelEdit.Proofs.Assembly
import CelEdit.Proofs.Binding
import CelEdit.Proofs.Extensions
import CelEdit.Proofs.Mangling

/-!
# Editing sessions

A session applies one edit after the other to the current workspace. A workspace is well formed when
its ids are distinct, its macro calls name nodes and its extensions have different tags. Every
successful edit keeps this, whatever metadata comes with its operands, so it holds after each step.
-/

namespace CelEdit

namespace Workspace

open Runs CelEdit.Expr

/-- What every edit maintains. -/
structure WellFormed (w : Workspace) : Prop where
  distinct : w.root.DistinctIds
  keys : ∀ key ∈ w.source.macroCalls.keys, ∃ n ∈ w.root.preorder, n.id = key
  tags : (w.source.extensions.map Extension.tag).Nodup

instance (w : Workspace) : Decidable w.WellFormed :=
  decidable_of_iff
    (w.root.DistinctIds ∧ (∀ key ∈ w.source.macroCalls.keys, ∃ n ∈ w.root.preorder, n.id = key) ∧
      (w.source.extensions.map Extension.tag).Nodup)
    ⟨fun h => ⟨h.1, h.2.1, h.2.2⟩, fun h => ⟨h.distinct, h.keys, h.tags⟩⟩

/-! ### Edits -/

/-- A workspace that an edit takes: the current one or another. -/
inductive Operand where
  | current
  | given (w : Workspace)

def Operand.get (w : Workspace) : Operand → Workspace
  | .current => w
  | .given v => v

/-- The current workspace is known to be well formed; of another only its ids matter. -/
def Operand.Admissible : Operand → Prop
  | .current => True
  | .given v => v.root.DistinctIds

instance : (o : Operand) → Decidable o.Admissible
  | .current => isTrue trivial
  | .given v => inferInstanceAs (Decidable v.root.DistinctIds)

inductive Edit where
  | replace (e : Expr) (target : NodeId)
  | replaceBy (donor : Operand) (target : NodeId)
  | bind (name : String) (init result : Expr) (target : NodeId) (populate : Bool)
  | mangle (iterPrefix accuPrefix : String)
  | renumber
  | globalCall (function : String) (args : List Operand)
  | memberCall (target : Operand) (function : String) (args : List Operand)

namespace Edit

/-- The workspace after an edit of the current one. -/
def apply (budget : Nat) (w : Workspace) : Edit → Except EditError Workspace
  | .replace e target => w.replace budget e target
  | .replaceBy donor target => w.replaceBy budget (donor.get w) target
  | .bind name init result target populate =>
    w.replaceByBind budget name init result target populate
  | .mangle iterPrefix accuPrefix => (w.mangle budget iterPrefix accuPrefix).map Prod.fst
  | .renumber => w.renumber budget
  | .globalCall function args => Workspace.globalCall budget function (args.map (Operand.get w))
  | .memberCall target function args =>
    Workspace.memberCall budget (target.get w) function (args.map (Operand.get w))

/-- The workspaces that take part in an edit. -/
def operands : Edit → List Operand
  | .replaceBy donor _ => [.current, donor]
  | .globalCall _ args => args
  | .memberCall target _ args => args ++ [target]
  | _ => [.current]

/-- The expressions that take part in an edit, but for the initial value of a binding, whose ids do
not matter. -/
def expressions : Edit → List Expr
  | .replace e _ => [e]
  | .bind _ _ result _ _ => [result]
  | _ => []

/-- What an edit asks of its arguments, apart from the current workspace. -/
def Admissible (edit : Edit) : Prop :=
  (∀ e ∈ edit.expressions, e.DistinctIds) ∧ ∀ o ∈ edit.operands, o.Admissible

instance (edit : Edit) : Decidable edit.Admissible := inferInstanceAs (Decidable (_ ∧ _))

end Edit

variable {budget : Nat} {w v host donor : Workspace} {target : NodeId}

/-! ### One step -/

theorem wellFormed_replaceBy (hhost : host.root.DistinctIds) (hdonor : donor.root.DistinctIds)
    (h : replaceBy budget host donor target = .ok w) : w.WellFormed := by
  obtain hadopted | ⟨seed, stable, p, s, t, hgraft⟩ := adopted_or_distinctGraft hhost hdonor h
  · refine ⟨hadopted.root ▸ hhost, ?_, ?_⟩
    · intro key hkey
      rw [hadopted.source] at hkey
      rw [hadopted.root]
      exact MacroCalls.exists_node_of_mem_keys hkey
    · rw [hadopted.source]
      exact Extension.nodup_merge ..
  · refine ⟨hgraft.distinct, ?_, ?_⟩
    · intro key hkey
      rw [hgraft.grafted.source] at hkey
      exact MacroCalls.exists_node_of_mem_keys hkey
    · rw [hgraft.grafted.source]
      exact Extension.nodup_merge ..

theorem wellFormed_renumber (hw : w.WellFormed) (h : w.renumber budget = .ok v) : v.WellFormed := by
  obtain ⟨t, hrelocated⟩ := relocated_of_renumber h
  refine ⟨hrelocated.distinct hw.distinct, ?_, ?_⟩
  · intro key hkey
    rw [hrelocated.calls] at hkey
    exact MacroCalls.exists_node_of_mem_keys hkey
  · rw [hrelocated.extensions]
    exact hw.tags

theorem wellFormed_mangle {iterPrefix accuPrefix : String} {records : List VariableRenaming}
    (hw : w.WellFormed) (h : w.mangle budget iterPrefix accuPrefix = .ok (v, records)) :
    v.WellFormed := by
  rcases mangle_cases h with rfl | ⟨hslots, hextensions, hkeys⟩
  · exact hw
  · refine ⟨?_, hkeys, hextensions ▸ hw.tags⟩
    rw [DistinctIds, hslots]
    exact hw.distinct

/-- The invariant of a call under construction, which holds of the trees taken in. -/
structure Assembly.WellFormed (a : Assembly) (es : List Expr) : Prop where
  nodup : (es.flatMap slots).Nodup
  bounds : ∀ i ∈ es.flatMap slots, i.toNat ≤ a.maxId.toNat
  keys : ∀ key ∈ a.source.macroCalls.keys, ∃ e ∈ es, ∃ n ∈ e.preorder, n.id = key
  tags : (a.source.extensions.map Extension.tag).Nodup

lemma Assembly.WellFormed.taking {a : Assembly} {es : List Expr} {t : IdSupply}
    (ha : a.WellFormed es) (hw : w.root.DistinctIds) (h : Relocated a.maxId w v t) :
    (a.taking v t).WellFormed (es ++ [v.root]) := by
  have hle := h.seed_le
  refine ⟨?_, ?_, ?_, Extension.nodup_merge ..⟩
  · rw [List.flatMap_append, List.flatMap_singleton, List.nodup_append]
    refine ⟨ha.nodup, h.nodup hw, ?_⟩
    rintro i hi j hj rfl
    have hbefore := ha.bounds i hi
    have hafter := h.bounds hj
    omega
  · intro i hi
    change i.toNat ≤ t.maxId.toNat
    rw [List.flatMap_append, List.flatMap_singleton, List.mem_append] at hi
    rcases hi with hi | hi
    · have hbefore := ha.bounds i hi
      omega
    · exact (h.bounds hi).2
  · intro key hkey
    obtain ⟨entry, hentry, rfl⟩ := List.mem_map.1 hkey
    rcases IdMap.mem_of_mem_union hentry with hentry | hentry
    · have hnew : entry.1 ∈ v.source.macroCalls.keys := List.mem_map_of_mem hentry
      rw [h.calls] at hnew
      obtain ⟨n, hn, hid⟩ := MacroCalls.exists_node_of_mem_keys hnew
      exact ⟨v.root, by simp, n, hn, hid⟩
    · obtain ⟨e, he, hn⟩ := ha.keys entry.1 (List.mem_map_of_mem hentry)
      exact ⟨e, List.mem_append_left _ he, hn⟩

theorem wellFormed_assembleCall {receiver : Option Workspace} {function : String}
    {args : List Workspace} (hargs : ∀ v ∈ args ++ receiver.toList, v.root.DistinctIds)
    (h : assembleCall budget receiver function args = .ok w) : w.WellFormed := by
  have hstart : Assembly.WellFormed ⟨.unset, .empty⟩ [] :=
    ⟨List.nodup_nil, fun i hi => absurd hi List.not_mem_nil, fun key hkey => absurd hkey List.not_mem_nil,
      List.nodup_nil⟩
  obtain ⟨a, es, ha, hsource, hid, hentries, hperm⟩ := assembleCall_invariant hstart
    (fun v hv a es v' t ha hrelocated => ha.taking (hargs v hv) hrelocated) h
  obtain ⟨⟨id, k⟩, source⟩ := w
  change k.entryIds = [] at hentries
  change k.children.Perm es at hperm
  have hslots := hperm.flatMap_right slots
  refine ⟨?_, ?_, hsource ▸ ha.tags⟩
  · apply List.Nodup.filter
    rw [slots_mk, hentries, List.cons_append, List.nil_append, List.nodup_cons]
    refine ⟨fun hmem => ?_, hslots.nodup_iff.2 ha.nodup⟩
    have hle := ha.bounds id (hslots.mem_iff.1 hmem)
    change id.toNat = a.maxId.toNat + 1 at hid
    omega
  · intro key hkey
    obtain ⟨e, he, n, hn, hkey⟩ := ha.keys key (hsource ▸ hkey)
    exact ⟨n, mem_preorder_mk.2 (.inr ⟨e, hperm.mem_iff.2 he, hn⟩), hkey⟩

/-- Every successful edit gives a well-formed workspace. -/
theorem wellFormed_apply {edit : Edit} (hw : w.WellFormed) (hedit : edit.Admissible)
    (h : edit.apply budget w = .ok v) : v.WellFormed := by
  have hoperands : ∀ v ∈ edit.operands.map (Operand.get w), v.root.DistinctIds := by
    intro v hv
    obtain ⟨o, ho, rfl⟩ := List.mem_map.1 hv
    cases o with
    | current => exact hw.distinct
    | given v => exact hedit.2 _ ho
  cases edit with
  | replace e target => exact wellFormed_replaceBy hw.distinct (hedit.1 e List.mem_cons_self) h
  | replaceBy donor target =>
    exact wellFormed_replaceBy hw.distinct (hoperands _ (by simp [Edit.operands])) h
  | bind name init result target populate =>
    obtain ⟨donor, hdonor, hreplace⟩ := replaceByBind_cases (hedit.1 result List.mem_cons_self) h
    exact wellFormed_replaceBy hw.distinct hdonor hreplace
  | mangle iterPrefix accuPrefix =>
    rw [Edit.apply] at h
    cases hmangle : w.mangle budget iterPrefix accuPrefix with
    | error err =>
      rw [hmangle] at h
      cases h
    | ok mangled =>
      rw [hmangle] at h
      cases h
      exact wellFormed_mangle hw hmangle
  | renumber => exact wellFormed_renumber hw h
  | globalCall function args =>
    change assembleCall budget none function (args.map (Operand.get w)) = .ok v at h
    exact wellFormed_assembleCall (by simpa [Edit.operands] using hoperands) h
  | memberCall target function args =>
    change assembleCall budget (some (target.get w)) function (args.map (Operand.get w)) = .ok v at h
    exact wellFormed_assembleCall (by simpa [Edit.operands] using hoperands) h

/-! ### All steps -/

/-- The workspaces of a session, from the first to the last. Each edit comes with its budget. -/
def session (w : Workspace) : List (Nat × Edit) → Except EditError (List Workspace)
  | [] => .ok [w]
  | (budget, edit) :: edits => do
    let next ← edit.apply budget w
    let rest ← session next edits
    pure (w :: rest)

/-- A session that starts well formed is well formed after every step. -/
theorem wellFormed_session {edits : List (Nat × Edit)} {ws : List Workspace} (hw : w.WellFormed)
    (hedits : ∀ e ∈ edits, e.2.Admissible) (h : session w edits = .ok ws) :
    ∀ v ∈ ws, v.WellFormed := by
  induction edits generalizing w ws with
  | nil =>
    cases h
    intro v hv
    exact List.mem_singleton.1 hv ▸ hw
  | cons edit edits ih =>
    rw [session, except_bind_eq_ok] at h
    obtain ⟨next, hnext, hrest⟩ := h
    obtain ⟨rest, hsession, hws⟩ := (except_bind_eq_ok ..).1 hrest
    cases hws
    have hwf := wellFormed_apply hw (hedits edit List.mem_cons_self) hnext
    intro v hv
    rcases List.mem_cons.1 hv with rfl | hv
    · exact hw
    · exact ih hwf (fun e he => hedits e (List.mem_cons_of_mem _ he)) hsession v hv

/-- All edits in one session. The donor shares ids with the host, has unset ids, a macro call without
a node and one extension twice; the initial value of the binding repeats an id. -/
theorem wellFormed_session_of_all_edits :
    let host : Workspace :=
      ⟨⟨⟨1⟩, .call ⟨none, "f", [⟨⟨2⟩, .ident ⟨"x"⟩⟩, ⟨⟨3⟩, .comprehension ⟨"i", ⟨⟨4⟩, .ident ⟨"xs"⟩⟩, "r",
        ⟨⟨5⟩, .ident ⟨"y"⟩⟩, ⟨⟨6⟩, .ident ⟨"r"⟩⟩, ⟨⟨7⟩, .ident ⟨"i"⟩⟩, ⟨⟨8⟩, .ident ⟨"r"⟩⟩⟩⟩]⟩⟩,
        { SourceInfo.empty with macroCalls := .ofList [(⟨3⟩, ⟨.unset, .call ⟨some ⟨⟨4⟩, .notSet⟩, "all",
          [⟨⟨9⟩, .ident ⟨"i"⟩⟩]⟩⟩)] }⟩
    let donor : Workspace :=
      ⟨⟨.unset, .list ⟨[⟨⟨2⟩, .ident ⟨"y"⟩⟩, ⟨.unset, .ident ⟨"z"⟩⟩], .empty⟩⟩,
        { SourceInfo.empty with
          macroCalls := .ofList [(⟨2⟩, ⟨⟨2⟩, .notSet⟩), (⟨40⟩, ⟨⟨3⟩, .notSet⟩)]
          extensions := [⟨"e", ⟨1, 0⟩, []⟩, ⟨"e", ⟨1, 0⟩, [.parser]⟩] }⟩
    let init : Expr := ⟨⟨1⟩, .list ⟨[⟨⟨1⟩, .notSet⟩], .empty⟩⟩
    let edits : List (Nat × Edit) := [(30, .replaceBy (.given donor) ⟨2⟩),
      (30, .bind "v" init ⟨⟨45⟩, .ident ⟨"i"⟩⟩ ⟨47⟩ true), (30, .mangle "i" "a"),
      (30, .replace ⟨⟨81⟩, .ident ⟨"y"⟩⟩ ⟨80⟩), (60, .memberCall .current "g" [.current]),
      (60, .globalCall "h" [.current, .given donor]), (60, .renumber)]
    host.WellFormed ∧ (∀ e ∈ edits, e.2.Admissible) ∧
      ∃ ws, session host edits = .ok ws ∧ ws.length = 8 ∧ ∀ v ∈ ws, v.WellFormed := by
  intro host donor init edits
  have hhost : host.WellFormed := by decide
  have hedits : ∀ e ∈ edits, e.2.Admissible := by decide
  have hlength : (session host edits).toOption.map List.length = some 8 := by decide +kernel
  cases hsession : session host edits with
  | error err =>
    rw [hsession] at hlength
    cases hlength
  | ok ws =>
    rw [hsession] at hlength
    exact ⟨hhost, hedits, ws, rfl, Option.some.inj hlength, wellFormed_session hhost hedits hsession⟩

end Workspace

end CelEdit
