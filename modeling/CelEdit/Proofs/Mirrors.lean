import CelEdit.Proofs.MacroTransfer
import CelEdit.Proofs.Sessions

/-!
# Shadows mirror the tree

After an edit every shadow shows the tree as it is: a part that carries the id of a node is a copy of
this node in which comprehensions are placeholders. The shadows may be stale before. Only a shadow
that follows a replaced loop step needs a root of its own, for the step changes its arguments.
-/

namespace CelEdit.Workspace

open Runs CelEdit.Expr

variable {budget : Nat} {w v host donor : Workspace} {target : NodeId}

/-- The shadows show the tree. -/
def Mirrored (w : Workspace) : Prop := MacroCalls.Mirrored w.root w.source.macroCalls

/-- No root of a shadow carries the id of a node. -/
def RootsApart (w : Workspace) : Prop :=
  ∀ e ∈ w.source.macroCalls.entries, ∀ n ∈ w.root.preorder, e.2.id.isSet → e.2.id ≠ n.id

instance (w : Workspace) : Decidable w.Mirrored :=
  inferInstanceAs (Decidable (∀ e ∈ _, ∀ x ∈ _, _ ∧ ∀ n ∈ _, _ → _ → _))

instance (w : Workspace) : Decidable w.RootsApart :=
  inferInstanceAs (Decidable (∀ e ∈ _, ∀ n ∈ _, _ → _))

/-! ### Replacements -/

/-- A shadow of the host keeps a root of its own. -/
lemma DistinctGraft.shadow_root_ne {seed : NodeId} {stable : Workspace} {p : Position}
    {s t : IdSupply} (h : DistinctGraft seed host donor stable target p w s t)
    (hroots : host.RootsApart) {e : NodeId × Expr} (he : e ∈ host.source.macroCalls.entries) :
    ∀ n ∈ w.root.preorder, t.exchangeOf e.2.id ≠ n.id := by
  intro n hn hid
  obtain ⟨q, hq⟩ := mem_preorder_iff.1 hn
  have hset := (IdSupply.exchanged?_of_isSet_exchangeOf (hid ▸ h.isSet_at hq)).1
  have hne : e.2.id ≠ target := by
    obtain ⟨x, hx, hxid⟩ := h.grafted.at_target
    rw [← hxid]
    exact hroots e he x (mem_preorder_iff.2 ⟨p, hx⟩) hset
  have hle := (toNat_le_maxId_of_entry he).2 e.2.id (id_mem_slots (self_mem_preorder _))
  obtain ⟨-, m, hm, hmid⟩ := h.exists_host_at hq hle hne hid
  exact hroots e he m (mem_preorder_iff.2 ⟨q, hm⟩) hset hmid.symm

theorem mirrored_replaceBy (hhost : host.root.DistinctIds) (hroots : host.RootsApart)
    (hdonor : donor.root.DistinctIds) (h : replaceBy budget host donor target = .ok w) :
    w.Mirrored := by
  obtain hadopted | ⟨seed, stable, p, s, t, hgraft⟩ := adopted_or_distinctGraft hhost hdonor h
  · rw [Mirrored, hadopted.source, hadopted.root]
    exact MacroCalls.mirrored_derived_none hhost
  · rw [Mirrored, hgraft.grafted.source]
    apply MacroCalls.mirrored_derived_some hgraft.distinct
    intro e he n hnode
    obtain ⟨hn, hid⟩ := mem_of_nodesById hnode
    obtain ⟨q, hq⟩ := mem_preorder_iff.1 hn
    rcases hgraft.mem_combined.1 he with hstable | ⟨hmem, -⟩
    · -- the expansion lies inside of the donor
      have hlt : host.maxId.toNat < e.1.toNat :=
        hgraft.lt_of_mem_keys_stable (List.mem_map_of_mem hstable)
      obtain ⟨r, m, rfl, -, -⟩ := hgraft.exists_stable_at hq hlt hid.symm
      exact .inl (hgraft.replacedStep?_eq_none hq)
    · exact .inr (hgraft.shadow_root_ne hroots hmem)

/-! ### Calls -/

/-- The ids in the shadows of a relocated workspace are new. -/
lemma Relocated.shadow_id {seed : NodeId} {t : IdSupply} (h : Relocated seed w v t)
    {e : NodeId × Expr} {x : Expr} (he : e ∈ v.source.macroCalls.entries) (hx : x ∈ e.2.preorder) :
    x.id = .unset ∨ seed.toNat < x.id.toNat ∧ x.id.toNat ≤ t.maxId.toNat := by
  rw [h.calls] at he
  rcases MacroCalls.mem_slots_of_mem_derived he (id_mem_slots hx) with hroot | ⟨-, -, i, -, hi⟩
  · exact .inr (h.bounds hroot)
  · rw [hi]
    exact h.sound.exchangeOf i

/-- The invariant of a call under construction: the shadows show the trees taken in, and no id is
above the largest one. -/
structure Assembly.Mirrored (a : Assembly) (es : List Expr) : Prop where
  bounds : ∀ c ∈ es, ∀ n ∈ c.preorder, n.id.toNat ≤ a.maxId.toNat
  shadow_bounds : ∀ e ∈ a.source.macroCalls.entries, ∀ x ∈ e.2.preorder,
    x.id.toNat ≤ a.maxId.toNat
  collapsed : ∀ e ∈ a.source.macroCalls.entries, ∀ x ∈ e.2.preorder,
    x.kind.tag ≠ .comprehension
  shows : ∀ e ∈ a.source.macroCalls.entries, ∀ x ∈ e.2.preorder, ∀ c ∈ es, ∀ n ∈ c.preorder,
    x.id.isSet → x.id = n.id → x = MacroCalls.collapse n

lemma Assembly.Mirrored.taking {a : Assembly} {es : List Expr} {t : IdSupply} (ha : a.Mirrored es)
    (hw : w.root.DistinctIds) (h : Relocated a.maxId w v t) :
    (a.taking v t).Mirrored (es ++ [v.root]) := by
  have hle := h.seed_le
  have hnew : MacroCalls.Mirrored v.root v.source.macroCalls := by
    rw [h.calls]
    exact MacroCalls.mirrored_derived_none (h.distinct hw)
  refine ⟨?_, ?_, ?_, ?_⟩
  · intro c hc n hn
    change n.id.toNat ≤ t.maxId.toNat
    rcases List.mem_append.1 hc with hc | hc
    · have hbefore := ha.bounds c hc n hn
      omega
    · rw [List.mem_singleton.1 hc] at hn
      exact (h.bounds (id_mem_slots hn)).2
  · intro e he x hx
    change x.id.toNat ≤ t.maxId.toNat
    rcases IdMap.mem_of_mem_union he with he | he
    · rcases h.shadow_id he hx with hunset | hbounds
      · rw [hunset]
        exact Nat.zero_le _
      · exact hbounds.2
    · have hbefore := ha.shadow_bounds e he x hx
      omega
  · intro e he x hx
    rcases IdMap.mem_of_mem_union he with he | he
    · exact (hnew e he x hx).1
    · exact ha.collapsed e he x hx
  · intro e he x hx c hc n hn hset hid
    rcases IdMap.mem_of_mem_union he with he | he
    · rcases List.mem_append.1 hc with hc | hc
      · -- a new shadow and an old tree
        have hbefore := ha.bounds c hc n hn
        rcases h.shadow_id he hx with hunset | hbounds
        · rw [hunset] at hset
          exact absurd hset Bool.false_ne_true
        · rw [hid] at hbounds
          omega
      · rw [List.mem_singleton.1 hc] at hn
        exact (hnew e he x hx).2 n hn hset hid
    · rcases List.mem_append.1 hc with hc | hc
      · exact ha.shows e he x hx c hc n hn hset hid
      · -- an old shadow and the new tree
        rw [List.mem_singleton.1 hc] at hn
        have hbefore := ha.shadow_bounds e he x hx
        have hafter := h.bounds (id_mem_slots hn)
        rw [hid] at hbefore
        omega

theorem mirrored_assembleCall {receiver : Option Workspace} {function : String}
    {args : List Workspace} (hargs : ∀ v ∈ args ++ receiver.toList, v.root.DistinctIds)
    (h : assembleCall budget receiver function args = .ok w) : w.Mirrored := by
  have hstart : Assembly.Mirrored ⟨.unset, .empty⟩ [] :=
    ⟨fun c hc => absurd hc List.not_mem_nil, fun e he => absurd he List.not_mem_nil,
      fun e he => absurd he List.not_mem_nil, fun e he => absurd he List.not_mem_nil⟩
  obtain ⟨a, es, ha, hsource, hid, -, hperm⟩ := assembleCall_invariant hstart
    (fun v hv a es v' t ha hrelocated => ha.taking (hargs v hv) hrelocated) h
  rw [Mirrored, hsource]
  intro e he x hx
  refine ⟨ha.collapsed e he x hx, ?_⟩
  intro n hn hset hxn
  obtain ⟨⟨id, k⟩, source⟩ := w
  rcases mem_preorder_mk.1 hn with rfl | ⟨c, hc, hn⟩
  · -- the id of the call is above all of them
    have hle := ha.shadow_bounds e he x hx
    rw [hxn] at hle
    change id.toNat = a.maxId.toNat + 1 at hid
    change id.toNat ≤ a.maxId.toNat at hle
    omega
  · exact ha.shows e he x hx c (hperm.mem_iff.1 hc) n hn hset hxn

/-! ### All edits -/

/-- After every edit but mangling, the shadows show the tree. -/
theorem mirrored_apply {edit : Edit} (hedit : ∀ iterPrefix accuPrefix, edit ≠ .mangle iterPrefix accuPrefix)
    (hexpressions : ∀ e ∈ edit.expressions, e.DistinctIds)
    (hoperands : ∀ o ∈ edit.operands, (o.get w).root.DistinctIds ∧ (o.get w).RootsApart)
    (h : edit.apply budget w = .ok v) : v.Mirrored := by
  have hdistinct : ∀ v ∈ edit.operands.map (Operand.get w), v.root.DistinctIds := by
    intro v hv
    obtain ⟨o, ho, rfl⟩ := List.mem_map.1 hv
    exact (hoperands o ho).1
  cases edit with
  | replace e target =>
    obtain ⟨hw, hroots⟩ := hoperands .current List.mem_cons_self
    exact mirrored_replaceBy hw hroots (hexpressions e List.mem_cons_self) h
  | replaceBy donor target =>
    obtain ⟨hw, hroots⟩ := hoperands .current List.mem_cons_self
    exact mirrored_replaceBy hw hroots (hdistinct _ (by simp [Edit.operands])) h
  | bind name init result target populate =>
    obtain ⟨hw, hroots⟩ := hoperands .current List.mem_cons_self
    obtain ⟨donor, hdonor, hreplace⟩ := replaceByBind_cases (hexpressions result List.mem_cons_self) h
    exact mirrored_replaceBy hw hroots hdonor hreplace
  | mangle iterPrefix accuPrefix => exact absurd rfl (hedit iterPrefix accuPrefix)
  | renumber =>
    obtain ⟨t, hrelocated⟩ := relocated_of_renumber h
    rw [Mirrored, hrelocated.calls]
    exact MacroCalls.mirrored_derived_none
      (hrelocated.distinct (hoperands .current List.mem_cons_self).1)
  | globalCall function args =>
    change assembleCall budget none function (args.map (Operand.get w)) = .ok v at h
    exact mirrored_assembleCall (by simpa [Edit.operands] using hdistinct) h
  | memberCall target function args =>
    change assembleCall budget (some (target.get w)) function (args.map (Operand.get w)) = .ok v at h
    exact mirrored_assembleCall (by simpa [Edit.operands] using hdistinct) h

/-- The added list of a mapping macro is replaced by one with two elements. The shadow is stale at the
range, and its call takes in both elements. -/
theorem mirrored_apply_map_step :
    let loopStep : Expr := ⟨⟨5⟩, .call ⟨none, "_+_",
      [⟨⟨6⟩, .ident ⟨"r"⟩⟩, ⟨⟨7⟩, .list ⟨[⟨⟨8⟩, .ident ⟨"x"⟩⟩], .empty⟩⟩]⟩⟩
    let shadow : Expr := ⟨⟨11⟩, .call ⟨some ⟨⟨2⟩, .notSet⟩, "map",
      [⟨⟨10⟩, .ident ⟨"x"⟩⟩, ⟨⟨8⟩, .ident ⟨"x"⟩⟩]⟩⟩
    let w : Workspace :=
      ⟨⟨⟨1⟩, .comprehension ⟨"x", ⟨⟨2⟩, .ident ⟨"xs"⟩⟩, "r", ⟨⟨3⟩, .list ⟨[], .empty⟩⟩,
        ⟨⟨4⟩, .ident ⟨"c"⟩⟩, loopStep, ⟨⟨9⟩, .ident ⟨"r"⟩⟩⟩⟩,
        { SourceInfo.empty with macroCalls := .ofList [(⟨1⟩, shadow)] }⟩
    let edit : Edit :=
      .replace ⟨.unset, .list ⟨[⟨⟨1⟩, .ident ⟨"y"⟩⟩, ⟨⟨2⟩, .ident ⟨"z"⟩⟩], .empty⟩⟩ ⟨7⟩
    (∀ e ∈ edit.expressions, e.DistinctIds) ∧
      (∀ o ∈ edit.operands, (o.get w).root.DistinctIds ∧ (o.get w).RootsApart) ∧
      ∃ v, edit.apply 20 w = .ok v ∧
        v.source.macroCalls.entries.map (fun e => e.2.children.length) = [4] ∧ v.Mirrored := by
  intro loopStep shadow w edit
  have hexpressions : ∀ e ∈ edit.expressions, e.DistinctIds := by decide
  have hoperands : ∀ o ∈ edit.operands, (o.get w).root.DistinctIds ∧ (o.get w).RootsApart := by decide
  have hchildren : (edit.apply 20 w).toOption.map
      (fun v => v.source.macroCalls.entries.map (fun e => e.2.children.length)) = some [4] := by
    decide +kernel
  cases hedit : edit.apply 20 w with
  | error err =>
    rw [hedit] at hchildren
    cases hchildren
  | ok v =>
    rw [hedit] at hchildren
    have hmirrored := mirrored_apply (fun _ _ => Edit.noConfusion) hexpressions hoperands hedit
    exact ⟨hexpressions, hoperands, v, rfl, Option.some.inj hchildren, hmirrored⟩

end CelEdit.Workspace
