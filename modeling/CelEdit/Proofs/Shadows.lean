import CelEdit.Proofs.Renumbering

/-!
# Shadows

How the shadow of a macro call is derived again from a tree, as functions without a supply: the ids
are exchanged by a fixed function, parts that carry the id of a node are copied from the tree, and
comprehensions are collapsed. What a supply remembers at the end of an edit is such a function.
-/

namespace CelEdit.MacroCalls

open Runs

/-- The node that an id names. -/
def named? (root : Expr) (i : NodeId) : Option Expr :=
  if i.isSet then root.nodesById.get? i else none

lemma mem_of_named? {root n : Expr} {i : NodeId} (h : named? root i = some n) :
    n ∈ root.preorder ∧ n.id = i := by
  rw [named?, Option.ite_none_right_eq_some] at h
  exact Expr.mem_of_nodesById h.2

lemma named?_unset (root : Expr) : named? root .unset = none := rfl

lemma named?_isSome {root n : Expr} (hn : n ∈ root.preorder) (hset : n.id.isSet) :
    (named? root n.id).isSome := by
  rw [named?, if_pos hset, Option.isSome_iff_exists]
  exact Expr.exists_nodesById hn

lemma named?_eq_none_iff {root : Expr} {i : NodeId} :
    named? root i = none ↔ ∀ n ∈ root.preorder, i.isSet → i ≠ n.id := by
  rw [named?]
  by_cases hset : i.isSet
  · rw [if_pos hset, Expr.nodesById_eq_none_iff]
    exact ⟨fun h n hn _ hid => h n hn hid.symm, fun h n hn hid => h n hn hset hid.symm⟩
  · rw [if_neg hset]
    exact iff_of_true rfl (fun n _ h => absurd h hset)

lemma refresh_mk (root : Expr) (id : NodeId) (k : Kind Expr) :
    refresh root.nodesById ⟨id, k⟩ =
      match named? root id with
      | some node => node
      | none => ⟨id, k.mapChildren (refresh root.nodesById)⟩ := by
  conv_lhs => unfold refresh
  rw [Expr.fold_eq, Expr.snd_paired]
  rfl

lemma refresh_of_named {root e n : Expr} (h : named? root e.id = some n) :
    refresh root.nodesById e = n := by
  obtain ⟨id, k⟩ := e
  rw [refresh_mk, h]

lemma refresh_of_not_named {root : Expr} {id : NodeId} (h : named? root id = none) (k : Kind Expr) :
    refresh root.nodesById ⟨id, k⟩ = ⟨id, k.mapChildren (refresh root.nodesById)⟩ := by
  rw [refresh_mk, h]

lemma collapse_comprehension (id : NodeId) (c : Comprehension Expr) :
    collapse ⟨id, .comprehension c⟩ = ⟨id, .notSet⟩ := by
  unfold collapse
  rw [Expr.fold_eq]
  rfl

lemma collapse_of_tag_ne {k : Kind Expr} (h : k.tag ≠ .comprehension) (id : NodeId) :
    collapse ⟨id, k⟩ = ⟨id, k.mapChildren collapse⟩ := by
  conv_lhs => unfold collapse
  rw [Expr.fold_eq]
  cases k with
  | comprehension c => exact absurd rfl h
  | _ => exact congrArg (Expr.mk id) (Expr.snd_paired ..)

lemma collapse_id (e : Expr) : (collapse e).id = e.id := by
  obtain ⟨id, k⟩ := e
  by_cases h : k.tag = .comprehension
  · cases k with
    | comprehension c => rw [collapse_comprehension]
    | _ => cases h
  · rw [collapse_of_tag_ne h]

lemma tag_collapse (e : Expr) : (collapse e).kind.tag ≠ .comprehension := by
  obtain ⟨id, k⟩ := e
  by_cases h : k.tag = .comprehension
  · cases k with
    | comprehension c =>
      rw [collapse_comprehension]
      exact fun h => by cases h
    | _ => cases h
  · rw [collapse_of_tag_ne h, Kind.tag_mapChildren]
    exact h

/-- The nodes of a collapsed tree are collapsed nodes of the tree. -/
theorem mem_preorder_collapse {x e : Expr} (h : x ∈ (collapse e).preorder) :
    ∃ y ∈ e.preorder, x = collapse y := by
  induction e using Expr.induct with
  | node id k ih =>
    by_cases htag : k.tag = .comprehension
    · cases k with
      | comprehension c =>
        rw [collapse_comprehension, Expr.mem_preorder_mk] at h
        rcases h with rfl | ⟨c', hc', -⟩
        · exact ⟨_, Expr.self_mem_preorder _, (collapse_comprehension id c).symm⟩
        · cases hc'
      | _ => cases htag
    · rw [collapse_of_tag_ne htag, Expr.mem_preorder_mk] at h
      rcases h with rfl | ⟨c', hc', hx⟩
      · exact ⟨_, Expr.self_mem_preorder _, (collapse_of_tag_ne htag id).symm⟩
      · rw [Kind.children_mapChildren, List.mem_map] at hc'
        obtain ⟨c, hc, rfl⟩ := hc'
        obtain ⟨y, hy, rfl⟩ := ih c hc hx
        exact ⟨y, Expr.mem_preorder_mk.2 (.inr ⟨c, hc, hy⟩), rfl⟩

/-! ### Mirroring -/

/-- Every part that carries the id of a node is that node. -/
def Mirrors (root e : Expr) : Prop :=
  ∀ x ∈ e.preorder, ∀ n ∈ root.preorder, x.id.isSet → x.id = n.id → x = n

lemma mirrors_of_mem {root e : Expr} (hroot : root.DistinctIds) (he : e ∈ root.preorder) :
    Mirrors root e := by
  intro x hx n hn hset hid
  exact hroot.node_eq (Expr.mem_preorder_trans hx he) hn hset hid

lemma mirrors_mk {root : Expr} {id : NodeId} {k : Kind Expr}
    (hid : ∀ n ∈ root.preorder, id.isSet → id ≠ n.id) (hchildren : ∀ c ∈ k.children, Mirrors root c) :
    Mirrors root ⟨id, k⟩ := by
  intro x hx n hn hset heq
  rcases Expr.mem_preorder_mk.1 hx with rfl | ⟨c, hc, hx⟩
  · exact absurd heq (hid n hn hset)
  · exact hchildren c hc x hx n hn hset heq

lemma mirrors_refresh {root : Expr} (hroot : root.DistinctIds) (e : Expr) :
    Mirrors root (refresh root.nodesById e) := by
  induction e using Expr.induct with
  | node id k ih =>
    cases hnamed : named? root id with
    | some n =>
      rw [refresh_of_named hnamed]
      exact mirrors_of_mem hroot (mem_of_named? hnamed).1
    | none =>
      rw [refresh_of_not_named hnamed]
      apply mirrors_mk (named?_eq_none_iff.1 hnamed)
      intro c hc
      rw [Kind.children_mapChildren, List.mem_map] at hc
      obtain ⟨c, hc, rfl⟩ := hc
      exact ih c hc

lemma refresh_id (root e : Expr) : (refresh root.nodesById e).id = e.id := by
  obtain ⟨id, k⟩ := e
  cases hnamed : named? root id with
  | none => rw [refresh_of_not_named hnamed]
  | some n => rw [refresh_of_named hnamed, (mem_of_named? hnamed).2]

/-- The elements that follow a replaced step are nodes below the step. -/
lemma mem_of_replacedStep? {expanded : Expr} {replaced : NodeId} {elements : List Expr}
    (h : replacedStep? expanded replaced = some elements) :
    ∃ step ∈ expanded.children, ∃ l ∈ step.children, l.id = replaced ∧ elements = l.children := by
  unfold replacedStep? at h
  split at h
  · next c hexpanded =>
    split at h
    · next target first id l hstep =>
      split at h
      · next hid =>
        rw [Option.some.injEq] at h
        refine ⟨c.loopStep, by simp [Expr.children, hexpanded, Kind.children], ⟨id, .list l⟩, ?_, hid,
          h.symm⟩
        simp [Expr.children, hstep, Kind.children]
      · cases h
    · cases h
  · cases h

lemma mirrors_followMapStep {root shadow expanded : Expr} {replaced : NodeId}
    (hroot : root.DistinctIds) (hexpanded : expanded ∈ root.preorder) (hshadow : Mirrors root shadow)
    (hid : ∀ n ∈ root.preorder, shadow.id.isSet → shadow.id ≠ n.id) :
    Mirrors root (followMapStep shadow expanded replaced) := by
  unfold followMapStep
  split
  · next elements target function variable_ last helements hkind =>
    obtain ⟨step, hstep, l, hl, -, rfl⟩ := mem_of_replacedStep? helements
    apply mirrors_mk hid
    intro c hc
    have hlmem : l ∈ root.preorder :=
      Expr.mem_preorder_trans (Expr.mem_preorder_of_mem_children hl)
        (Expr.mem_preorder_trans (Expr.mem_preorder_of_mem_children hstep) hexpanded)
    have hold : ∀ d ∈ shadow.children, Mirrors root d := by
      intro d hd x hx
      exact hshadow x (Expr.mem_preorder_trans hx (Expr.mem_preorder_of_mem_children hd))
    simp only [Kind.children, List.mem_append, List.mem_cons] at hc
    rcases hc with htarget | rfl | helement
    · exact hold c (by simp [Expr.children, hkind, Kind.children, Option.mem_toList.1 htarget])
    · exact hold c (by simp [Expr.children, hkind, Kind.children])
    · exact mirrors_of_mem hroot
        (Expr.mem_preorder_trans (Expr.mem_preorder_of_mem_children helement) hlmem)
  · exact hshadow

lemma mem_slots_mapChildren {g : Expr → Expr} {id i : NodeId} {k : Kind Expr}
    (h : i ∈ Expr.slots ⟨id, k.mapChildren g⟩) :
    i ∈ Expr.slots ⟨id, k⟩ ∨ ∃ c ∈ k.children, i ∈ (g c).slots := by
  rw [Expr.slots_mk, Kind.entryIds_mapChildren, Kind.children_mapChildren, List.mem_append] at h
  rcases h with hi | hi
  · rw [Expr.slots_mk]
    exact .inl (List.mem_append_left _ hi)
  · obtain ⟨d, hd, hi⟩ := List.mem_flatMap.1 hi
    obtain ⟨c, hc, rfl⟩ := List.mem_map.1 hd
    exact .inr ⟨c, hc, hi⟩

lemma mem_slots_of_mem_children {id i : NodeId} {k : Kind Expr} {c : Expr} (hc : c ∈ k.children)
    (hi : i ∈ c.slots) : i ∈ Expr.slots ⟨id, k⟩ :=
  (Expr.slots_sublist_of_mem_preorder (Expr.mem_preorder_mk.2
    (.inr ⟨c, hc, Expr.self_mem_preorder c⟩))).subset hi

lemma mem_slots_collapse {e : Expr} {i : NodeId} (h : i ∈ (collapse e).slots) : i ∈ e.slots := by
  induction e using Expr.induct with
  | node id k ih =>
    by_cases htag : k.tag = .comprehension
    · cases k with
      | comprehension c =>
        obtain rfl : i = id := by
          simpa [collapse_comprehension, Expr.slots_mk, Kind.entryIds, Kind.children] using h
        exact Expr.id_mem_slots (Expr.self_mem_preorder _)
      | _ => cases htag
    · rw [collapse_of_tag_ne htag] at h
      rcases mem_slots_mapChildren h with hi | ⟨c, hc, hi⟩
      · exact hi
      · exact mem_slots_of_mem_children hc (ih c hc hi)

lemma mem_slots_refresh {root e : Expr} {i : NodeId} (h : i ∈ (refresh root.nodesById e).slots) :
    i ∈ root.slots ∨ i ∈ e.slots := by
  induction e using Expr.induct with
  | node id k ih =>
    cases hnamed : named? root id with
    | some n =>
      rw [refresh_of_named hnamed] at h
      exact .inl ((Expr.slots_sublist_of_mem_preorder (mem_of_named? hnamed).1).subset h)
    | none =>
      rw [refresh_of_not_named hnamed] at h
      rcases mem_slots_mapChildren h with hi | ⟨c, hc, hi⟩
      · exact .inr hi
      · exact (ih c hc hi).imp_right (mem_slots_of_mem_children hc)

lemma mem_slots_followMapStep {root shadow expanded : Expr} {replaced i : NodeId}
    (hexpanded : expanded ∈ root.preorder) (h : i ∈ (followMapStep shadow expanded replaced).slots) :
    i ∈ root.slots ∨ i ∈ shadow.slots := by
  unfold followMapStep at h
  split at h
  · next elements target function variable_ last helements hkind =>
    obtain ⟨step, hstep, l, hl, -, rfl⟩ := mem_of_replacedStep? helements
    obtain ⟨id, k⟩ := shadow
    obtain rfl : k = _ := hkind
    rw [Expr.slots_mk, List.mem_append] at h
    rcases h with hnode | hbelow
    · rw [Expr.slots_mk]
      exact .inr (List.mem_append_left _ hnode)
    · obtain ⟨c, hc, hi⟩ := List.mem_flatMap.1 hbelow
      simp only [Kind.children, List.mem_append, List.mem_cons] at hc
      rcases hc with htarget | rfl | helement
      · exact .inr (mem_slots_of_mem_children (List.mem_append_left _ htarget) hi)
      · exact .inr (mem_slots_of_mem_children (List.mem_append_right _ List.mem_cons_self) hi)
      · have hmem : c ∈ root.preorder :=
          Expr.mem_preorder_trans (Expr.mem_preorder_of_mem_children helement)
            (Expr.mem_preorder_trans (Expr.mem_preorder_of_mem_children hl)
              (Expr.mem_preorder_trans (Expr.mem_preorder_of_mem_children hstep) hexpanded))
        exact .inl ((Expr.slots_sublist_of_mem_preorder hmem).subset hi)
  · exact .inr h

/-! ### Two trees in turn -/

lemma tag_mapEntryIds {α : Type} (f : NodeId → NodeId) (k : Kind α) :
    (k.mapEntryIds f).tag = k.tag := by
  cases k <;> rfl

/-- Deriving a shadow from one tree and then, with ids exchanged, from another one is the same as
deriving it from the second tree at once, if the exchange keeps which ids name nodes. -/
theorem collapse_refresh_twice {root root' : Expr} {f : NodeId → NodeId} {e : Expr}
    (h : ∀ x ∈ e.preorder, (named? root' (f x.id)).isSome = (named? root x.id).isSome) :
    collapse (refresh root'.nodesById ((collapse (refresh root.nodesById e)).mapIds f)) =
      collapse (refresh root'.nodesById (e.mapIds f)) := by
  induction e using Expr.induct with
  | node id k ih =>
    have hroot := h _ (Expr.self_mem_preorder _)
    cases hnamed : named? root id with
    | some n =>
      have hn : refresh root.nodesById ⟨id, k⟩ = n := refresh_of_named hnamed
      rw [hnamed, Option.isSome_some, Option.isSome_iff_exists] at hroot
      obtain ⟨n', hn'⟩ := hroot
      have hid : ((collapse n).mapIds f).id = f id := by
        rw [Expr.id_mapIds, collapse_id, (mem_of_named? hnamed).2]
      have hid' : (Expr.mapIds f ⟨id, k⟩).id = f id := Expr.id_mapIds f ⟨id, k⟩
      rw [hn, refresh_of_named (hid ▸ hn'), refresh_of_named (hid' ▸ hn')]
    | none =>
      rw [hnamed, Option.isSome_none, Option.isSome_eq_false_iff, Option.isNone_iff_eq_none] at hroot
      rw [refresh_of_not_named hnamed, Expr.mapIds_mk, refresh_of_not_named hroot]
      by_cases htag : k.tag = .comprehension
      · cases k with
        | comprehension c =>
          -- both ways end in the placeholder
          have hleft : collapse ⟨id, (Kind.comprehension c).mapChildren (refresh root.nodesById)⟩ =
              ⟨id, .notSet⟩ := collapse_comprehension id _
          rw [hleft, Expr.mapIds_mk, refresh_of_not_named hroot]
          exact (collapse_of_tag_ne (k := .notSet) (by decide) _).trans
            (collapse_comprehension (f id) _).symm
        | _ => cases htag
      · rw [collapse_of_tag_ne (by rwa [Kind.tag_mapChildren]), Expr.mapIds_mk, refresh_of_not_named hroot,
          collapse_of_tag_ne (by simpa only [Kind.tag_mapChildren, tag_mapEntryIds] using htag),
          collapse_of_tag_ne (by simpa only [Kind.tag_mapChildren, tag_mapEntryIds] using htag)]
        simp only [Kind.mapEntryIds_mapChildren, Kind.mapChildren_mapChildren]
        congr 1
        apply Kind.mapChildren_congr
        intro c hc
        rw [Kind.children_mapEntryIds] at hc
        exact ih c hc (fun x hx => h x (Expr.mem_preorder_mk.2 (.inr ⟨c, hc, hx⟩)))

/-! ### Deriving the table -/

/-- The shadow of a node, derived from a shadow whose ids have been exchanged. -/
def derive (replaced : Option NodeId) (root expanded shadow : Expr) : Expr :=
  collapse (match replaced with
    | some id => followMapStep (refresh root.nodesById shadow) expanded id
    | none => refresh root.nodesById shadow)

lemma derive_of_replacedStep?_eq_none {root expanded : Expr} {replaced : NodeId}
    (h : replacedStep? expanded replaced = none) (shadow : Expr) :
    derive (some replaced) root expanded shadow = collapse (refresh root.nodesById shadow) := by
  have hsame : followMapStep (refresh root.nodesById shadow) expanded replaced =
      refresh root.nodesById shadow := by
    unfold followMapStep
    rw [h]
  exact congrArg collapse hsame

/-- What becomes of an entry when ids are exchanged by a function. -/
def derivedEntry (replaced : Option NodeId) (root : Expr) (f : NodeId → NodeId)
    (entry : NodeId × Expr) : Option (NodeId × Expr) :=
  (root.nodesById.get? (f entry.1)).map
    (fun expanded => (f entry.1, derive replaced root expanded (entry.2.mapIds f)))

/-- All macro calls derived from a tree, when ids are exchanged by a function. -/
def derived (replaced : Option NodeId) (root : Expr) (f : NodeId → NodeId) (calls : IdMap Expr) :
    IdMap Expr :=
  .ofList (calls.entries.filterMap (derivedEntry replaced root f))

/-- No part of a shadow is a comprehension, and parts that carry the id of a node are that node,
collapsed. -/
def Mirrored (root : Expr) (calls : IdMap Expr) : Prop :=
  ∀ e ∈ calls.entries, ∀ x ∈ e.2.preorder, x.kind.tag ≠ .comprehension ∧
    ∀ n ∈ root.preorder, x.id.isSet → x.id = n.id → x = collapse n

lemma Mirrors.collapse {root e x : Expr} (h : Mirrors root e) (hx : x ∈ (collapse e).preorder) :
    x.kind.tag ≠ .comprehension ∧
      ∀ n ∈ root.preorder, x.id.isSet → x.id = n.id → x = MacroCalls.collapse n := by
  obtain ⟨y, hy, rfl⟩ := mem_preorder_collapse hx
  refine ⟨tag_collapse y, ?_⟩
  intro n hn hset hid
  rw [collapse_id] at hset hid
  rw [h y hy n hn hset hid]

section Table

variable {replaced : Option NodeId} {root : Expr} {f : NodeId → NodeId} {calls : IdMap Expr}

lemma derivedEntry_eq_some {entry entry' : NodeId × Expr} :
    derivedEntry replaced root f entry = some entry' ↔ ∃ expanded,
      root.nodesById.get? (f entry.1) = some expanded ∧
        entry' = (f entry.1, derive replaced root expanded (entry.2.mapIds f)) := by
  rw [derivedEntry, Option.map_eq_some_iff]
  exact ⟨fun ⟨x, hx, h⟩ => ⟨x, hx, h.symm⟩, fun ⟨x, hx, h⟩ => ⟨x, hx, h.symm⟩⟩

/-- Every derived entry comes from an entry, and its key names a node. -/
theorem exists_of_mem_derived {key : NodeId} {shadow : Expr}
    (h : (key, shadow) ∈ (derived replaced root f calls).entries) :
    ∃ entry ∈ calls.entries, ∃ expanded, root.nodesById.get? (f entry.1) = some expanded ∧
      key = f entry.1 ∧ shadow = derive replaced root expanded (entry.2.mapIds f) := by
  rw [← IdMap.get?_eq_some_iff, derived, IdMap.get?_ofList, Option.map_eq_some_iff] at h
  obtain ⟨⟨key', shadow'⟩, hfind, rfl⟩ := h
  have hkey := List.find?_some hfind
  rw [decide_eq_true_iff] at hkey
  have hmem := List.mem_reverse.1 (List.mem_of_find?_eq_some hfind)
  obtain ⟨entry, hentry, hderived⟩ := List.mem_filterMap.1 hmem
  obtain ⟨expanded, hexpanded, heq⟩ := derivedEntry_eq_some.1 hderived
  obtain ⟨rfl, rfl⟩ := Prod.mk.inj heq
  exact ⟨entry, hentry, expanded, hexpanded, hkey.symm, rfl⟩

theorem mirrored_derived_none (hroot : root.DistinctIds) :
    Mirrored root (derived none root f calls) := by
  rintro ⟨key, shadow⟩ he x hx
  obtain ⟨entry, -, expanded, -, -, rfl⟩ := exists_of_mem_derived he
  exact (mirrors_refresh hroot _).collapse hx

/-- A table is mirrored after a node has been replaced, if each shadow that follows the replaced node
has a root of its own. -/
theorem mirrored_derived_some {id : NodeId} (hroot : root.DistinctIds)
    (h : ∀ entry ∈ calls.entries, ∀ expanded,
      root.nodesById.get? (f entry.1) = some expanded →
      replacedStep? expanded id = none ∨ ∀ n ∈ root.preorder, f entry.2.id ≠ n.id) :
    Mirrored root (derived (some id) root f calls) := by
  rintro ⟨key, shadow⟩ he x hx
  obtain ⟨entry, hentry, expanded, hexpanded, -, rfl⟩ := exists_of_mem_derived he
  have hrefresh := mirrors_refresh hroot (entry.2.mapIds f)
  rcases h entry hentry expanded hexpanded with hstep | hid
  · rw [derive_of_replacedStep?_eq_none hstep] at hx
    exact hrefresh.collapse hx
  · refine (mirrors_followMapStep hroot (Expr.mem_of_nodesById hexpanded).1 hrefresh ?_).collapse hx
    intro n hn _
    rw [refresh_id, Expr.id_mapIds]
    exact hid n hn

/-- The ids of nodes and entries in a derived table are those of the tree and exchanges of ids in the
shadow it was derived from. -/
theorem mem_slots_of_mem_derived {key i : NodeId} {shadow : Expr}
    (he : (key, shadow) ∈ (derived replaced root f calls).entries) (hi : i ∈ shadow.slots) :
    i ∈ root.slots ∨ ∃ entry ∈ calls.entries, ∃ j ∈ entry.2.slots, i = f j := by
  obtain ⟨entry, hentry, expanded, hexpanded, -, rfl⟩ := exists_of_mem_derived he
  have hrefresh {i : NodeId} (hi : i ∈ (refresh root.nodesById (entry.2.mapIds f)).slots) :
      i ∈ root.slots ∨ ∃ entry ∈ calls.entries, ∃ j ∈ entry.2.slots, i = f j := by
    refine (mem_slots_refresh hi).imp_right fun hi => ?_
    rw [Expr.slots_mapIds, List.mem_map] at hi
    obtain ⟨j, hj, rfl⟩ := hi
    exact ⟨entry, hentry, j, hj, rfl⟩
  have hmem := mem_slots_collapse hi
  cases replaced with
  | none => exact hrefresh hmem
  | some id =>
    rcases mem_slots_followMapStep (Expr.mem_of_nodesById hexpanded).1 hmem with hi | hi
    · exact .inl hi
    · exact hrefresh hi

lemma exists_node_of_mem_keys {key : NodeId} (h : key ∈ (derived replaced root f calls).keys) :
    ∃ n ∈ root.preorder, n.id = key := by
  rw [IdMap.keys, List.mem_map] at h
  obtain ⟨⟨_, shadow⟩, hmem, rfl⟩ := h
  obtain ⟨entry, -, expanded, hexpanded, hkey, -⟩ := exists_of_mem_derived hmem
  obtain ⟨hn, hid⟩ := Expr.mem_of_nodesById hexpanded
  exact ⟨expanded, hn, hid.trans hkey.symm⟩

/-- An entry whose key names a node is kept, unless another one gets the same key. -/
theorem mem_derived {entry : NodeId × Expr} {expanded : Expr} (hentry : entry ∈ calls.entries)
    (hexpanded : root.nodesById.get? (f entry.1) = some expanded)
    (honly : ∀ other ∈ calls.entries, f other.1 = f entry.1 → other = entry) :
    (f entry.1, derive replaced root expanded (entry.2.mapIds f)) ∈
      (derived replaced root f calls).entries := by
  have hlist : (f entry.1, derive replaced root expanded (entry.2.mapIds f)) ∈
      (calls.entries.filterMap (derivedEntry replaced root f)).reverse := by
    rw [List.mem_reverse, List.mem_filterMap]
    exact ⟨entry, hentry, derivedEntry_eq_some.2 ⟨expanded, hexpanded, rfl⟩⟩
  rw [← IdMap.get?_eq_some_iff, derived, IdMap.get?_ofList, Option.map_eq_some_iff]
  cases hfind : (calls.entries.filterMap (derivedEntry replaced root f)).reverse.find?
      (fun e => e.1 = f entry.1) with
  | none =>
    rw [List.find?_eq_none] at hfind
    exact absurd (by simp) (hfind _ hlist)
  | some found =>
    refine ⟨found, rfl, ?_⟩
    have hkey := List.find?_some hfind
    rw [decide_eq_true_iff] at hkey
    have hmem := List.mem_reverse.1 (List.mem_of_find?_eq_some hfind)
    obtain ⟨other, hother, hderived⟩ := List.mem_filterMap.1 hmem
    obtain ⟨expanded', hexpanded', rfl⟩ := derivedEntry_eq_some.1 hderived
    obtain rfl := honly other hother hkey
    rw [hexpanded, Option.some.injEq] at hexpanded'
    rw [hexpanded']

end Table

/-! ### Deriving with a supply -/

section Run

variable {replaced : Option NodeId} {root : Expr} {budget : Nat} {t t' : IdMap Expr}
  {s s' : IdSupply} {entry : NodeId × Expr}

lemma ends_rederiveEntry {rename : Renaming} :
    Ends (rederiveEntry replaced root.nodesById rename budget t entry) s t' s' ↔
      ∃ key s₁, Ends (rename entry.1) s key s₁ ∧
        (root.nodesById.get? key = none ∧ t' = t ∧ s' = s₁ ∨
          ∃ expanded shadow, root.nodesById.get? key = some expanded ∧
            Ends ((entry.2.renumber rename.onSet).run' budget) s₁ shadow s' ∧
            t' = t.insert key (derive replaced root expanded shadow)) := by
  unfold rederiveEntry
  rw [ends_bind]
  constructor
  · rintro ⟨key, s₁, hkey, h⟩
    refine ⟨key, s₁, hkey, ?_⟩
    cases hnode : root.nodesById.get? key with
    | none =>
      rw [hnode] at h
      exact .inl ⟨rfl, (ends_pure ..).1 h⟩
    | some expanded =>
      rw [hnode] at h
      simp only [ends_bind, ends_pure] at h
      obtain ⟨shadow, s₂, hshadow, rfl, rfl⟩ := h
      refine .inr ⟨expanded, shadow, rfl, hshadow, ?_⟩
      cases replaced <;> rfl
  · rintro ⟨key, s₁, hkey, ⟨hnode, rfl, rfl⟩ | ⟨expanded, shadow, hnode, hshadow, rfl⟩⟩
    · refine ⟨key, s', hkey, ?_⟩
      rw [hnode]
      exact (ends_pure ..).2 ⟨rfl, rfl⟩
    · refine ⟨key, s₁, hkey, ?_⟩
      rw [hnode]
      simp only [ends_bind, ends_pure]
      refine ⟨shadow, s', hshadow, ?_, rfl⟩
      cases replaced <;> rfl

/-- With a supply that hands out ids above those of the tree, an exchanged key names the node that the
exchange remembered for it names. For an unset key neither is the id of a node. -/
lemma nodesById_exchangeOf {seed i key : NodeId} {u : IdSupply} (hs : s.Sound seed)
    (hroot : ∀ n ∈ root.preorder, n.id.isSet ∧ n.id.toNat ≤ s.maxId.toNat)
    (hkey : Ends (IdSupply.exchange i) s key s') (hu : IdSupply.Extends s' u) :
    root.nodesById.get? (u.exchangeOf i) = root.nodesById.get? key := by
  by_cases hset : i.isSet
  · have hgave := (IdSupply.exchange_gave hkey hs).1 hset
    rw [IdSupply.exchangeOf_of_exchanged hset (hu.keeps hgave)]
  · rw [NodeId.isSet_iff, not_not] at hset
    have hlt := (IdSupply.exchange_bounds hkey hs).2.2 hset
    have hnew : root.nodesById.get? key = none := by
      rw [Expr.nodesById_eq_none_iff]
      rintro n hn rfl
      have hle := (hroot n hn).2
      omega
    have hunset : root.nodesById.get? (u.exchangeOf i) = none := by
      rw [hset, IdSupply.exchangeOf_unset, Expr.nodesById_eq_none_iff]
      intro n hn
      exact NodeId.isSet_iff.1 (hroot n hn).1
    rw [hnew, hunset]

/-- With such a supply an entry is derived by the exchange that the supply remembers from then on. -/
lemma rederiveEntry_exchange {K : NodeId → Prop} {seed : NodeId} (hs : s.Sound seed)
    (hroot : ∀ n ∈ root.preorder, n.id.isSet ∧ n.id.toNat ≤ s.maxId.toNat)
    (h : Ends (rederiveEntry replaced root.nodesById IdSupply.exchange budget t entry) s t' s') :
    IdSupply.Exchanges K s [] [] s' ∧ ∀ u, IdSupply.Extends s' u →
      t' = t.insertAll (derivedEntry replaced root u.exchangeOf entry).toList := by
  obtain ⟨key, s₁, hkey, hcases⟩ := ends_rederiveEntry.1 h
  have hsound := IdSupply.exchange_sound hkey hs
  rcases hcases with ⟨hnode, rfl, rfl⟩ | ⟨expanded, shadow, hnode, hshadow, rfl⟩
  · refine ⟨.aside hkey (.nil _), fun u hu => ?_⟩
    have hdropped : derivedEntry replaced root u.exchangeOf entry = none := by
      rw [derivedEntry, nodesById_exchangeOf hs hroot hkey hu, hnode, Option.map_none]
    rw [hdropped]
    rfl
  · obtain ⟨hshape, -, hthread⟩ := Expr.ends_renumber_run'.1 hshadow
    have honSet := IdSupply.thread_onSet (K := K) hthread
    refine ⟨.aside hkey honSet.1, fun u hu => ?_⟩
    have hextends := (honSet.1.sound_extends hsound).2
    have hnode' := (nodesById_exchangeOf hs hroot hkey (hextends.trans hu)).trans hnode
    have hkeyEq : u.exchangeOf entry.1 = key :=
      (Expr.mem_of_nodesById hnode').2.symm.trans (Expr.mem_of_nodesById hnode).2
    have hshadowEq := Expr.eq_mapIds hshape (honSet.2 seed hsound u hu)
    have hderived : derivedEntry replaced root u.exchangeOf entry =
        some (key, derive replaced root expanded shadow) :=
      derivedEntry_eq_some.2 ⟨expanded, hnode', by rw [hkeyEq, hshadowEq]⟩
    rw [hderived]
    rfl

lemma foldlM_rederiveEntry {K : NodeId → Prop} {seed : NodeId} {es : List (NodeId × Expr)}
    (hs : s.Sound seed)
    (hroot : ∀ n ∈ root.preorder, n.id.isSet ∧ n.id.toNat ≤ s.maxId.toNat)
    (h : Ends (es.foldlM (rederiveEntry replaced root.nodesById IdSupply.exchange budget) t) s t' s') :
    IdSupply.Exchanges K s [] [] s' ∧ ∀ u, IdSupply.Extends s' u →
      t' = t.insertAll (es.filterMap (derivedEntry replaced root u.exchangeOf)) := by
  induction es generalizing t s with
  | nil =>
    obtain ⟨rfl, rfl⟩ := (ends_foldlM_nil ..).1 h
    exact ⟨.nil _, fun _ _ => rfl⟩
  | cons entry es ih =>
    obtain ⟨t₁, s₁, hentry, hrest⟩ := (ends_foldlM_cons ..).1 h
    obtain ⟨hrun, hderived⟩ := rederiveEntry_exchange (K := K) hs hroot hentry
    obtain ⟨hsound, hextends⟩ := hrun.sound_extends hs
    have hroot₁ : ∀ n ∈ root.preorder, n.id.isSet ∧ n.id.toNat ≤ s₁.maxId.toNat := by
      intro n hn
      have hle := hextends.max_le
      exact ⟨(hroot n hn).1, by have := (hroot n hn).2; omega⟩
    obtain ⟨hrun', hderived'⟩ := ih hsound hroot₁ hrest
    refine ⟨hrun.append hrun', fun u hu => ?_⟩
    have hextends' := (hrun'.sound_extends hsound).2.trans hu
    rw [hderived' u hu, hderived u hextends', List.filterMap_cons]
    cases derivedEntry replaced root u.exchangeOf entry with
    | none => rfl
    | some e => rfl

/-- Deriving all macro calls with a supply is deriving them with what the supply remembers. -/
theorem rederive_exchange {K : NodeId → Prop} {seed : NodeId} {calls : IdMap Expr} (hs : s.Sound seed)
    (hroot : ∀ n ∈ root.preorder, n.id.isSet ∧ n.id.toNat ≤ s.maxId.toNat)
    (h : Ends (rederive calls replaced root IdSupply.exchange budget) s t s') :
    IdSupply.Exchanges K s [] [] s' ∧ ∀ u, IdSupply.Extends s' u →
      t = derived replaced root u.exchangeOf calls :=
  foldlM_rederiveEntry hs hroot h

lemma ends_rederiveEntry_keep :
    Ends (rederiveEntry replaced root.nodesById .keep budget t entry) s t' s' ↔
      ((root.nodesById.get? entry.1).isSome → entry.2.nodeCount ≤ budget) ∧
        t' = t.insertAll (derivedEntry replaced root (fun i => i) entry).toList ∧ s' = s := by
  have hkey (key : NodeId) (s₁ : IdSupply) :
      Ends (Renaming.keep entry.1) s key s₁ ↔ key = entry.1 ∧ s₁ = s := ends_pure ..
  have hshadow (shadow : Expr) : Ends ((entry.2.renumber Renaming.keep.onSet).run' budget) s shadow s' ↔
      shadow = entry.2 ∧ entry.2.nodeCount ≤ budget ∧ s' = s := by
    rw [Expr.ends_renumber_run', IdSupply.thread_keep]
    constructor
    · rintro ⟨hshape, hcount, hslots, hs⟩
      exact ⟨Expr.eq_of_eraseIds_of_slots hshape hslots, hcount, hs⟩
    · rintro ⟨rfl, hcount, hs⟩
      exact ⟨rfl, hcount, rfl, hs⟩
  rw [ends_rederiveEntry, derivedEntry]
  simp only [hkey, and_assoc, exists_and_left, exists_eq_left, Expr.mapIds_id]
  cases root.nodesById.get? entry.1 with
  | none =>
    constructor
    · rintro (⟨-, ht, hs⟩ | ⟨_, hnode, -⟩)
      · exact ⟨fun h => (nomatch h), ht, hs⟩
      · cases hnode
    · rintro ⟨-, ht, hs⟩
      exact .inl ⟨rfl, ht, hs⟩
  | some expanded =>
    constructor
    · rintro (⟨hnode, -⟩ | ⟨_, ⟨⟩, shadow, hrun, rfl⟩)
      · cases hnode
      · obtain ⟨rfl, hcount, hs⟩ := (hshadow shadow).1 hrun
        exact ⟨fun _ => hcount, rfl, hs⟩
    · rintro ⟨hcount, rfl, hs⟩
      exact .inr ⟨expanded, rfl, entry.2, (hshadow _).2 ⟨rfl, hcount rfl, hs⟩, rfl⟩

lemma ends_foldlM_rederiveEntry_keep {es : List (NodeId × Expr)} :
    Ends (es.foldlM (rederiveEntry replaced root.nodesById .keep budget) t) s t' s' ↔
      (∀ e ∈ es, (root.nodesById.get? e.1).isSome → e.2.nodeCount ≤ budget) ∧
        t' = t.insertAll (es.filterMap (derivedEntry replaced root (fun i => i))) ∧ s' = s := by
  induction es generalizing t s with
  | nil =>
    rw [ends_foldlM_nil]
    exact ⟨fun h => ⟨fun _ he => (nomatch he), h⟩, fun h => h.2⟩
  | cons entry es ih =>
    have hinsert : t.insertAll ((entry :: es).filterMap (derivedEntry replaced root (fun i => i))) =
        (t.insertAll (derivedEntry replaced root (fun i => i) entry).toList).insertAll
          (es.filterMap (derivedEntry replaced root (fun i => i))) := by
      rw [List.filterMap_cons]
      cases derivedEntry replaced root (fun i => i) entry <;> rfl
    rw [ends_foldlM_cons, hinsert, List.forall_mem_cons]
    simp only [ends_rederiveEntry_keep, ih]
    constructor
    · rintro ⟨_, _, ⟨hcount, rfl, rfl⟩, hcounts, rfl, rfl⟩
      exact ⟨⟨hcount, hcounts⟩, rfl, rfl⟩
    · rintro ⟨⟨hcount, hcounts⟩, rfl, rfl⟩
      exact ⟨_, _, ⟨hcount, rfl, rfl⟩, hcounts, rfl, rfl⟩

/-- Without an exchange the entries are derived with the ids that they have, if the budget is enough
for each shadow that is kept. -/
theorem ends_rederive_keep {calls : IdMap Expr} :
    Ends (rederive calls replaced root .keep budget) s t s' ↔
      (∀ e ∈ calls.entries, (root.nodesById.get? e.1).isSome → e.2.nodeCount ≤ budget) ∧
        t = derived replaced root (fun i => i) calls ∧ s' = s :=
  ends_foldlM_rederiveEntry_keep

theorem rederiveKeeping_eq_ok_iff {calls : IdMap Expr} :
    rederiveKeeping calls root budget = .ok t ↔
      (∀ e ∈ calls.entries, (root.nodesById.get? e.1).isSome → e.2.nodeCount ≤ budget) ∧
        t = derived none root (fun i => i) calls := by
  rw [rederiveKeeping, run'_eq_ok]
  simp only [ends_rederive_keep, exists_and_left, exists_eq, and_true]

end Run

end CelEdit.MacroCalls
