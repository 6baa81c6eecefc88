import CelEdit.Proofs.MacroTransfer
import CelEdit.Proofs.Redrawing

/-!
# Macro calls at the positions of a graft

A node that outlives a graft keeps its outline, and its macro call is derived from the old one. Only
for a mapping macro the call may change: the macro adds a list that its expansion alone has, and when
this list is replaced by another one, its elements go into the call.
-/

namespace CelEdit

open CelEdit.Expr MacroCalls

namespace MacroCalls

/-- Which child of its step an adding loop adds: the second operand of the call. -/
def addedIndex? (loop : Expr) : Option Nat :=
  match loop.kind with
  | .comprehension c =>
    match c.loopStep.kind with
    | .call ⟨target, "_+_", [_, _]⟩ => some (target.toList.length + 1)
    | _ => none
  | _ => none

/-- The loop at `r` adds the node at `p`. -/
def AddsAt (root : Expr) (r p : Position) : Prop :=
  ∃ m i, root.at? r = some m ∧ addedIndex? m = some i ∧ p = r ++ [3, i]

instance (root : Expr) (r p : Position) : Decidable (AddsAt root r p) :=
  decidable_of_iff (((root.at? r).bind addedIndex?).map (fun i => r ++ [3, i]) = some p) (by
    simp only [AddsAt, Option.map_eq_some_iff, Option.bind_eq_some_iff]
    grind)

/-- When `d` replaces the node at `p`, the call of the loop at `r` takes in its elements. -/
def Takes (root d : Expr) (p r : Position) : Prop := AddsAt root r p ∧ d.kind.tag = .list

instance (root d : Expr) (p r : Position) : Decidable (Takes root d p r) :=
  inferInstanceAs (Decidable (_ ∧ _))

section Added

variable {root root' m y : Expr} {r p : Position} {elements : List Expr}

lemma addedIndex?_eq_some {e : Expr} {i : Nat} :
    addedIndex? e = some i ↔ ∃ c target first second, e.kind = .comprehension c ∧
      c.loopStep.kind = .call ⟨target, "_+_", [first, second]⟩ ∧ i = target.toList.length + 1 := by
  unfold addedIndex?
  constructor
  · intro h
    split at h
    · next c hkind =>
      split at h
      · next target first second hstep =>
        exact ⟨c, target, first, second, hkind, hstep, (Option.some.inj h).symm⟩
      · cases h
    · cases h
  · rintro ⟨c, target, first, second, hkind, hstep, rfl⟩
    simp only [hkind, hstep]

lemma at?_second {e second : Expr} {c : Comprehension Expr} {target : Option Expr} {first : Expr}
    (hkind : e.kind = .comprehension c)
    (hstep : c.loopStep.kind = .call ⟨target, "_+_", [first, second]⟩) :
    e.at? [3, target.toList.length + 1] = some second := by
  have hloop : e.children[3]? = some c.loopStep := by
    rw [Expr.children, hkind]
    rfl
  have hsecond : c.loopStep.children[target.toList.length + 1]? = some second := by
    rw [Expr.children, hstep]
    simp [Kind.children]
  exact at?_cons_eq_some.2 ⟨c.loopStep, hloop, at?_cons_eq_some.2 ⟨second, hsecond, rfl⟩⟩

/-- A replaced step is the added node, if it is a list. -/
lemma replacedStep?_eq_some {e : Expr} {id : NodeId} :
    replacedStep? e id = some elements ↔ ∃ i x, addedIndex? e = some i ∧ e.at? [3, i] = some x ∧
      x.id = id ∧ x.kind.tag = .list ∧ elements = x.children := by
  unfold replacedStep?
  constructor
  · intro h
    split at h
    · next c hkind =>
      split at h
      · next target first id' l hstep =>
        by_cases hid : id' = id
        · rw [if_pos hid, Option.some.injEq] at h
          exact ⟨_, ⟨id', .list l⟩, addedIndex?_eq_some.2 ⟨c, target, first, _, hkind, hstep, rfl⟩,
            at?_second hkind hstep, hid, rfl, h.symm⟩
        · rw [if_neg hid] at h
          cases h
      · cases h
    · cases h
  · rintro ⟨i, x, hi, hx, hid, hlist, rfl⟩
    obtain ⟨c, target, first, second, hkind, hstep, rfl⟩ := addedIndex?_eq_some.1 hi
    rw [at?_second hkind hstep, Option.some.injEq] at hx
    subst hx
    obtain ⟨id', k⟩ := second
    cases k with
    | list l =>
      simp only [hkind, hstep]
      rw [if_pos hid]
      rfl
    | _ => cases hlist

/-- The outlines of a loop and of its step tell what it adds. -/
lemma addedIndex?_congr {e e' c c' : Expr} {i : Nat} (hc : e.at? [3] = some c)
    (hc' : e'.at? [3] = some c') (houtline : e.kind.outline = e'.kind.outline)
    (hstep : c.kind.outline = c'.kind.outline) (h : addedIndex? e = some i) :
    addedIndex? e' = some i := by
  obtain ⟨id, k⟩ := e
  obtain ⟨id', k'⟩ := e'
  obtain ⟨loop, target, first, second, hkind, hadd, rfl⟩ := addedIndex?_eq_some.1 h
  obtain rfl : k = _ := hkind
  cases k' with
  | comprehension loop' =>
    obtain rfl : loop.loopStep = c := Option.some.inj hc
    obtain rfl : loop'.loopStep = c' := Option.some.inj hc'
    rw [hadd] at hstep
    cases hkind' : loop'.loopStep.kind with
    | call step =>
      obtain ⟨target', function', args'⟩ := step
      rw [hkind'] at hstep
      obtain ⟨htarget, rfl, hargs⟩ := Call.mk.inj (Kind.call.inj hstep)
      have hlength : target.toList.length = target'.toList.length := by
        cases target <;> cases target' <;> cases htarget <;> rfl
      match args', hargs with
      | [first', second'], _ =>
        rw [hlength]
        exact addedIndex?_eq_some.2 ⟨loop', target', first', second', rfl, hkind', rfl⟩
    | _ =>
      rw [hkind'] at hstep
      cases hstep
  | _ => cases houtline

lemma at?_below {e x : Expr} {q : Position} (hm : root.at? r = some e) (hx : e.at? q = some x) :
    root.at? (r ++ q) = some x := by
  rw [at?_append, hm, Option.bind_some, hx]

lemma AddsAt.congr (h : AddsAt root r p)
    (houtline : ∀ q n, q = r ∨ q = r ++ [3] → root.at? q = some n →
      ∃ n', root'.at? q = some n' ∧ n.kind.outline = n'.kind.outline) :
    AddsAt root' r p := by
  obtain ⟨m, i, hm, hi, rfl⟩ := h
  obtain ⟨loop, target, first, second, hkind, hadd, -⟩ := addedIndex?_eq_some.1 hi
  have hc : m.at? [3] = some loop.loopStep := by
    obtain ⟨id, k⟩ := m
    obtain rfl : k = _ := hkind
    rfl
  obtain ⟨m', hm', hloop⟩ := houtline r m (.inl rfl) hm
  obtain ⟨c', hc', hstep⟩ := houtline (r ++ [3]) loop.loopStep (.inr rfl) (at?_below hm hc)
  rw [at?_append, hm', Option.bind_some] at hc'
  exact ⟨m', i, hm', addedIndex?_congr hc hc' hloop hstep hi, rfl⟩

lemma AddsAt.unique {p' : Position} (h : AddsAt root r p) (h' : AddsAt root r p') : p = p' := by
  obtain ⟨m, i, hm, hi, rfl⟩ := h
  obtain ⟨m', i', hm', hi', rfl⟩ := h'
  obtain rfl := Option.some.inj (hm.symm.trans hm')
  rw [Option.some.inj (hi.symm.trans hi')]

lemma AddsAt.isPrefix (h : AddsAt root r p) : r <+: p := by
  obtain ⟨-, i, -, -, rfl⟩ := h
  exact List.prefix_append r [3, i]

/-- In a tree with distinct ids a replaced step is known by its position. -/
lemma replacedStep?_iff (hroot : root.DistinctIds) (hm : root.at? r = some m)
    (hy : root.at? p = some y) (hset : y.id.isSet) :
    replacedStep? m y.id = some elements ↔
      AddsAt root r p ∧ y.kind.tag = .list ∧ elements = y.children := by
  rw [replacedStep?_eq_some]
  constructor
  · rintro ⟨i, x, hi, hx, hid, hlist, rfl⟩
    have hx' := at?_below hm hx
    obtain rfl := hroot.position_eq hy hx' hset hid.symm
    obtain rfl := Option.some.inj (hy.symm.trans hx')
    exact ⟨⟨m, i, hm, hi, rfl⟩, hlist, rfl⟩
  · rintro ⟨⟨m', i, hm', hi, rfl⟩, hlist, rfl⟩
    obtain rfl := Option.some.inj (hm.symm.trans hm')
    rw [at?_append, hm, Option.bind_some] at hy
    exact ⟨i, y, hi, hy, rfl, hlist, rfl⟩

lemma derive_of_replacedStep?_eq_some {expanded : Expr} {replaced : NodeId}
    (h : replacedStep? expanded replaced = some elements) (shadow : Expr) :
    derive (some replaced) root expanded shadow =
      takeElements (collapse (refresh root.nodesById shadow)) (elements.map collapse) := by
  rw [← collapse_takeElements, ← followMapStep_of_some h]
  rfl

end Added

end MacroCalls

lemma Workspace.Origin.isSet_of_carry {s t : IdSupply} {i : NodeId} {o : Origin} (h : (o.carry s t i).isSet) :
    i.isSet := by
  cases o with
  | host => exact (IdSupply.exchanged?_of_isSet_exchangeOf h).1
  | donor =>
    have hstable := (IdSupply.exchanged?_of_isSet_exchangeOf h).1
    exact (IdSupply.exchanged?_of_isSet_exchangeOf hstable).1

namespace Workspace.DistinctGraft

variable {seed target : NodeId} {host donor stable w : Workspace} {p q r : Position}
  {s t : IdSupply} {m n : Expr} {o : Origin}

lemma keyed (h : DistinctGraft seed host donor stable target p w s t) : w.Keyed := by
  refine ⟨h.distinct, fun key hkey => ?_⟩
  rw [h.grafted.source] at hkey
  exact exists_node_of_mem_keys hkey

/-- A node that outlives the graft keeps its outline. -/
lemma exists_outline_at (h : DistinctGraft seed host donor stable target p w s t)
    (hmoves : o.Moves p r q) (hm : (o.workspace host donor).root.at? r = some m) :
    ∃ n, w.root.at? q = some n ∧ m.kind.outline = n.kind.outline := by
  obtain ⟨x, hx, -⟩ := h.grafted.at_target
  cases o with
  | host =>
    obtain ⟨rfl, houtside⟩ := hmoves
    change host.root.at? q = some m at hm
    have hsame := at?_setAt_of_not_prefix houtside stable.root host.root
    rw [hm, Option.map_some, Option.map_eq_some_iff] at hsame
    obtain ⟨m', hm', hpair⟩ := hsame
    obtain ⟨n, hn, hshape⟩ := exists_at_of_eraseIds h.grafted.shape hm'
    have houtline := Kind.outline_eq_of_shape_eq (Prod.mk.inj hpair).2
    exact ⟨n, hn, houtline.symm.trans (outline_eq_of_eraseIds hshape)⟩
  | donor =>
    obtain rfl := hmoves
    obtain ⟨m', hm', hshape⟩ := exists_at_of_eraseIds h.relocated.shape hm
    rw [← at?_setAt_append hx stable.root r] at hm'
    obtain ⟨n, hn, hshape'⟩ := exists_at_of_eraseIds h.grafted.shape hm'
    exact ⟨n, hn, outline_eq_of_eraseIds (hshape'.trans hshape)⟩

lemma outline_at (h : DistinctGraft seed host donor stable target p w s t) (hmoves : o.Moves p r q)
    (hm : (o.workspace host donor).root.at? r = some m) (hn : w.root.at? q = some n) :
    m.kind.outline = n.kind.outline := by
  obtain ⟨n', hn', houtline⟩ := h.exists_outline_at hmoves hm
  obtain rfl := Option.some.inj (hn.symm.trans hn')
  exact houtline

/-- The exchange of the id of an old node names what stands where the node moves to. -/
lemma named?_carry (h : DistinctGraft seed host donor stable target p w s t) (hmoves : o.Moves p r q)
    (hm : (o.workspace host donor).root.at? r = some m) (hset : m.id.isSet)
    (hn : w.root.at? q = some n) : named? w.root (o.carry s t m.id) = some n := by
  obtain ⟨n', hn', hnset, hid⟩ := h.exists_at_of_moves hmoves hm hset
  obtain rfl := Option.some.inj (hn.symm.trans hn')
  rw [hid, named?, if_pos hnset]
  exact h.distinct.nodesById (mem_preorder_iff.2 ⟨q, hn⟩) hnset

/-- What stands where an old node moves to is that node. -/
lemma exists_origin_outline_at (h : DistinctGraft seed host donor stable target p w s t)
    (hmoves : o.Moves p r q) (hn : w.root.at? q = some n) :
    ∃ m, (o.workspace host donor).root.at? r = some m ∧ n.kind.outline = m.kind.outline := by
  obtain ⟨x, hx, -⟩ := h.grafted.at_target
  obtain ⟨m', hm', -⟩ := exists_at_of_eraseIds h.grafted.shape.symm hn
  have hm : ∃ m, (o.workspace host donor).root.at? r = some m := by
    cases o with
    | host =>
      obtain ⟨rfl, houtside⟩ := hmoves
      obtain ⟨m, hm, -⟩ := exists_id_at houtside hm'
      exact ⟨m, hm⟩
    | donor =>
      obtain rfl := hmoves
      rw [at?_setAt_append hx stable.root r] at hm'
      obtain ⟨m, hm, -⟩ := exists_at_of_eraseIds h.relocated.shape.symm hm'
      exact ⟨m, hm⟩
  obtain ⟨m, hm⟩ := hm
  exact ⟨m, hm, (h.outline_at hmoves hm hn).symm⟩

/-- The macro call of a node that outlives the graft is derived from the old one. -/
theorem callAt?_of_moves (h : DistinctGraft seed host donor stable target p w s t)
    (hmoves : o.Moves p r q) (hm : (o.workspace host donor).root.at? r = some m)
    (hn : w.root.at? q = some n) :
    w.callAt? q = ((o.workspace host donor).callAt? r).map (fun shadow =>
      derive (some (t.exchangeOf target)) w.root n (shadow.mapIds (o.carry s t))) := by
  apply Option.ext
  intro shadow
  rw [callAt?_of_at hm, callAt?_of_at hn, Option.map_eq_some_iff, macroCall?_nil_eq_some]
  constructor
  · rintro ⟨hset, hmem⟩
    obtain ⟨x, n', hn', hentry⟩ := h.exists_survivor hmem
    obtain ⟨hid, rfl⟩ := Prod.mk.inj hentry
    obtain rfl := h.distinct.position_eq hn hn' hset hid
    obtain rfl := Option.some.inj (hn.symm.trans hn')
    obtain ⟨o', ⟨key, old⟩, q, hmem', hkeySet, r', m', hmoves', hm', hkey⟩ := x
    obtain ⟨rfl, rfl⟩ := Origin.eq_of_moves hmoves hmoves'
    obtain rfl := Option.some.inj (hm.symm.trans hm')
    obtain rfl : m.id = key := hkey
    exact ⟨old, macroCall?_nil_eq_some.2 ⟨hkeySet, hmem'⟩, rfl⟩
  · rintro ⟨old, hold, rfl⟩
    obtain ⟨hset, hmem⟩ := macroCall?_nil_eq_some.1 hold
    obtain ⟨e, he, n', hn', rfl⟩ :=
      h.exists_entry ⟨o, (m.id, old), q, hmem, hset, r, m, hmoves, hm, rfl⟩
    obtain rfl := Option.some.inj (hn.symm.trans hn')
    exact ⟨h.isSet_at hn, he⟩

lemma isSome_callAt? (h : DistinctGraft seed host donor stable target p w s t)
    (hmoves : o.Moves p r q) :
    ((o.workspace host donor).callAt? r).isSome = (w.callAt? q).isSome := by
  cases hm : (o.workspace host donor).root.at? r with
  | none =>
    have hn : w.root.at? q = none := by
      rw [Option.eq_none_iff_forall_ne_some]
      intro n hn
      obtain ⟨m, hm', -⟩ := h.exists_origin_outline_at hmoves hn
      rw [hm] at hm'
      cases hm'
    rw [callAt?, callAt?, hm, hn]
    rfl
  | some m =>
    obtain ⟨n, hn, -⟩ := h.exists_outline_at hmoves hm
    rw [h.callAt?_of_moves hmoves hm hn, Option.isSome_map]

/-- A graft does not change which loop adds the node at its position, or at a position outside. -/
lemma addsAt_iff (h : DistinctGraft seed host donor stable target p w s t) {p' : Position}
    (hp' : ¬ p <+: p' ∨ p' = p) : AddsAt host.root r p' ↔ AddsAt w.root r p' := by
  have houtside {root : Expr} (hadds : AddsAt root r p') {q : Position} (hq : q = r ∨ q = r ++ [3]) :
      ¬ p <+: q := by
    obtain ⟨-, i, -, -, rfl⟩ := hadds
    have hprefix : q <+: r ++ [3, i] ∧ q.length < (r ++ [3, i]).length := by
      rcases hq with rfl | rfl
      · exact ⟨⟨[3, i], rfl⟩, by simp⟩
      · exact ⟨⟨[i], by simp⟩, by simp⟩
    intro hpq
    rcases hp' with hp' | rfl
    · exact hp' (hpq.trans hprefix.1)
    · have hle := hpq.length_le
      omega
  constructor
  · intro hadds
    apply hadds.congr
    intro q n hq hn
    exact h.exists_outline_at (o := .host) ⟨rfl, houtside hadds hq⟩ hn
  · intro hadds
    apply hadds.congr
    intro q n hq hn
    exact h.exists_origin_outline_at (o := .host) ⟨rfl, houtside hadds hq⟩ hn

/-- The root of the donor is at the position of the graft, with the exchange of the target. -/
lemma exists_at_graft (h : DistinctGraft seed host donor stable target p w s t) :
    ∃ d, w.root.at? p = some d ∧ d.id.isSet ∧ t.exchangeOf target = d.id ∧
      donor.root.kind.outline = d.kind.outline := by
  obtain ⟨-, d, hd, hset, hid⟩ := h.exists_at_of_stable (r := []) (at?_nil stable.root)
  rw [List.append_nil] at hd
  refine ⟨d, hd, hset, h.exchangeOf_target.trans hid, ?_⟩
  exact h.outline_at (o := .donor) (r := []) (List.append_nil p).symm (at?_nil donor.root) hd

/-- The shadow of a loop follows the graft when the loop adds what is replaced, and the donor is a
list. -/
lemma replacedStep?_iff (h : DistinctGraft seed host donor stable target p w s t)
    (hn : w.root.at? r = some n) {d : Expr} (hd : w.root.at? p = some d) {elements : List Expr} :
    replacedStep? n (t.exchangeOf target) = some elements ↔
      Takes host.root donor.root p r ∧ elements = d.children := by
  obtain ⟨d', hd', hset, hid, houtline⟩ := h.exists_at_graft
  obtain rfl := Option.some.inj (hd.symm.trans hd')
  rw [hid, MacroCalls.replacedStep?_iff h.distinct hn hd hset, Takes,
    h.addsAt_iff (.inr rfl), Kind.tag_eq_of_outline_eq houtline, and_assoc]

/-! ### The calls -/

variable {shadow d : Expr}

/-- The call of a node of the donor is refreshed. -/
theorem callAt?_donor (h : DistinctGraft seed host donor stable target p w s t)
    (hshadow : donor.callAt? r = some shadow) :
    w.callAt? (p ++ r) =
      some (collapse (refresh w.root.nodesById (shadow.mapIds (Origin.donor.carry s t)))) := by
  obtain ⟨m, hm, -⟩ := exists_of_callAt? hshadow
  obtain ⟨n, hn, -⟩ := h.exists_outline_at (o := .donor) (r := r) rfl hm
  rw [h.callAt?_of_moves (o := .donor) rfl hm hn, Origin.workspace, hshadow, Option.map_some,
    derive_of_replacedStep?_eq_none (h.replacedStep?_eq_none hn)]

/-- The call of a node of the host is refreshed. -/
theorem callAt?_host (h : DistinctGraft seed host donor stable target p w s t) (houtside : ¬ p <+: q)
    (hshadow : host.callAt? q = some shadow) (hnot : ¬ Takes host.root donor.root p q) :
    w.callAt? q = some (collapse (refresh w.root.nodesById (shadow.mapIds t.exchangeOf))) := by
  obtain ⟨m, hm, -⟩ := exists_of_callAt? hshadow
  obtain ⟨n, hn, -⟩ := h.exists_outline_at (o := .host) ⟨rfl, houtside⟩ hm
  obtain ⟨d, hd, -⟩ := h.exists_at_graft
  have hstep : replacedStep? n (t.exchangeOf target) = none := by
    rw [Option.eq_none_iff_forall_ne_some]
    intro elements helements
    exact hnot ((h.replacedStep?_iff hn hd).1 helements).1
  rw [h.callAt?_of_moves (o := .host) ⟨rfl, houtside⟩ hm hn, Origin.workspace, hshadow,
    Option.map_some, derive_of_replacedStep?_eq_none hstep]
  rfl

/-- It takes in the new elements, where it does. -/
theorem callAt?_of_takes (h : DistinctGraft seed host donor stable target p w s t)
    (houtside : ¬ p <+: q) (hshadow : host.callAt? q = some shadow) (htakes : Takes host.root donor.root p q)
    (hd : w.root.at? p = some d) :
    w.callAt? q = some (takeElements
      (collapse (refresh w.root.nodesById (shadow.mapIds t.exchangeOf))) (d.children.map collapse)) := by
  obtain ⟨m, hm, -⟩ := exists_of_callAt? hshadow
  obtain ⟨n, hn, -⟩ := h.exists_outline_at (o := .host) ⟨rfl, houtside⟩ hm
  have hstep := (h.replacedStep?_iff hn hd).2 ⟨htakes, rfl⟩
  rw [h.callAt?_of_moves (o := .host) ⟨rfl, houtside⟩ hm hn, Origin.workspace, hshadow,
    Option.map_some, derive_of_replacedStep?_eq_some hstep]
  rfl

end Workspace.DistinctGraft

end CelEdit
