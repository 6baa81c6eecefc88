import CelEdit.Proofs.Extensions
import CelEdit.Proofs.Mirrors
import CelEdit.Proofs.Tracking

/-!
# Independent replacements commute

Two replacements at positions that are apart can be done in either order. The ids differ, and so do
the shadows as long as only one of the two is done; but both orders bring what is left of the host and
of the donors to the same positions, and from there the shadows are taken.
-/

namespace CelEdit

open CelEdit.Expr MacroCalls

/-! ### Shapes -/

/-- A tree without ids is known from the outlines of its nodes. -/
lemma Expr.eraseIds_eq_of_outline {e e' : Expr}
    (h : ∀ q n n', e.at? q = some n → e'.at? q = some n' → n.kind.outline = n'.kind.outline) :
    e.eraseIds = e'.eraseIds := by
  induction e using induct generalizing e' with
  | node id k ih =>
    obtain ⟨id', k'⟩ := e'
    have houtline := h [] _ _ (at?_nil _) (at?_nil _)
    rw [eraseIds_eq_iff]
    refine ⟨houtline, ?_⟩
    rw [← List.forall₂_eq_eq_eq, List.forall₂_map_left_iff, List.forall₂_map_right_iff]
    refine forall₂_of_getElem? (Kind.length_children_eq houtline) (fun i c c' hc hc' => ?_)
    refine ih c (List.mem_of_getElem? hc) (fun q n n' hn hn' => ?_)
    exact h (i :: q) n n' (at?_cons_eq_some.2 ⟨c, hc, hn⟩) (at?_cons_eq_some.2 ⟨c', hc', hn'⟩)

/-! ### Calls without their last argument -/

namespace MacroCalls

variable {e : Expr}

/-- The call with a placeholder for its last argument, if it has two. -/
def dropElement (e : Expr) : Expr := takeElements e [⟨.unset, .notSet⟩]

lemma takeElements_takeElements (x : Expr) (elements : List Expr) :
    takeElements (takeElements e [x]) elements = takeElements e elements := by
  by_cases htwo : HasTwoArguments e
  · obtain ⟨id, k⟩ := e
    obtain ⟨target, function, first, second, hkind⟩ := htwo
    obtain rfl : k = _ := hkind
    rfl
  · rw [takeElements_of_not htwo]

lemma exists_takeElements_eq (e : Expr) : ∃ elements, takeElements e elements = e := by
  by_cases htwo : HasTwoArguments e
  · obtain ⟨id, k⟩ := e
    obtain ⟨target, function, first, second, hkind⟩ := htwo
    obtain rfl : k = _ := hkind
    exact ⟨[second], rfl⟩
  · exact ⟨[], takeElements_of_not htwo []⟩

/-- Every other id of the shortened call is kept with any last arguments. -/
lemma id_of_mem_dropElement {x : Expr} (elements : List Expr) (hx : x ∈ (dropElement e).preorder) :
    x.id = .unset ∨ ∃ y ∈ (takeElements e elements).preorder, y.id = x.id := by
  by_cases htwo : HasTwoArguments e
  · obtain ⟨id, k⟩ := e
    obtain ⟨target, function, first, second, hkind⟩ := htwo
    obtain rfl : k = _ := hkind
    rw [dropElement, takeElements_call] at hx
    rw [takeElements_call]
    rcases mem_preorder_mk.1 hx with rfl | ⟨c, hc, hxc⟩
    · exact .inr ⟨_, self_mem_preorder _, rfl⟩
    · have hcases : c ∈ target.toList ∨ c = first ∨ c = ⟨.unset, .notSet⟩ := by
        simpa [Kind.children] using hc
      rcases hcases with hc | rfl | rfl
      · exact .inr ⟨x, mem_preorder_mk.2 (.inr ⟨c, by simp [Kind.children, hc], hxc⟩), rfl⟩
      · exact .inr ⟨x, mem_preorder_mk.2 (.inr ⟨c, by simp [Kind.children], hxc⟩), rfl⟩
      · obtain rfl : x = ⟨.unset, .notSet⟩ := by simpa [preorder_mk, Kind.children] using hxc
        exact .inl rfl
  · rw [dropElement, takeElements_of_not htwo] at hx
    rw [takeElements_of_not htwo]
    exact .inr ⟨x, hx, rfl⟩

end MacroCalls

namespace Workspace

variable {w v : Workspace} {q : Position}

lemma toNat_le_of_callAt? {shadow : Expr} (h : w.callAt? q = some shadow) :
    ∀ x ∈ shadow.preorder, x.id.toNat ≤ w.maxId.toNat := by
  intro x hx
  obtain ⟨n, -, -, he⟩ := exists_of_callAt? h
  exact (toNat_le_maxId_of_entry he).2 x.id (id_mem_slots hx)

/-- What the graft makes of a copy of a node outside is the node again. -/
lemma DistinctGraft.refresh_copy {seed target : NodeId} {host donor stable : Workspace} {p : Position}
    {s t : IdSupply} {m n : Expr} (h : DistinctGraft seed host donor stable target p w s t)
    (houtside : ¬ p <+: q) (hm : host.root.at? q = some m) (hset : m.id.isSet)
    (hn : w.root.at? q = some n) :
    refresh w.root.nodesById ((collapse m).mapIds t.exchangeOf) = n := by
  apply refresh_of_named
  rw [id_mapIds, collapse_id]
  exact h.named?_carry (o := .host) ⟨rfl, houtside⟩ hm hset hn

namespace TwoGrafts

variable {host first second mid final mid' final' : Workspace} {p p' r : Position}
  {m n n' y shadow : Expr}

/-! ### The calls of the host -/

/-- What the first graft makes of a shadow. -/
def once (g : TwoGrafts host first second mid final p p') (shadow : Expr) : Expr :=
  collapse (refresh mid.root.nodesById (shadow.mapIds g.t.exchangeOf))

/-- What both grafts make of a shadow. -/
def twice (g : TwoGrafts host first second mid final p p') (shadow : Expr) : Expr :=
  collapse (refresh final.root.nodesById ((g.once shadow).mapIds g.t'.exchangeOf))

lemma once_id (g : TwoGrafts host first second mid final p p') :
    (g.once shadow).id = g.t.exchangeOf shadow.id := by
  rw [once, collapse_id, refresh_id, id_mapIds]

lemma takes_mid (g : TwoGrafts host first second mid final p p') :
    Takes mid.root second.root p' q ↔ Takes host.root second.root p' q := by
  rw [Takes, Takes, g.one.addsAt_iff (.inl g.apart)]

/-- The loop at `q` adds what is replaced at only one of the positions. -/
lemma not_takes_both (g : TwoGrafts host first second mid final p p')
    (h : Takes host.root first.root p q) : ¬ Takes host.root second.root p' q := by
  intro h'
  have heq : p = p' := h.1.unique h'.1
  exact g.apart (heq ▸ List.prefix_refl p)

lemma callAt?_of_not_takes (g : TwoGrafts host first second mid final p p') (hp : ¬ p <+: q)
    (hp' : ¬ p' <+: q) (hshadow : host.callAt? q = some shadow)
    (hnot : ¬ Takes host.root first.root p q) (hnot' : ¬ Takes host.root second.root p' q) :
    final.callAt? q = some (g.twice shadow) ∧
      ∀ x ∈ (g.once shadow).preorder, x.id.toNat ≤ mid.maxId.toNat := by
  have hmid := g.one.callAt?_host hp hshadow hnot
  refine ⟨?_, toNat_le_of_callAt? hmid⟩
  exact g.two.callAt?_host hp' hmid (fun htakes => hnot' (g.takes_mid.1 htakes))

/-- Both grafts leave a root of its own to a shadow. -/
lemma not_named_root (g : TwoGrafts host first second mid final p p') (hroots : host.RootsApart)
    (hshadow : host.callAt? q = some shadow)
    (hle : (g.once shadow).id.toNat ≤ mid.maxId.toNat) :
    named? final.root (g.t'.exchangeOf (g.once shadow).id) = none := by
  rw [Option.eq_none_iff_forall_ne_some]
  intro n hn
  obtain ⟨q', -, hstands⟩ := stands_of_named? hn
  obtain ⟨k, -, -, he⟩ := exists_of_callAt? hshadow
  have hle' := (toNat_le_maxId_of_entry he).2 shadow.id (id_mem_slots (self_mem_preorder _))
  rw [once_id] at hle hstands
  obtain ⟨⟨hset, m, hm, hid⟩, -⟩ := (g.lives_iff hle' hle q').2 hstands
  exact hroots _ he m (mem_preorder_iff.2 ⟨q', hm⟩) hset hid.symm

/-- The new elements, too, are taken from the final tree. -/
lemma refresh_elements (g : TwoGrafts host first second mid final p p') (hm : mid.root.at? p = some m)
    (hn : final.root.at? p = some n) :
    (((m.children.map collapse).map (mapIds g.t'.exchangeOf)).map
      (refresh final.root.nodesById)).map collapse = n.children.map collapse := by
  have hat {root x c : Expr} {i : Nat} (hx : root.at? p = some x) (hc : x.children[i]? = some c) :
      root.at? (p ++ [i]) = some c := at?_below hx (at?_cons_eq_some.2 ⟨c, hc, at?_nil c⟩)
  have houtline := g.two.outline_at (o := .host) ⟨rfl, g.apart'⟩ hm hn
  have hsame : List.Forall₂ (fun c c' => refresh final.root.nodesById
      ((collapse c).mapIds g.t'.exchangeOf) = c') m.children n.children := by
    refine forall₂_of_getElem? (Kind.length_children_eq houtline) (fun i c c' hc hc' => ?_)
    exact g.two.refresh_copy (g.not_below (List.prefix_append p [i])) (hat hm hc)
      (g.one.isSet_at (hat hm hc)) (hat hn hc')
  have hlists : ((m.children.map collapse).map (mapIds g.t'.exchangeOf)).map
      (refresh final.root.nodesById) = n.children := by
    rw [List.map_map, List.map_map, ← List.forall₂_eq_eq_eq, List.forall₂_map_left_iff]
    exact hsame
  rw [hlists]

lemma refresh_twice_takeElements (g : TwoGrafts host first second mid final p p')
    (hroots : host.RootsApart) (hshadow : host.callAt? q = some shadow)
    (hle : (g.once shadow).id.toNat ≤ mid.maxId.toNat) (elements : List Expr) :
    collapse (refresh final.root.nodesById
        ((takeElements (g.once shadow) elements).mapIds g.t'.exchangeOf)) =
      takeElements (g.twice shadow)
        (((elements.map (mapIds g.t'.exchangeOf)).map (refresh final.root.nodesById)).map collapse) := by
  rw [mapIds_takeElements, refresh_takeElements, collapse_takeElements, twice]
  rw [id_mapIds]
  exact g.not_named_root hroots hshadow hle

/-- The call takes in the elements of one of the donors. -/
lemma callAt?_of_takes (g : TwoGrafts host first second mid final p p') (hroots : host.RootsApart)
    (hp : ¬ p <+: q) (hp' : ¬ p' <+: q) (hshadow : host.callAt? q = some shadow) {a : Position}
    (htakes : a = p ∧ Takes host.root first.root p q ∨ a = p' ∧ Takes host.root second.root p' q)
    (hy : final.root.at? a = some y) :
    final.callAt? q = some (takeElements (g.twice shadow) (y.children.map collapse)) ∧
      ∀ x ∈ (dropElement (g.once shadow)).preorder, x.id.toNat ≤ mid.maxId.toNat := by
  have hbound {elements : List Expr}
      (hmid : mid.callAt? q = some (takeElements (g.once shadow) elements)) :
      ∀ x ∈ (dropElement (g.once shadow)).preorder, x.id.toNat ≤ mid.maxId.toNat := by
    intro x hx
    rcases id_of_mem_dropElement elements hx with hunset | ⟨y, hy, hid⟩
    · rw [hunset]
      exact Nat.zero_le _
    · rw [← hid]
      exact toNat_le_of_callAt? hmid y hy
  have hroot {elements : List Expr}
      (hmid : mid.callAt? q = some (takeElements (g.once shadow) elements)) :
      (g.once shadow).id.toNat ≤ mid.maxId.toNat := by
    rw [← takeElements_id _ elements]
    exact toNat_le_of_callAt? hmid _ (self_mem_preorder _)
  rcases htakes with ⟨rfl, htakes⟩ | ⟨rfl, htakes⟩
  · obtain ⟨y₁, hy₁, -⟩ := g.one.exists_at_graft
    have hmid := g.one.callAt?_of_takes hp hshadow htakes hy₁
    refine ⟨?_, hbound hmid⟩
    rw [g.two.callAt?_host hp' hmid (fun htakes' => g.not_takes_both htakes (g.takes_mid.1 htakes'))]
    have helements := g.refresh_twice_takeElements hroots hshadow (hroot hmid) (y₁.children.map collapse)
    rw [g.refresh_elements hy₁ hy] at helements
    exact congrArg some helements
  · have hnot : ¬ Takes host.root first.root p q := fun htakes' => g.not_takes_both htakes' htakes
    have hmid := g.one.callAt?_host hp hshadow hnot
    refine ⟨g.two.callAt?_of_takes hp' hmid (g.takes_mid.2 htakes) hy, ?_⟩
    obtain ⟨elements, helements⟩ := exists_takeElements_eq (g.once shadow)
    exact hbound (hmid.trans (congrArg some helements.symm))

/-! ### The two orders -/

/-- A position is below one of the two, or below neither. -/
lemma position_cases (p p' q : Position) :
    (∃ r, q = p ++ r) ∨ (∃ r, q = p' ++ r) ∨ ¬ p <+: q ∧ ¬ p' <+: q := by
  by_cases hp : p <+: q
  · obtain ⟨r, rfl⟩ := hp
    exact .inl ⟨r, rfl⟩
  · by_cases hp' : p' <+: q
    · obtain ⟨r, rfl⟩ := hp'
      exact .inr (.inl ⟨r, rfl⟩)
    · exact .inr (.inr ⟨hp, hp'⟩)

lemma exists_at_first (g : TwoGrafts host first second mid final p p') :
    ∃ y, final.root.at? p = some y := by
  obtain ⟨m, hm, -⟩ := g.one.exists_at_graft
  obtain ⟨n, hn, -⟩ := g.two.exists_outline_at (o := .host) ⟨rfl, g.apart'⟩ hm
  exact ⟨n, hn⟩

/-- What stands at the position comes from the donors or from the host. -/
lemma outline_eq (g : TwoGrafts host first second mid final p p')
    (g' : TwoGrafts host second first mid' final' p' p) (hn : final.root.at? q = some n)
    (hn' : final'.root.at? q = some n') : n.kind.outline = n'.kind.outline := by
  rcases position_cases p p' q with ⟨r, rfl⟩ | ⟨r, rfl⟩ | ⟨hp, hp'⟩
  · have hout := g.not_below (List.prefix_append p r)
    obtain ⟨m, hm, houtline⟩ := g.two.exists_origin_outline_at (o := .host) ⟨rfl, hout⟩ hn
    obtain ⟨k, hk, houtline'⟩ := g.one.exists_origin_outline_at (o := .donor) (r := r) rfl hm
    exact (houtline.trans houtline').trans (g'.two.outline_at (o := .donor) rfl hk hn')
  · have hout := g'.not_below (List.prefix_append p' r)
    obtain ⟨m, hm, houtline⟩ := g'.two.exists_origin_outline_at (o := .host) ⟨rfl, hout⟩ hn'
    obtain ⟨k, hk, houtline'⟩ := g'.one.exists_origin_outline_at (o := .donor) (r := r) rfl hm
    exact ((houtline.trans houtline').trans (g.two.outline_at (o := .donor) rfl hk hn)).symm
  · obtain ⟨m, hm, houtline⟩ := g.two.exists_origin_outline_at (o := .host) ⟨rfl, hp'⟩ hn
    obtain ⟨k, hk, houtline'⟩ := g.one.exists_origin_outline_at (o := .host) ⟨rfl, hp⟩ hm
    obtain ⟨m', hm', houtline''⟩ := g'.two.exists_origin_outline_at (o := .host) ⟨rfl, hp⟩ hn'
    have hmid := g'.one.outline_at (o := .host) ⟨rfl, hp'⟩ hk hm'
    exact ((houtline.trans houtline').trans hmid).trans houtline''.symm

lemma isSome_callAt?_eq (g : TwoGrafts host first second mid final p p')
    (g' : TwoGrafts host second first mid' final' p' p) (q : Position) :
    (final.callAt? q).isSome = (final'.callAt? q).isSome := by
  rcases position_cases p p' q with ⟨r, rfl⟩ | ⟨r, rfl⟩ | ⟨hp, hp'⟩
  · have hout := g.not_below (List.prefix_append p r)
    have htwo := g.two.isSome_callAt? (o := .host) ⟨rfl, hout⟩
    have hone := g.one.isSome_callAt? (o := .donor) (r := r) rfl
    exact (hone.trans htwo).symm.trans (g'.two.isSome_callAt? (o := .donor) rfl)
  · have hout := g'.not_below (List.prefix_append p' r)
    have htwo := g'.two.isSome_callAt? (o := .host) ⟨rfl, hout⟩
    have hone := g'.one.isSome_callAt? (o := .donor) (r := r) rfl
    exact ((hone.trans htwo).symm.trans (g.two.isSome_callAt? (o := .donor) rfl)).symm
  · have hone := g.one.isSome_callAt? (o := .host) ⟨rfl, hp⟩
    have htwo := g.two.isSome_callAt? (o := .host) ⟨rfl, hp'⟩
    have hone' := g'.one.isSome_callAt? (o := .host) ⟨rfl, hp'⟩
    have htwo' := g'.two.isSome_callAt? (o := .host) ⟨rfl, hp⟩
    exact (hone.trans htwo).symm.trans (hone'.trans htwo')

lemma overlays (g : TwoGrafts host first second mid final p p')
    (g' : TwoGrafts host second first mid' final' p' p) : Overlays Eq NoHole final final' := by
  refine ⟨g.two.keyed, g'.two.keyed, ?_, ?_, ?_⟩
  · rintro r q m n rfl hm hn
    exact g.outline_eq g' hm hn
  · rintro r q m n i rfl _ _
    exact .inl rfl
  · rintro r q rfl
    exact g.isSome_callAt?_eq g' r

/-- The calls that come with the first donor are alike. -/
lemma alike_first (g : TwoGrafts host first second mid final p p')
    (g' : TwoGrafts host second first mid' final' p' p) (hshadow : first.callAt? r = some shadow) :
    ∃ call call', final.callAt? (p ++ r) = some call ∧ final'.callAt? (p ++ r) = some call' ∧
      Alike (SameKey Eq final final') NoHole call call' := by
  have hout := g.not_below (List.prefix_append p r)
  have hmid := g.one.callAt?_donor hshadow
  have hnot : ¬ Takes mid.root second.root p' (p ++ r) := fun htakes =>
    g.apart ((List.prefix_append p r).trans htakes.1.isPrefix)
  refine ⟨_, _, g.two.callAt?_host hout hmid hnot, g'.two.callAt?_donor hshadow, ?_⟩
  obtain ⟨k, -, -, he⟩ := exists_of_callAt? hshadow
  exact alike_of_tracks (g.overlays g') (g.tracks_first he) (toNat_le_of_callAt? hmid)
    (g'.tracks_second shadow) (toNat_le_of_callAt? hshadow)

/-- Shadows of the host whose last argument is about to be replaced. -/
lemma tracks_dropElement (g : TwoGrafts host first second mid final p p') (hagrees : host.Agrees)
    (hroots : host.RootsApart) {e : NodeId × Expr} (he : e ∈ host.source.macroCalls.entries) :
    Tracks (Lives host p p') final g.t'.exchangeOf mid.maxId.toNat (dropElement e.2)
      (dropElement (g.once e.2)) := by
  refine alike_takeElements (g.tracks_host hagrees he) ?_ (fun _ => .cons (.node ?_ rfl .nil) .nil)
  · rintro ⟨-, q, ⟨hset, m, hm, hid⟩, -⟩
    exact hroots e he m (mem_preorder_iff.2 ⟨q, hm⟩) hset hid.symm
  · intro _ q
    rw [IdSupply.exchangeOf_unset]
    exact iff_of_false (fun hlives => absurd hlives.1.1 (by decide)) (fun hstands => absurd hstands.1 (by decide))

/-- The elements at a position of both final trees are alike. -/
lemma alike_elements (g : TwoGrafts host first second mid final p p')
    (g' : TwoGrafts host second first mid' final' p' p) (hn : final.root.at? q = some n)
    (hn' : final'.root.at? q = some n') :
    List.Forall₂ (Alike (SameKey Eq final final') NoHole) (n.children.map collapse)
      (n'.children.map collapse) := by
  have hlength := Kind.length_children_eq (g.outline_eq g' hn hn')
  rw [List.forall₂_map_left_iff, List.forall₂_map_right_iff]
  refine forall₂_of_getElem? hlength (fun i c c' hc hc' => alike_collapse_both ?_)
  exact (g.overlays g').alike_at rfl (at?_below hn (at?_cons_eq_some.2 ⟨c, hc, at?_nil c⟩))
    (at?_below hn' (at?_cons_eq_some.2 ⟨c', hc', at?_nil c'⟩))

/-- A call of the host that takes in elements takes them in either way. -/
lemma alike_taking (g : TwoGrafts host first second mid final p p')
    (g' : TwoGrafts host second first mid' final' p' p) (hagrees : host.Agrees)
    (hroots : host.RootsApart) (hshadow : host.callAt? q = some shadow)
    (hbound : ∀ x ∈ (dropElement (g.once shadow)).preorder, x.id.toNat ≤ mid.maxId.toNat)
    (hbound' : ∀ x ∈ (dropElement (g'.once shadow)).preorder, x.id.toNat ≤ mid'.maxId.toNat)
    {elements elements' : List Expr}
    (helements : List.Forall₂ (Alike (SameKey Eq final final') NoHole) elements elements') :
    Alike (SameKey Eq final final') NoHole (takeElements (g.twice shadow) elements)
      (takeElements (g'.twice shadow) elements') := by
  obtain ⟨k, -, -, he⟩ := exists_of_callAt? hshadow
  have htracks' := g'.tracks_dropElement hagrees hroots he
  rw [lives_comm] at htracks'
  have hdropped := alike_of_tracks (g.overlays g') (g.tracks_dropElement hagrees hroots he) hbound
    htracks' hbound'
  have hroot := hbound _ (self_mem_preorder _)
  have hroot' := hbound' _ (self_mem_preorder _)
  rw [dropElement, takeElements_id] at hroot hroot'
  rw [dropElement, dropElement, g.refresh_twice_takeElements hroots hshadow hroot,
    g'.refresh_twice_takeElements hroots hshadow hroot'] at hdropped
  have htaken := alike_takeElements hdropped not_false (fun _ => helements)
  rwa [List.map_singleton, List.map_singleton, List.map_singleton, takeElements_takeElements,
    List.map_singleton, List.map_singleton, List.map_singleton, takeElements_takeElements] at htaken

/-- The calls that come with the host are alike. -/
lemma alike_host (g : TwoGrafts host first second mid final p p')
    (g' : TwoGrafts host second first mid' final' p' p) (hagrees : host.Agrees)
    (hroots : host.RootsApart) (hp : ¬ p <+: q) (hp' : ¬ p' <+: q)
    (hshadow : host.callAt? q = some shadow) :
    ∃ call call', final.callAt? q = some call ∧ final'.callAt? q = some call' ∧
      Alike (SameKey Eq final final') NoHole call call' := by
  have htaking {a : Position} {y y' : Expr} (hy : final.root.at? a = some y)
      (hy' : final'.root.at? a = some y') (htakes : a = p ∧ Takes host.root first.root p q ∨
        a = p' ∧ Takes host.root second.root p' q) :
      ∃ call call', final.callAt? q = some call ∧ final'.callAt? q = some call' ∧
        Alike (SameKey Eq final final') NoHole call call' := by
    obtain ⟨hcall, hbound⟩ := g.callAt?_of_takes hroots hp hp' hshadow htakes hy
    obtain ⟨hcall', hbound'⟩ := g'.callAt?_of_takes hroots hp' hp hshadow htakes.symm hy'
    exact ⟨_, _, hcall, hcall', g.alike_taking g' hagrees hroots hshadow hbound hbound'
      (g.alike_elements g' hy hy')⟩
  by_cases htakes : Takes host.root first.root p q
  · obtain ⟨y, hy⟩ := g.exists_at_first
    obtain ⟨y', hy', -⟩ := g'.two.exists_at_graft
    exact htaking hy hy' (.inl ⟨rfl, htakes⟩)
  · by_cases htakes' : Takes host.root second.root p' q
    · obtain ⟨y, hy, -⟩ := g.two.exists_at_graft
      obtain ⟨y', hy'⟩ := g'.exists_at_first
      exact htaking hy hy' (.inr ⟨rfl, htakes'⟩)
    · obtain ⟨k, -, -, he⟩ := exists_of_callAt? hshadow
      obtain ⟨hcall, hbound⟩ := g.callAt?_of_not_takes hp hp' hshadow htakes htakes'
      obtain ⟨hcall', hbound'⟩ := g'.callAt?_of_not_takes hp' hp hshadow htakes' htakes
      have htracks' := g'.tracks_host hagrees he
      rw [lives_comm] at htracks'
      exact ⟨_, _, hcall, hcall',
        alike_of_tracks (g.overlays g') (g.tracks_host hagrees he) hbound htracks' hbound'⟩

lemma extensions (g : TwoGrafts host first second mid final p p') :
    final.source.extensions = Extension.merge (Extension.merge host.source.extensions
      first.source.extensions) second.source.extensions := by
  have hone : mid.source.extensions =
      Extension.merge host.source.extensions first.source.extensions := by
    rw [g.one.grafted.source, g.one.relocated.extensions]
  rw [g.two.grafted.source, g.two.relocated.extensions, hone]

theorem corresponds (g : TwoGrafts host first second mid final p p')
    (g' : TwoGrafts host second first mid' final' p' p) (hagrees : host.Agrees)
    (hroots : host.RootsApart) : Corresponds Eq NoHole final final' := by
  refine ⟨g.two.keyed, g'.two.keyed, ?_, ?_⟩
  · rintro r q r' q' rfl rfl
    exact Iff.rfl
  · rintro q _ rfl
    have hrel {u : Workspace} {r : Position} (hsome : (u.callAt? r).isSome = (final.callAt? q).isSome)
        (halike : ∀ shadow, u.callAt? r = some shadow → ∃ call call', final.callAt? q = some call ∧
          final'.callAt? q = some call' ∧ Alike (SameKey Eq final final') NoHole call call') :
        Option.Rel (Alike (SameKey Eq final final') NoHole) (final.callAt? q) (final'.callAt? q) := by
      cases hshadow : u.callAt? r with
      | none =>
        have hnone := eq_none_of_isSome_eq hsome hshadow
        rw [hnone, eq_none_of_isSome_eq (g.isSome_callAt?_eq g' q) hnone]
        exact .none
      | some shadow =>
        obtain ⟨call, call', hcall, hcall', halike⟩ := halike shadow hshadow
        rw [hcall, hcall']
        exact .some halike
    rcases position_cases p p' q with ⟨r, rfl⟩ | ⟨r, rfl⟩ | ⟨hp, hp'⟩
    · have hout := g.not_below (List.prefix_append p r)
      have hone := g.one.isSome_callAt? (o := .donor) (r := r) rfl
      exact hrel (hone.trans (g.two.isSome_callAt? (o := .host) ⟨rfl, hout⟩))
        (fun shadow hshadow => g.alike_first g' hshadow)
    · refine hrel (g.two.isSome_callAt? (o := .donor) (r := r) rfl) (fun shadow hshadow => ?_)
      obtain ⟨call', call, hcall', hcall, halike⟩ := g'.alike_first g hshadow
      refine ⟨call, call', hcall, hcall', halike.symm.imp (fun i j hij => ?_) (fun _ _ here => here.elim)⟩
      exact optionRel_flip hij (fun _ _ heq => heq.symm)
    · have hone := g.one.isSome_callAt? (o := .host) ⟨rfl, hp⟩
      exact hrel (hone.trans (g.two.isSome_callAt? (o := .host) ⟨rfl, hp'⟩))
        (fun shadow hshadow => g.alike_host g' hagrees hroots hp hp' hshadow)

end TwoGrafts

/-! ### Replacements -/

/-- The host with the node at `p` replaced by a donor, unless this is the node already. -/
def replaceAt? (budget : Nat) (host donor : Workspace) (p : Position) : Option Workspace :=
  (host.root.at? p).bind fun x =>
    if x = donor.root then none else (replaceBy budget host donor x.id).toOption

lemma exists_graft_of_replaceAt? {budget : Nat} {host donor : Workspace} {p : Position}
    (h : replaceAt? budget host donor p = some w) (hhost : host.root.DistinctIds)
    (hdonor : donor.root.DistinctIds) :
    ∃ seed stable target s t, DistinctGraft seed host donor stable target p w s t := by
  rw [replaceAt?, Option.bind_eq_some_iff] at h
  obtain ⟨x, hx, h⟩ := h
  rw [Option.ite_none_left_eq_some, except_toOption_eq_some] at h
  obtain ⟨hne, hreplace⟩ := h
  have hfirst := firstAt?_at hhost hx (replaceBy_cases hreplace).1
  obtain hadopted | ⟨seed, stable, p', s, t, hgraft⟩ := adopted_or_distinctGraft hhost hdonor hreplace
  · have hfound := hadopted.found
    rw [← at?_firstAt?, hfirst, Option.bind_some, hx, Option.some.injEq] at hfound
    exact absurd hfound hne
  · obtain rfl := Option.some.inj (hfirst.symm.trans hgraft.grafted.found)
    exact ⟨seed, stable, x.id, s, t, hgraft⟩

/-- Two replacements at positions that are apart lead to the same tree up to ids, with the same
extensions and the same text, whichever comes first. -/
theorem replaceBy_comm {host d d' wd wdd' wd' wd'd : Workspace} {p p' : Position} {b₁ b₂ b₃ b₄ : Nat}
    (hhost : host.root.DistinctIds) (hroots : host.RootsApart) (hagrees : host.Agrees)
    (hd : d.root.DistinctIds) (hd' : d'.root.DistinctIds) (hapart : ¬ p <+: p') (hapart' : ¬ p' <+: p)
    (h₁ : replaceAt? b₁ host d p = some wd) (h₂ : replaceAt? b₂ wd d' p' = some wdd')
    (h₃ : replaceAt? b₃ host d' p' = some wd') (h₄ : replaceAt? b₄ wd' d p = some wd'd) :
    wdd'.root.eraseIds = wd'd.root.eraseIds ∧
      (∀ tag, tag ∈ wdd'.source.extensions.map Extension.tag ↔
        tag ∈ wd'd.source.extensions.map Extension.tag) ∧
      ∀ text, wdd'.unparse = .ok text ↔ wd'd.unparse = .ok text := by
  obtain ⟨_, _, _, _, _, hone⟩ := exists_graft_of_replaceAt? h₁ hhost hd
  obtain ⟨_, _, _, _, _, htwo⟩ := exists_graft_of_replaceAt? h₂ hone.distinct hd'
  obtain ⟨_, _, _, _, _, hone'⟩ := exists_graft_of_replaceAt? h₃ hhost hd'
  obtain ⟨_, _, _, _, _, htwo'⟩ := exists_graft_of_replaceAt? h₄ hone'.distinct hd
  let g : TwoGrafts host d d' wd wdd' p p' := ⟨hone, htwo, hapart, hapart'⟩
  let g' : TwoGrafts host d' d wd' wd'd p' p := ⟨hone', htwo', hapart', hapart⟩
  have hroot {first second mid mid' final final' : Workspace} {a a' : Position}
      (k : TwoGrafts host first second mid final a a')
      (k' : TwoGrafts host second first mid' final' a' a) {text : String}
      (htext : final.unparse = .ok text) : final'.unparse = .ok text :=
    (k.corresponds k' hagrees hroots).unparse_of_ok
      ((k.overlays k').alike_at rfl (at?_nil _) (at?_nil _)) htext
  refine ⟨?_, ?_, fun text => ⟨hroot g g', hroot g' g⟩⟩
  · exact eraseIds_eq_of_outline (fun q n n' hn hn' => g.outline_eq g' hn hn')
  · intro tag
    simp only [g.extensions, g'.extensions, Extension.mem_tag_merge]
    tauto

/-- Under `[[true]].map(x, x.exists(i, i))`, the element of the range is replaced by a macro call and the
list that `map` adds by another one. -/
theorem replaceBy_comm_map :
    let range : Expr := ⟨⟨1⟩, .list ⟨[⟨⟨2⟩, .list ⟨[⟨⟨3⟩, .constant (.bool true)⟩], .empty⟩⟩], .empty⟩⟩
    let inner : Expr := ⟨⟨13⟩, .comprehension ⟨"i", ⟨⟨5⟩, .ident ⟨"x"⟩⟩, "r", ⟨⟨8⟩, .ident ⟨"f"⟩⟩,
      ⟨⟨10⟩, .ident ⟨"t"⟩⟩, ⟨⟨7⟩, .ident ⟨"i"⟩⟩, ⟨⟨15⟩, .ident ⟨"r"⟩⟩⟩⟩
    let host : Workspace := ⟨⟨⟨21⟩, .comprehension ⟨"x", range, "r", ⟨⟨16⟩, .list ⟨[], .empty⟩⟩,
        ⟨⟨17⟩, .ident ⟨"t"⟩⟩,
        ⟨⟨19⟩, .call ⟨none, "_+_", [⟨⟨18⟩, .ident ⟨"r"⟩⟩, ⟨⟨20⟩, .list ⟨[inner], .empty⟩⟩]⟩⟩,
        ⟨⟨22⟩, .ident ⟨"r"⟩⟩⟩⟩,
      { SourceInfo.empty with macroCalls := .ofList [
          (⟨21⟩, ⟨.unset, .call ⟨some range, "map", [⟨⟨4⟩, .ident ⟨"x"⟩⟩, ⟨⟨13⟩, .notSet⟩]⟩⟩),
          (⟨13⟩, ⟨.unset, .call ⟨some ⟨⟨5⟩, .ident ⟨"x"⟩⟩, "exists",
            [⟨⟨6⟩, .ident ⟨"i"⟩⟩, ⟨⟨7⟩, .ident ⟨"i"⟩⟩]⟩⟩)] }⟩
    let d : Workspace := ⟨⟨⟨2⟩, .comprehension ⟨"y", ⟨⟨3⟩, .ident ⟨"ys"⟩⟩, "s", ⟨⟨4⟩, .ident ⟨"t"⟩⟩,
        ⟨⟨5⟩, .ident ⟨"s"⟩⟩, ⟨⟨6⟩, .ident ⟨"y"⟩⟩, ⟨⟨7⟩, .ident ⟨"s"⟩⟩⟩⟩,
      { SourceInfo.empty with macroCalls := .ofList [
          (⟨2⟩, ⟨.unset, .call ⟨some ⟨⟨3⟩, .ident ⟨"ys"⟩⟩, "all",
            [⟨⟨8⟩, .ident ⟨"y"⟩⟩, ⟨⟨6⟩, .ident ⟨"y"⟩⟩]⟩⟩)] }⟩
    let d' : Workspace := ofExpr ⟨⟨1⟩, .list ⟨[⟨⟨2⟩, .constant (.int 1)⟩, ⟨⟨3⟩, .ident ⟨"x"⟩⟩], .empty⟩⟩
    ∃ wd wdd' wd' wd'd, replaceAt? 90 host d [0, 0, 0] = some wd ∧
      replaceAt? 90 wd d' [3, 1] = some wdd' ∧ replaceAt? 90 host d' [3, 1] = some wd' ∧
      replaceAt? 90 wd' d [0, 0, 0] = some wd'd ∧ wdd'.root.eraseIds = wd'd.root.eraseIds ∧
      wdd'.unparse = .ok "[[ys.all(y, y)]].map(x, 1, x)" ∧
      wd'd.unparse = .ok "[[ys.all(y, y)]].map(x, 1, x)" := by
  intro range inner host d d'
  have hfirst : ((replaceAt? 90 host d [0, 0, 0]).bind fun wd => (replaceAt? 90 wd d' [3, 1]).bind
      fun wdd' => wdd'.unparse.toOption) = some "[[ys.all(y, y)]].map(x, 1, x)" := by
    decide +kernel
  have hsecond : ((replaceAt? 90 host d' [3, 1]).bind fun wd' => replaceAt? 90 wd' d [0, 0, 0]).isSome := by
    decide +kernel
  obtain ⟨wd, h₁, hfirst⟩ := Option.bind_eq_some_iff.1 hfirst
  obtain ⟨wdd', h₂, htext⟩ := Option.bind_eq_some_iff.1 hfirst
  obtain ⟨wd'd, hsecond⟩ := Option.isSome_iff_exists.1 hsecond
  obtain ⟨wd', h₃, h₄⟩ := Option.bind_eq_some_iff.1 hsecond
  obtain ⟨hshape, -, htexts⟩ := replaceBy_comm (by decide +kernel) (by decide +kernel)
    (by decide +kernel) (by decide +kernel) (by decide +kernel) (by decide) (by decide) h₁ h₂ h₃ h₄
  rw [except_toOption_eq_some] at htext
  exact ⟨wd, wdd', wd', wd'd, h₁, h₂, h₃, h₄, hshape, htext, (htexts _).1 htext⟩

end Workspace

end CelEdit
