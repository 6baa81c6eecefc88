import CelEdit.Proofs.GraftedCalls

/-!
# What remains of a host

A replacement takes the macro calls below its target out of the host. Where the shadow of another call
still refers to one of them, the result has a placeholder that nothing can be written for. So whether
the result has a text is decided by what remains of the host: the host with a text of its own in the
place of the target, and without the macro calls below.
-/

namespace CelEdit

open CelEdit.Expr MacroCalls

namespace Workspace

/-- What is written for the target. -/
def atom (target : NodeId) : Expr := ⟨target, .constant .null⟩

/-- What remains of a macro call when `d` replaces the node at `p`. -/
def remainingCall? (root d : Expr) (target : NodeId) (p : Position) (e : NodeId × Expr) :
    Option (NodeId × Expr) :=
  (root.firstAt? e.1).bind fun r =>
    if p <+: r then none
    else if Takes root d p r then
      some (e.1, takeElements e.2 (d.children.map fun _ => atom target))
    else some e

/-- What remains of the host when `d` replaces the target at `p`. -/
def remainder (host : Workspace) (target : NodeId) (p : Position) (d : Expr) : Workspace :=
  ⟨host.root, { host.source with
    macroCalls := (IdMap.ofList (host.source.macroCalls.entries.filterMap
      (remainingCall? host.root d target p))).insert target (atom target) }⟩

/-- A call of the host takes in the elements of the donor: it has two arguments, and it stands for a
loop that adds the node at `p`. -/
def TakesIn (host donor : Workspace) (p : Position) : Prop :=
  ∃ r shadow, host.callAt? r = some shadow ∧ HasTwoArguments shadow ∧ Takes host.root donor.root p r

/-- The workspace has a text. -/
def Unparses (w : Workspace) : Prop := ∃ text, w.unparse = .ok text

instance (w : Workspace) : Decidable w.Unparses :=
  decidable_of_iff (w.unparse.toOption.isSome) (by
    simp only [Unparses, Option.isSome_iff_exists, except_toOption_eq_some])

variable {host donor w : Workspace} {target : NodeId} {p q r : Position} {d m n x : Expr}

lemma unparses_iff_render :
    w.Unparses ↔ ∃ cs, Unparse.render w.source.macroCalls [] w.root = .ok cs := by
  constructor
  · rintro ⟨text, htext⟩
    obtain ⟨cs, hcs, -⟩ := unparse_eq_ok.1 htext
    exact ⟨cs, hcs⟩
  · rintro ⟨cs, hcs⟩
    exact ⟨_, unparse_eq_ok.2 ⟨cs, hcs, rfl⟩⟩

lemma remainingCall?_fst {root : Expr} {e e' : NodeId × Expr}
    (h : remainingCall? root d target p e = some e') : e'.1 = e.1 := by
  obtain ⟨r, -, h⟩ := Option.bind_eq_some_iff.1 h
  grind

/-- The key of a node outside of the target keeps its call, but may take in what `d` brings. -/
lemma remainingCall?_eq_some {i : NodeId} {call : Expr} {e : NodeId × Expr}
    (hfirst : host.root.firstAt? i = some r) (houtside : ¬ p <+: r) :
    remainingCall? host.root d target p e = some (i, call) ↔ e.1 = i ∧
      call = if Takes host.root d p r then
        takeElements e.2 (d.children.map fun _ => atom target) else e.2 := by
  obtain ⟨key, shadow⟩ := e
  constructor
  · intro h
    obtain rfl : i = key := remainingCall?_fst h
    simp only [remainingCall?, hfirst, Option.bind_some, if_neg houtside] at h
    grind
  · rintro ⟨rfl, rfl⟩
    simp only [remainingCall?, hfirst, Option.bind_some, if_neg houtside]
    grind

lemma mem_remainder {i : NodeId} {call : Expr} :
    (i, call) ∈ (host.remainder target p d).source.macroCalls.entries ↔
      i = target ∧ call = atom target ∨ i ≠ target ∧
        ∃ e ∈ host.source.macroCalls.entries,
          remainingCall? host.root d target p e = some (i, call) := by
  have hnodup : ((host.source.macroCalls.entries.filterMap
      (remainingCall? host.root d target p)).map Prod.fst).Nodup := by
    refine (host.source.macroCalls.keys_nodup.sublist ?_)
    induction host.source.macroCalls.entries with
    | nil => exact .slnil
    | cons e es ih =>
      cases he : remainingCall? host.root d target p e with
      | none =>
        rw [List.filterMap_cons_none he]
        exact ih.cons _
      | some e' =>
        rw [List.filterMap_cons_some he, List.map_cons, List.map_cons, remainingCall?_fst he]
        exact ih.cons_cons _
  rw [← IdMap.get?_eq_some_iff, remainder, IdMap.get?_insert]
  by_cases hi : i = target
  · rw [if_pos hi, Option.some.injEq]
    simp [hi, eq_comm]
  · rw [if_neg hi, IdMap.get?_ofList_of_nodup hnodup, List.mem_filterMap]
    simp [hi]

lemma callAt?_remainder (hhost : host.root.DistinctIds) (hfound : host.root.firstAt? target = some p)
    (houtside : ¬ p <+: r) (hm : host.root.at? r = some m) :
    (host.remainder target p d).callAt? r = (host.callAt? r).map fun s =>
      if Takes host.root d p r then
        takeElements s (d.children.map fun _ => atom target) else s := by
  rw [callAt?_of_at (w := host.remainder target p d) hm, callAt?_of_at hm]
  apply Option.ext
  intro call
  rw [Option.map_eq_some_iff, macroCall?_nil_eq_some, mem_remainder]
  by_cases hset : m.id.isSet
  · have hfirst := firstAt?_at hhost hm hset
    have hne : m.id ≠ target := by
      rintro rfl
      rw [hfirst, Option.some.injEq] at hfound
      exact houtside (hfound ▸ List.prefix_refl r)
    constructor
    · rintro ⟨-, ⟨heq, -⟩ | ⟨-, ⟨key, s⟩, he, hcall⟩⟩
      · exact absurd heq hne
      · obtain ⟨rfl, rfl⟩ := (remainingCall?_eq_some hfirst houtside).1 hcall
        exact ⟨s, macroCall?_nil_eq_some.2 ⟨hset, he⟩, rfl⟩
    · rintro ⟨s, hs, rfl⟩
      have he := (macroCall?_nil_eq_some.1 hs).2
      exact ⟨hset, .inr ⟨hne, _, he, (remainingCall?_eq_some hfirst houtside).2 ⟨rfl, rfl⟩⟩⟩
  · constructor
    · exact fun h => absurd h.1 hset
    · rintro ⟨s, hs, -⟩
      exact absurd (macroCall?_nil_eq_some.1 hs).1 hset

/-- No macro call remains below the target. -/
lemma position_of_callAt?_remainder (hhost : host.root.DistinctIds)
    (hfound : host.root.firstAt? target = some p) {call : Expr}
    (hcall : (host.remainder target p d).callAt? r = some call) : r = p ∨ ¬ p <+: r := by
  rw [or_iff_not_imp_right, not_not]
  intro hbelow
  obtain ⟨m, hm, hset, hmem⟩ := exists_of_callAt? hcall
  have hfirst := firstAt?_at hhost hm hset
  rcases mem_remainder.1 hmem with ⟨heq, -⟩ | ⟨-, e, -, he⟩
  · rw [heq, hfound, Option.some.injEq] at hfirst
    exact hfirst.symm
  · rw [remainingCall?, ← remainingCall?_fst he, hfirst, Option.bind_some, if_pos hbelow] at he
    cases he

lemma keyed_remainder (hhost : host.Keyed) (hfound : host.root.firstAt? target = some p) :
    (host.remainder target p d).Keyed := by
  refine ⟨hhost.distinct, fun key hkey => ?_⟩
  obtain ⟨⟨i, call⟩, hmem, rfl⟩ := List.mem_map.1 hkey
  rcases mem_remainder.1 hmem with ⟨rfl, -⟩ | ⟨-, e, he, hcall⟩
  · obtain ⟨x, hx, hid⟩ := exists_of_firstAt? hfound
    exact ⟨x, mem_preorder_iff.2 ⟨p, hx⟩, hid⟩
  · obtain ⟨n, hn, hid⟩ := hhost.node e.1 (List.mem_map_of_mem he)
    exact ⟨n, hn, hid.trans (remainingCall?_fst hcall).symm⟩

/-- A tree with the id of the target is written as the atom. -/
lemma exists_render_of_id {e : Expr} {E : List NodeId} (hid : e.id = target) (hset : target.isSet)
    (hE : target ∉ E) :
    ∃ cs, Unparse.render (host.remainder target p d).source.macroCalls E e = .ok cs := by
  obtain ⟨id, k⟩ := e
  obtain rfl : id = target := hid
  have hcall : macroCall? (host.remainder id p d).source.macroCalls E id = some (atom id) := by
    rw [macroCall?_eq, if_neg hE, macroCall?_nil_eq_some]
    exact ⟨hset, mem_remainder.2 (.inl ⟨rfl, rfl⟩)⟩
  have hnone : macroCall? (host.remainder id p d).source.macroCalls (id :: E) id = none := by
    rw [macroCall?_eq, if_pos List.mem_cons_self]
  have hatom : Unparse.render (host.remainder id p d).source.macroCalls (id :: E) (atom id) =
      .ok "null".toList := by
    rw [atom, Unparse.render_mk, hnone]
    rfl
  refine ⟨"null".toList, ?_⟩
  rw [Unparse.render_mk, hcall]
  exact hatom

/-- The elements of a list that is not written as a macro call have texts, as parts of its text. -/
lemma unparses_of_mem_children (htext : w.Unparses) (hlist : w.root.kind.tag = .list)
    (hnone : w.callAt? [] = none) {c : Expr} (hc : c ∈ w.root.children) :
    ({ w with root := c } : Workspace).Unparses := by
  obtain ⟨⟨id, k⟩, source⟩ := w
  cases k with
  | list l =>
    obtain ⟨cs, hcs⟩ := unparses_iff_render.1 htext
    have hcall : macroCall? source.macroCalls [] id = none := hnone
    rw [Unparse.render_mk, hcall] at hcs
    obtain ⟨texts, htexts, -⟩ := (except_bind_eq_ok ..).1 hcs
    rw [mapM_eq_ok, List.forall₂_map_left_iff] at htexts
    obtain ⟨text, -, htext⟩ := exists_of_forall₂_right htexts.flip hc
    exact unparses_iff_render.2 ⟨text, htext⟩
  | _ => cases hlist

/-! ### Grafts -/

/-- The result has the donor where the target was, or one of its elements if a call takes them in. -/
def Fills (host donor w : Workspace) (target : NodeId) (p : Position) (e e' : Expr) : Prop :=
  e.id = target ∧ ∃ x, (x = donor.root ∨ host.TakesIn donor p ∧ x ∈ donor.root.children) ∧
    Alike (SameKey (Origin.donor.Moves p) donor w) NoHole x e'

namespace DistinctGraft

variable {seed : NodeId} {stable : Workspace} {s t : IdSupply} {o : Origin}

lemma isSome_named? (h : DistinctGraft seed host donor stable target p w s t)
    (hmoves : o.Moves p r q) (hm : (o.workspace host donor).root.at? r = some m)
    (hset : m.id.isSet) : (named? w.root (o.carry s t m.id)).isSome := by
  obtain ⟨n, hn, hnset, hid⟩ := h.exists_at_of_moves hmoves hm hset
  rw [hid]
  exact named?_isSome (mem_preorder_iff.2 ⟨q, hn⟩) hnset

/-- A part of a shadow comes to name a node where the node that it named moves to. -/
lemma exists_moves_of_entry (h : DistinctGraft seed host donor stable target p w s t)
    {e : NodeId × Expr} (he : e ∈ (o.workspace host donor).source.macroCalls.entries)
    (hx : x ∈ e.2.preorder) (hne : o = .host → x.id ≠ target) (hn : w.root.at? q = some n)
    (hid : o.carry s t x.id = n.id) :
    x.id.isSet ∧ ∃ r m, o.Moves p r q ∧ (o.workspace host donor).root.at? r = some m ∧
      m.id = x.id := by
  have hle := (toNat_le_maxId_of_entry he).2 x.id (id_mem_slots hx)
  have hset := Origin.isSet_of_carry (hid ▸ h.isSet_at hn)
  exact ⟨hset, h.exists_moves_of_carry hn hle hne hid⟩

/-! #### The donor in the result -/

lemma redrawn_donor (h : DistinctGraft seed host donor stable target p w s t) (hdonor : donor.Keyed) :
    Redrawn (Origin.donor.Moves p) NoHole donor w (Origin.donor.carry s t) := by
  refine ⟨⟨hdonor, h.keyed, h.outline_at (o := .donor), ?_, h.isSome_callAt? (o := .donor)⟩, ?_⟩
  · intro r q m n i hmoves _ _
    refine .inl ?_
    change q ++ [i] = p ++ (r ++ [i])
    rw [← List.append_assoc, ← (hmoves : q = p ++ r)]
  · intro i r hr
    obtain ⟨m, call, hm, rfl, -, hcall⟩ := exists_of_keyPosition? hr
    exact h.isSome_named? (o := .donor) rfl hm (macroCall?_nil_eq_some.1 hcall).1

lemma corresponds_donor (h : DistinctGraft seed host donor stable target p w s t)
    (hdonor : donor.Consistent) : Corresponds (Origin.donor.Moves p) NoHole donor w := by
  have hredrawn := h.redrawn_donor hdonor.toKeyed
  refine ⟨hdonor.toKeyed, h.keyed, ?_, ?_⟩
  · rintro r q r' q' rfl rfl
    exact List.append_cancel_left_eq p r r' ▸ Iff.rfl
  · intro r q hmoves
    have hkeys := hredrawn.keys hmoves
    cases hcall : donor.callAt? r with
    | none =>
      rw [eq_none_of_isSome_eq hkeys hcall]
      exact .none
    | some shadow =>
      obtain ⟨m, -, -, he⟩ := exists_of_callAt? hcall
      rw [(hmoves : q = p ++ r), h.callAt?_donor hcall]
      refine .some (hredrawn.alike_shadow (fun _ _ _ _ here => here.elim)
        (fun _ _ _ here => here.elim) (hdonor.agrees _ he) ?_)
      intro x hx q n hn hid _
      exact .inr (h.exists_moves_of_entry (o := .donor) he hx Origin.noConfusion hn hid)

lemma alike_donor (h : DistinctGraft seed host donor stable target p w s t) (hdonor : donor.Keyed)
    (hd : w.root.at? p = some d) :
    Alike (SameKey (Origin.donor.Moves p) donor w) NoHole donor.root d :=
  (h.redrawn_donor hdonor).alike_at (List.append_nil p).symm (at?_nil donor.root) hd

/-! #### The remainder in the result -/

lemma fills_graft (h : DistinctGraft seed host donor stable target p w s t) (hdonor : donor.Keyed)
    (hd : w.root.at? p = some d) (hid : x.id = target) : Fills host donor w target p x d :=
  ⟨hid, donor.root, .inl rfl, h.alike_donor hdonor hd⟩

lemma redrawn_remainder (h : DistinctGraft seed host donor stable target p w s t) (hhost : host.Keyed)
    (hdonor : donor.Keyed) :
    Redrawn (Origin.host.Moves p) (Fills host donor w target p) (host.remainder target p donor.root) w
      t.exchangeOf := by
  have hfound := h.grafted.found
  refine ⟨⟨keyed_remainder hhost hfound, h.keyed, h.outline_at (o := .host), ?_, ?_⟩, ?_⟩
  · rintro r q m n i ⟨rfl, houtside⟩ hm hn
    by_cases hbelow : p <+: q ++ [i]
    · have heq : p = q ++ [i] := (List.prefix_concat_iff.1 hbelow).resolve_right houtside
      subst heq
      obtain ⟨x, hx, hid⟩ := exists_of_firstAt? hfound
      obtain rfl := Option.some.inj (hm.symm.trans hx)
      exact .inr (h.fills_graft hdonor hn hid)
    · exact .inl ⟨rfl, hbelow⟩
  · rintro r q ⟨rfl, houtside⟩
    rw [← h.isSome_callAt? (o := .host) ⟨rfl, houtside⟩, Origin.workspace]
    cases hm : host.root.at? q with
    | none =>
      rw [callAt?, callAt?, hm]
      change ((host.root.at? q).bind _).isSome = _
      rw [hm]
      rfl
    | some m => rw [callAt?_remainder hhost.distinct hfound houtside hm, Option.isSome_map]
  · intro i r hr
    obtain ⟨m, call, hm, rfl, hcall, hentry⟩ := exists_of_keyPosition? hr
    rcases position_of_callAt?_remainder hhost.distinct hfound hcall with rfl | houtside
    · obtain ⟨x, hx, hid⟩ := exists_of_firstAt? hfound
      obtain rfl := Option.some.inj (hm.symm.trans hx)
      obtain ⟨d, hd, hset, htarget, -⟩ := h.exists_at_graft
      rw [hid, htarget]
      exact named?_isSome (mem_preorder_iff.2 ⟨r, hd⟩) hset
    · exact h.isSome_named? (o := .host) ⟨rfl, houtside⟩ hm (macroCall?_nil_eq_some.1 hentry).1

/-- A shadow of the host is like the one derived from the result. -/
lemma alike_shadow_host (h : DistinctGraft seed host donor stable target p w s t)
    (hhost : host.Consistent) (hdonor : donor.Keyed) {e : NodeId × Expr}
    (he : e ∈ host.source.macroCalls.entries) :
    Alike (SameKey (Origin.host.Moves p) (host.remainder target p donor.root) w)
      (Fills host donor w target p) e.2
      (collapse (refresh w.root.nodesById (e.2.mapIds t.exchangeOf))) := by
  obtain ⟨d, hd, hset, htarget, -⟩ := h.exists_at_graft
  refine (h.redrawn_remainder hhost.toKeyed hdonor).alike_shadow ?_ ?_ (hhost.agrees e he) ?_
  · rintro x y z halike ⟨hid, hfills⟩
    exact ⟨halike.id_rel.trans hid, hfills⟩
  · rintro x y z ⟨hid, c, hc, hfills⟩ halike
    exact ⟨hid, c, hc, hfills.trans_eq halike (fun _ _ _ here => here.elim)⟩
  · intro x hx q n hn hid hnset
    by_cases hx' : x.id = target
    · rw [hx', htarget] at hid
      obtain rfl := h.distinct.position_eq hd hn hset hid
      obtain rfl := Option.some.inj (hd.symm.trans hn)
      exact .inl (h.fills_graft hdonor hd hx')
    · exact .inr (h.exists_moves_of_entry (o := .host) he hx (fun _ => hx') hn hid)

/-- The elements of a list that takes the place of the target. -/
lemma fills_elements (h : DistinctGraft seed host donor stable target p w s t) (hdonor : donor.Keyed)
    (hd : w.root.at? p = some d) (htakes : host.TakesIn donor p) {R : NodeId → NodeId → Prop} :
    List.Forall₂ (Alike R (Fills host donor w target p)) (donor.root.children.map fun _ => atom target)
      (d.children.map collapse) := by
  have hnotBlank : ¬ donor.root.kind.IsBlank := by
    obtain ⟨-, -, -, -, -, hlist⟩ := htakes
    rw [Kind.IsBlank, hlist]
    rintro (htag | htag) <;> cases htag
  cases h.alike_donor hdonor hd with
  | hole here => exact here.elim
  | blank _ left _ => exact absurd left hnotBlank
  | node _ _ children =>
    rw [List.forall₂_map_left_iff, List.forall₂_map_right_iff]
    refine forall₂_imp_of_mem children (fun c hc c' _ halike => .hole ⟨rfl, c, .inr ⟨htakes, hc⟩, ?_⟩)
    exact halike.trans_eq (alike_collapse (fun _ => rfl) c') (fun _ _ _ here => here.elim)

/-- A shadow that follows the map step is like what remains of it. -/
lemma alike_followed (h : DistinctGraft seed host donor stable target p w s t)
    (hhost : host.Consistent) (hdonor : donor.Keyed) {e : NodeId × Expr}
    (he : e ∈ host.source.macroCalls.entries) (hd : w.root.at? p = some d)
    (hlist : donor.root.kind.tag = .list) (htakes : HasTwoArguments e.2 → host.TakesIn donor p) :
    Alike (SameKey (Origin.host.Moves p) (host.remainder target p donor.root) w)
      (Fills host donor w target p) (takeElements e.2 (donor.root.children.map fun _ => atom target))
      (takeElements (collapse (refresh w.root.nodesById (e.2.mapIds t.exchangeOf)))
        (d.children.map collapse)) := by
  by_cases hid : e.2.id = target
  · -- the shadow itself refers to the target, which has become the list
    obtain ⟨d', hd', hset, htarget, houtline⟩ := h.exists_at_graft
    obtain rfl := Option.some.inj (hd.symm.trans hd')
    have hnamed : named? w.root (e.2.mapIds t.exchangeOf).id = some d := by
      rw [id_mapIds, hid, htarget, named?, if_pos hset]
      exact h.distinct.nodesById (mem_preorder_iff.2 ⟨p, hd⟩) hset
    have hlist' : d.kind.tag = .list := by rw [← Kind.tag_eq_of_outline_eq houtline, hlist]
    have hnot : ¬ HasTwoArguments d := by
      rintro ⟨_, _, _, _, hkind⟩
      rw [hkind] at hlist'
      cases hlist'
    rw [refresh_of_named hnamed, ← collapse_takeElements, takeElements_of_not hnot]
    refine .hole ⟨(takeElements_id ..).trans hid, donor.root, .inl rfl, ?_⟩
    exact (h.alike_donor hdonor hd).trans_eq (alike_collapse (fun _ => rfl) d)
      (fun _ _ _ here => here.elim)
  · exact alike_takeElements (h.alike_shadow_host hhost hdonor he) (fun here => hid here.1)
      (fun htwo => h.fills_elements hdonor hd (htakes htwo))

theorem corresponds_remainder (h : DistinctGraft seed host donor stable target p w s t)
    (hhost : host.Consistent) (hdonor : donor.Keyed) :
    Corresponds (Origin.host.Moves p) (Fills host donor w target p) (host.remainder target p donor.root)
      w := by
  have hredrawn := h.redrawn_remainder hhost.toKeyed hdonor
  have hfound := h.grafted.found
  refine ⟨hredrawn.left, h.keyed, ?_, ?_⟩
  · rintro r q r' q' ⟨rfl, -⟩ ⟨rfl, -⟩
    exact Iff.rfl
  · rintro r q ⟨rfl, houtside⟩
    have hkeys := hredrawn.keys (r := q) ⟨rfl, houtside⟩
    cases hm : host.root.at? q with
    | none =>
      have hnone : (host.remainder target p donor.root).callAt? q = none := by
        change (host.root.at? q).bind _ = none
        rw [hm]
        rfl
      rw [hnone, eq_none_of_isSome_eq hkeys hnone]
      exact .none
    | some m =>
      obtain ⟨d, hd, -⟩ := h.exists_at_graft
      rw [callAt?_remainder hhost.distinct hfound houtside hm] at hkeys ⊢
      cases hshadow : host.callAt? q with
      | none =>
        rw [hshadow, Option.map_none] at hkeys
        rw [eq_none_of_isSome_eq hkeys rfl]
        exact .none
      | some shadow =>
        obtain ⟨m, -, -, he⟩ := exists_of_callAt? hshadow
        rw [Option.map_some]
        by_cases htakes : Takes host.root donor.root p q
        · rw [h.callAt?_of_takes houtside hshadow htakes hd, if_pos htakes]
          exact .some (h.alike_followed hhost hdonor he hd htakes.2
            (fun htwo => ⟨q, shadow, hshadow, htwo, htakes⟩))
        · rw [h.callAt?_host houtside hshadow htakes, if_neg htakes]
          exact .some (h.alike_shadow_host hhost hdonor he)

/-! #### Texts -/

/-- What fills the place of the target has a text, where no key below is being expanded. -/
lemma exists_render_of_fills (h : DistinctGraft seed host donor stable target p w s t)
    (hdonor : donor.Consistent) (htext : donor.Unparses)
    (helements : host.TakesIn donor p → (donor.callAt? []).isSome → ∀ c ∈ donor.root.children,
      ({ donor with root := c } : Workspace).Unparses) {e e' : Expr}
    (hfills : Fills host donor w target p e e') {E : List NodeId}
    (hE : ∀ j ∈ E, ∀ q, w.keyPosition? j = some q → ¬ p <+: q) :
    ∃ cs, Unparse.render w.source.macroCalls E e' = .ok cs := by
  obtain ⟨-, c, hc, halike⟩ := hfills
  have hcs : ∃ cs, Unparse.render donor.source.macroCalls [] c = .ok cs := by
    rcases hc with rfl | ⟨htakes, hc⟩
    · exact unparses_iff_render.1 htext
    · cases hcall : donor.callAt? [] with
      | some call => exact unparses_iff_render.1 (helements htakes (hcall ▸ rfl) c hc)
      | none =>
        obtain ⟨-, -, -, -, -, hlist⟩ := htakes
        exact unparses_iff_render.1 (unparses_of_mem_children htext hlist hcall hc)
  have hlinked : Corresponds.Linked (Origin.donor.Moves p) donor w [] E := by
    rintro i j r q - hj rfl
    refine iff_of_false List.not_mem_nil (fun hmem => hE j hmem _ hj ⟨r, rfl⟩)
  let S := (h.corresponds_donor hdonor).simulation True (fun _ _ => True) (fun _ _ _ _ => trivial)
    (fun _ here => here.elim)
  obtain ⟨cs, hcs⟩ := hcs
  obtain ⟨cs', hcs', -⟩ := S.follows ⟨hlinked, trivial⟩ halike cs hcs
  exact ⟨cs', hcs'⟩

/-- The result of a graft has a text when the remainder of the host has one. -/
theorem unparses_iff (h : DistinctGraft seed host donor stable target p w s t)
    (hhost : host.Consistent) (hdonor : donor.Consistent) (htext : donor.Unparses)
    (helements : host.TakesIn donor p → (donor.callAt? []).isSome → ∀ c ∈ donor.root.children,
      ({ donor with root := c } : Workspace).Unparses) :
    w.Unparses ↔ (host.remainder target p donor.root).Unparses := by
  have hcorresponds := h.corresponds_remainder hhost hdonor.toKeyed
  have hroot : Alike (SameKey (Origin.host.Moves p) (host.remainder target p donor.root) w)
      (Fills host donor w target p) host.root w.root := by
    by_cases hp : p = []
    · subst hp
      obtain ⟨x, hx, hid⟩ := exists_of_firstAt? h.grafted.found
      obtain rfl := Option.some.inj hx
      exact .hole (h.fills_graft hdonor.toKeyed (at?_nil w.root) hid)
    · exact (h.redrawn_remainder hhost.toKeyed hdonor.toKeyed).alike_at
        ⟨rfl, fun hprefix => hp (List.prefix_nil.1 hprefix)⟩ (at?_nil host.root) (at?_nil w.root)
  rw [unparses_iff_render, unparses_iff_render]
  constructor
  · -- the target is not being expanded, so the atom is written for it
    rintro ⟨cs, hcs⟩
    let S := hcorresponds.symm.simulation False (fun _ E => target ∉ E)
      (by
        intro E E' i j r q hE hi hj hM hmem
        rcases List.mem_cons.1 hmem with rfl | hmem
        · obtain ⟨n, -, hn, hid, -⟩ := exists_of_keyPosition? hj
          obtain ⟨x, hx, hxid⟩ := exists_of_firstAt? h.grafted.found
          have heq := hhost.distinct.position_eq hx hn (hxid ▸ h.target_isSet) (hxid.trans hid.symm)
          exact hM.2 (heq ▸ List.prefix_refl p)
        · exact hE hmem)
      (fun hE here => ⟨not_false, exists_render_of_id here.1 h.target_isSet hE⟩)
    obtain ⟨cs', hcs', -⟩ := S.follows ⟨Corresponds.linked_nil, List.not_mem_nil⟩
      (hroot.symm.imp (fun _ _ => SameKey.symm) (fun _ _ here => .hole here)) cs hcs
    exact ⟨cs', hcs'⟩
  · rintro ⟨cs, hcs⟩
    let S := hcorresponds.simulation False
      (fun _ E => ∀ j ∈ E, ∀ q, w.keyPosition? j = some q → ¬ p <+: q)
      (by
        intro E E' i j r q hE hi hj hM j' hj' q' hq'
        rcases List.mem_cons.1 hj' with rfl | hmem
        · obtain rfl := Option.some.inj (hj.symm.trans hq')
          exact hM.1 ▸ hM.2
        · exact hE j' hmem q' hq')
      (fun hE here => ⟨not_false, h.exists_render_of_fills hdonor htext helements here hE⟩)
    obtain ⟨cs', hcs', -⟩ := S.follows
      ⟨Corresponds.linked_nil, fun _ hmem => absurd hmem List.not_mem_nil⟩ hroot cs hcs
    exact ⟨cs', hcs'⟩

end DistinctGraft

/-- The result of a replacement has a text when the remainder of the host has one, or when the target is
the donor already. One thing is asked of the donor besides a text of its own. If it is a list that is
itself written as a macro call, and a call of the host takes in its elements, then these have to have
texts, which nothing has needed so far. -/
theorem unparses_replaceBy_iff {budget : Nat} (hhost : host.Consistent) (hdonor : donor.Consistent)
    (hhostText : host.Unparses) (hdonorText : donor.Unparses)
    (helements : host.TakesIn donor p → (donor.callAt? []).isSome → ∀ c ∈ donor.root.children,
      ({ donor with root := c } : Workspace).Unparses)
    (hfound : host.root.firstAt? target = some p) (h : replaceBy budget host donor target = .ok w) :
    w.Unparses ↔ host.root.find? target = some donor.root ∨
      (host.remainder target p donor.root).Unparses := by
  by_cases hsame : host.root.find? target = some donor.root
  · have hcases := (replaceBy_cases h).2
    have hadopted := hcases.resolve_right (fun hgraft => hgraft.1 hsame)
    obtain ⟨text, htext⟩ := hhostText
    have hw := (hadopted.exchanged hhost.distinct).unparse_eq hhost htext
    exact iff_of_true ⟨text, hw⟩ (.inl hsame)
  · have hcases := adopted_or_distinctGraft hhost.distinct hdonor.distinct h
    obtain ⟨seed, stable, p', s, t, hgraft⟩ :=
      hcases.resolve_left (fun hadopted => hsame hadopted.found)
    obtain rfl := Option.some.inj (hfound.symm.trans hgraft.grafted.found)
    rw [hgraft.unparses_iff hhost hdonor hdonorText helements, or_iff_right hsame]

/-- Every part of a shadow that names a node names one below the key. -/
def ShadowsBelow (w : Workspace) : Prop :=
  ∀ e ∈ w.source.macroCalls.entries, ∀ x ∈ e.2.preorder, ∀ k ∈ w.root.preorder,
    ∀ n ∈ w.root.preorder, x.id.isSet → n.id = x.id → k.id = e.1 → n ∈ k.preorder

instance (w : Workspace) : Decidable w.ShadowsBelow :=
  inferInstanceAs (Decidable (∀ e ∈ _, ∀ x ∈ _, ∀ k ∈ _, ∀ n ∈ _, _ → _ → _ → _))

/-- The workspace of `[[true]].map(x, x.exists(i, i))`, where the shadow of `map` has a placeholder for
the call of `exists`. -/
def mapOfExists : Workspace :=
  let range : Expr := ⟨⟨1⟩, .list ⟨[⟨⟨2⟩, .list ⟨[⟨⟨3⟩, .constant (.bool true)⟩], .empty⟩⟩], .empty⟩⟩
  let inner : Expr := ⟨⟨13⟩, .comprehension ⟨"i", ⟨⟨5⟩, .ident ⟨"x"⟩⟩, "__result__",
    ⟨⟨8⟩, .constant (.bool false)⟩,
    ⟨⟨10⟩, .call ⟨none, "@not_strictly_false",
      [⟨⟨11⟩, .call ⟨none, "!_", [⟨⟨9⟩, .ident ⟨"__result__"⟩⟩]⟩⟩]⟩⟩,
    ⟨⟨12⟩, .call ⟨none, "_||_", [⟨⟨14⟩, .ident ⟨"__result__"⟩⟩, ⟨⟨7⟩, .ident ⟨"i"⟩⟩]⟩⟩,
    ⟨⟨15⟩, .ident ⟨"__result__"⟩⟩⟩⟩
  ⟨⟨⟨21⟩, .comprehension ⟨"x", range, "__result__", ⟨⟨16⟩, .list ⟨[], .empty⟩⟩,
      ⟨⟨17⟩, .constant (.bool true)⟩,
      ⟨⟨19⟩, .call ⟨none, "_+_", [⟨⟨18⟩, .ident ⟨"__result__"⟩⟩, ⟨⟨20⟩, .list ⟨[inner], .empty⟩⟩]⟩⟩,
      ⟨⟨22⟩, .ident ⟨"__result__"⟩⟩⟩⟩,
    { SourceInfo.empty with macroCalls := .ofList [
        (⟨21⟩, ⟨.unset, .call ⟨some range, "map", [⟨⟨4⟩, .ident ⟨"x"⟩⟩, ⟨⟨13⟩, .notSet⟩]⟩⟩),
        (⟨13⟩, ⟨.unset, .call ⟨some ⟨⟨5⟩, .ident ⟨"x"⟩⟩, "exists",
          [⟨⟨6⟩, .ident ⟨"i"⟩⟩, ⟨⟨7⟩, .ident ⟨"i"⟩⟩]⟩⟩)] }⟩

/-- When the list that `map` adds is replaced by another one, its elements go into the call, also when
the new list is written as a macro call of its own. -/
theorem unparses_replaceBy_iff_added :
    let donor : Workspace := ⟨⟨⟨3⟩, .list ⟨[⟨⟨4⟩, .constant (.int 2)⟩], .empty⟩⟩,
      { SourceInfo.empty with macroCalls := .ofList [(⟨3⟩, ⟨.unset, .call ⟨none, "single", []⟩⟩)] }⟩
    donor.unparse = .ok "single()" ∧
      ∃ w, replaceBy 100 mapOfExists donor ⟨20⟩ = .ok w ∧ w.Unparses := by
  intro donor
  refine ⟨except_toOption_eq_some.1 (by decide +kernel), ?_⟩
  have hsome : (replaceBy 100 mapOfExists donor ⟨20⟩).toOption.isSome := by decide +kernel
  obtain ⟨w, hw⟩ := Option.isSome_iff_exists.1 hsome
  rw [except_toOption_eq_some] at hw
  have hhost : mapOfExists.Consistent := by decide +kernel
  have hdonor : donor.Consistent := by decide +kernel
  have hfound : mapOfExists.root.firstAt? ⟨20⟩ = some [3, 1] := by decide +kernel
  have hhostText : mapOfExists.Unparses := by decide +kernel
  have hdonorText : donor.Unparses := by decide +kernel
  have hremainder : (mapOfExists.remainder ⟨20⟩ [3, 1] donor.root).Unparses := by decide +kernel
  have helements : ∀ c ∈ donor.root.children, ({ donor with root := c } : Workspace).Unparses := by
    decide +kernel
  refine ⟨w, hw, ?_⟩
  rw [unparses_replaceBy_iff hhost hdonor hhostText hdonorText (fun _ _ => helements) hfound hw]
  exact .inr hremainder

/-- When the whole step of `map` is replaced, the shadow keeps its placeholder for the call of `exists`,
which is gone. -/
theorem not_unparses_replaceBy :
    let donor := ofExpr ⟨⟨1⟩, .call ⟨none, "_+_",
      [⟨⟨2⟩, .ident ⟨"__result__"⟩⟩, ⟨⟨3⟩, .list ⟨[⟨⟨4⟩, .constant (.int 2)⟩], .empty⟩⟩]⟩⟩
    mapOfExists.Consistent ∧ mapOfExists.ShadowsBelow ∧ donor.Consistent ∧ donor.ShadowsBelow ∧
      mapOfExists.unparse = .ok "[[true]].map(x, x.exists(i, i))" ∧
      donor.unparse = .ok "__result__ + [2]" ∧
      ∃ w, replaceBy 100 mapOfExists donor ⟨19⟩ = .ok w ∧ ¬ w.Unparses := by
  intro donor
  refine ⟨by decide +kernel, by decide +kernel, by decide +kernel, by decide +kernel,
    except_toOption_eq_some.1 (by decide +kernel), except_toOption_eq_some.1 (by decide +kernel), ?_⟩
  have hfails : (replaceBy 100 mapOfExists donor ⟨19⟩).toOption.map (fun w => decide w.Unparses) =
      some false := by
    decide +kernel
  obtain ⟨w, hw, hfails⟩ := Option.map_eq_some_iff.1 hfails
  exact ⟨w, except_toOption_eq_some.1 hw, of_decide_eq_false hfails⟩

end Workspace

end CelEdit
