import CelEdit.Proofs.GraftedCalls

/-!
# Where ids stand

The parts of a shadow are taken from the nodes that carry their ids. So what becomes of a shadow is
known from the positions where its ids stand, and two ways to exchange ids lead to shadows that are
alike if they bring each id to the same position.
-/

namespace CelEdit

open CelEdit.Expr MacroCalls

namespace Workspace

variable {w v : Workspace} {i j : NodeId} {q q' : Position} {n : Expr}

/-- The node at `q` carries the id, which is set. -/
def Stands (w : Workspace) (i : NodeId) (q : Position) : Prop :=
  i.isSet ∧ ∃ n, w.root.at? q = some n ∧ n.id = i

lemma Stands.unique (hw : w.root.DistinctIds) (h : w.Stands i q) (h' : w.Stands i q') : q = q' := by
  obtain ⟨hset, n, hn, rfl⟩ := h
  obtain ⟨-, n', hn', hid⟩ := h'
  exact hw.position_eq hn hn' hset hid.symm

lemma Stands.named? (hw : w.root.DistinctIds) (h : w.Stands i q) :
    ∃ n, w.root.at? q = some n ∧ MacroCalls.named? w.root i = some n := by
  obtain ⟨hset, n, hn, rfl⟩ := h
  refine ⟨n, hn, ?_⟩
  rw [MacroCalls.named?, if_pos hset]
  exact hw.nodesById (mem_preorder_iff.2 ⟨q, hn⟩) hset

lemma stands_of_named? (h : named? w.root i = some n) : ∃ q, w.root.at? q = some n ∧ w.Stands i q := by
  obtain ⟨hn, hid⟩ := mem_of_named? h
  obtain ⟨q, hq⟩ := mem_preorder_iff.1 hn
  exact ⟨q, hq, isSet_of_named? h, n, hq, hid⟩

/-! ### Shadows that are tracked -/

section Tracks

variable {Live : NodeId → Position → Prop} {f g : NodeId → NodeId} {b b' : Nat} {e s s' : Expr}

/-- The parts of `s'` have ids that `f` brings to the positions where the ids of `s` live. Below a part
whose id lives somewhere the two may differ. Only ids up to a bound count. -/
def Tracks (Live : NodeId → Position → Prop) (w : Workspace) (f : NodeId → NodeId) (b : Nat) :
    Expr → Expr → Prop :=
  Alike (fun i j => j.toNat ≤ b → ∀ q, Live i q ↔ w.Stands (f j) q)
    (fun x y => (y.id.toNat ≤ b → ∀ q, Live x.id q ↔ w.Stands (f y.id) q) ∧ ∃ q, Live x.id q)

/-- Collapsing what tracks a tree keeps the ids that matter. -/
lemma Tracks.collapse (h : Tracks Live w f b s s') : Tracks Live w f b s (collapse s') := by
  refine Alike.trans_eq h (alike_collapse (fun _ => rfl) s') ?_
  rintro x y z ⟨hplace, hlive⟩ halike
  exact ⟨halike.id_rel ▸ hplace, hlive⟩

/-- Two shadows that track the same one are alike once they are refreshed from trees that are alike. -/
theorem alike_of_tracks (hover : Overlays Eq NoHole w v) (h : Tracks Live w f b e s)
    (hs : ∀ y ∈ s.preorder, y.id.toNat ≤ b) (h' : Tracks Live v g b' e s')
    (hs' : ∀ y ∈ s'.preorder, y.id.toNat ≤ b') :
    Alike (SameKey Eq w v) NoHole (collapse (refresh w.root.nodesById (s.mapIds f)))
      (collapse (refresh v.root.nodesById (s'.mapIds g))) := by
  have hleft : Alike (fun i j => ∀ q, Live i q ↔ w.Stands (f j) q)
      (fun x y => (∀ q, Live x.id q ↔ w.Stands (f y.id) q) ∧ ∃ q, Live x.id q) e s :=
    h.imp_of_mem (fun x _ y hy hplace => hplace (hs y hy))
      (fun x _ y hy here => .hole ⟨here.1 (hs y hy), here.2⟩)
  have hright : Alike (fun i j => ∀ q, Live i q ↔ v.Stands (g j) q)
      (fun x y => (∀ q, Live x.id q ↔ v.Stands (g y.id) q) ∧ ∃ q, Live x.id q) e s' :=
    h'.imp_of_mem (fun x _ y hy hplace => hplace (hs' y hy))
      (fun x _ y hy here => .hole ⟨here.1 (hs' y hy), here.2⟩)
  have hboth : Alike (fun i j => ∀ q, w.Stands (f i) q ↔ v.Stands (g j) q)
      (fun x y => (∀ q, w.Stands (f x.id) q ↔ v.Stands (g y.id) q) ∧ ∃ q, w.Stands (f x.id) q) s s' := by
    refine hleft.symm.trans hright (fun i j k hi hj q => (hi q).symm.trans (hj q)) ?_ ?_
    · rintro x y z ⟨hplace, q, hq⟩ halike
      have hplace' : ∀ q, Live y.id q ↔ v.Stands (g z.id) q := by
        cases halike with
        | hole here => exact here.1
        | blank ids => exact ids
        | node ids => exact ids
      exact .hole ⟨fun q => (hplace q).symm.trans (hplace' q), q, (hplace q).1 hq⟩
    · rintro x y z halike ⟨hplace, q, hq⟩
      have hplace' : ∀ q, Live y.id q ↔ w.Stands (f x.id) q := by
        cases halike with
        | hole here => exact here.1
        | blank ids => exact ids
        | node ids => exact ids
      exact .hole ⟨fun q => (hplace' q).symm.trans (hplace q), q, (hplace' q).1 hq⟩
  have hmapped : Alike (fun i j => ∀ q, w.Stands i q ↔ v.Stands j q)
      (fun x y => (∀ q, w.Stands x.id q ↔ v.Stands y.id q) ∧ ∃ q, w.Stands x.id q)
      (s.mapIds f) (s'.mapIds g) := by
    refine hboth.of_mapIds (fun _ _ hplace => hplace) (fun x y here => ?_)
    rw [id_mapIds, id_mapIds]
    exact here
  have hnamed {i j : NodeId} {q : Position} (hi : w.Stands i q) (hj : v.Stands j q) :
      ∃ n n', named? w.root i = some n ∧ named? v.root j = some n' ∧
        Alike (SameKey Eq w v) NoHole n n' := by
    obtain ⟨n, hn, hi⟩ := hi.named? hover.left.distinct
    obtain ⟨n', hn', hj⟩ := hj.named? hover.right.distinct
    exact ⟨n, n', hi, hj, hover.alike_at rfl hn hn'⟩
  refine alike_collapse_both (alike_refresh_both hmapped ?_ ?_)
  · intro i j hplace
    cases hi : named? w.root i with
    | some n =>
      obtain ⟨q, -, hq⟩ := stands_of_named? hi
      rw [← hi]
      exact .inr (hnamed hq ((hplace q).1 hq))
    | none =>
      have hj : named? v.root j = none := by
        rw [Option.eq_none_iff_forall_ne_some]
        intro n' hn'
        obtain ⟨q, -, hq⟩ := stands_of_named? hn'
        obtain ⟨n, -, hn⟩ := ((hplace q).2 hq).named? hover.left.distinct
        rw [hi] at hn
        cases hn
      exact .inl ⟨rfl, hj, sameKey_of_not_named hi hj⟩
  · rintro x y ⟨hplace, q, hq⟩
    exact hnamed hq ((hplace q).1 hq)

end Tracks

/-! ### Ids in one graft -/

namespace DistinctGraft

variable {seed target : NodeId} {host donor stable : Workspace} {p : Position} {s t : IdSupply}

/-- An id of the host stands where it stood, if this is not below the target. -/
lemma stands_exchangeOf (h : DistinctGraft seed host donor stable target p w s t)
    (hle : i.toNat ≤ host.maxId.toNat) :
    w.Stands (t.exchangeOf i) q ↔ host.Stands i q ∧ (p <+: q → q = p) := by
  obtain ⟨d, hd, hdset, hdid, -⟩ := h.exists_at_graft
  obtain ⟨x, hx, hxid⟩ := exists_of_firstAt? h.grafted.found
  constructor
  · rintro ⟨hset, n, hn, hid⟩
    have hiset := (IdSupply.exchanged?_of_isSet_exchangeOf hset).1
    by_cases hi : i = target
    · subst hi
      obtain rfl := h.distinct.position_eq hd hn hdset (hdid.symm.trans hid.symm)
      exact ⟨⟨hiset, x, hx, hxid⟩, fun _ => rfl⟩
    · obtain ⟨houtside, m, hm, hmid⟩ := h.exists_host_at hn hle hi hid.symm
      exact ⟨⟨hiset, m, hm, hmid⟩, fun hbelow => absurd hbelow houtside⟩
  · rintro ⟨⟨hset, m, hm, rfl⟩, hout⟩
    by_cases hbelow : p <+: q
    · obtain rfl := hout hbelow
      obtain rfl := Option.some.inj (hm.symm.trans hx)
      rw [hxid, hdid]
      exact ⟨hdset, d, hd, rfl⟩
    · obtain ⟨n, hn, hnset, hid⟩ := h.exists_at_of_moves (o := .host) ⟨rfl, hbelow⟩ hm hset
      change t.exchangeOf m.id = n.id at hid
      exact ⟨hid ▸ hnset, n, hn, hid.symm⟩

/-- An id of the donor stands below the target. -/
lemma stands_carry (h : DistinctGraft seed host donor stable target p w s t)
    (hle : i.toNat ≤ donor.maxId.toNat) :
    w.Stands (Origin.donor.carry s t i) q ↔ ∃ r, q = p ++ r ∧ donor.Stands i r := by
  constructor
  · rintro ⟨hset, n, hn, hid⟩
    obtain ⟨r, m, hmoves, hm, hmid⟩ :=
      h.exists_moves_of_carry (o := .donor) hn hle Origin.noConfusion hid.symm
    exact ⟨r, hmoves, Origin.isSet_of_carry hset, m, hm, hmid⟩
  · rintro ⟨r, rfl, hset, m, hm, rfl⟩
    obtain ⟨n, hn, hnset, hid⟩ := h.exists_at_of_moves (o := .donor) rfl hm hset
    exact ⟨hid ▸ hnset, n, hn, hid.symm⟩

end DistinctGraft

/-! ### Shadows in two grafts -/

/-- A graft at `p` and then one at `p'`, neither of which is below the other. -/
structure TwoGrafts (host first second mid final : Workspace) (p p' : Position) where
  {seed seed' target target' : NodeId}
  {stable stable' : Workspace}
  {s t s' t' : IdSupply}
  one : DistinctGraft seed host first stable target p mid s t
  two : DistinctGraft seed' mid second stable' target' p' final s' t'
  apart : ¬ p <+: p'
  apart' : ¬ p' <+: p

namespace TwoGrafts

variable {host first second mid final : Workspace} {p p' r : Position} {e : NodeId × Expr}

/-- An id of the host stands at `q`, which is not below one of the two positions. -/
def Lives (host : Workspace) (p p' : Position) (i : NodeId) (q : Position) : Prop :=
  host.Stands i q ∧ (p <+: q → q = p) ∧ (p' <+: q → q = p')

lemma lives_comm : Lives host p p' = Lives host p' p := by
  funext i q
  exact propext (and_congr_right fun _ => and_comm)

/-- No position is below both. -/
lemma not_below (g : TwoGrafts host first second mid final p p') (h : p <+: q) : ¬ p' <+: q := by
  intro h'
  rcases List.prefix_or_prefix_of_prefix h h' with hp | hp
  · exact g.apart hp
  · exact g.apart' hp

lemma lives_iff (g : TwoGrafts host first second mid final p p') (hle : i.toNat ≤ host.maxId.toNat)
    (hle' : (g.t.exchangeOf i).toNat ≤ mid.maxId.toNat) (q : Position) :
    Lives host p p' i q ↔ final.Stands (g.t'.exchangeOf (g.t.exchangeOf i)) q := by
  rw [g.two.stands_exchangeOf hle', g.one.stands_exchangeOf hle, and_assoc]
  rfl

/-- What is strictly below the second position is the same in the middle, and then gone. -/
lemma tracks_below (g : TwoGrafts host first second mid final p p') {m n : Expr} (hq : p' <+: q)
    (hne : q ≠ p') (hm : host.root.at? q = some m) (hn : mid.root.at? q = some n) :
    Tracks (Lives host p p') final g.t'.exchangeOf mid.maxId.toNat m n := by
  refine Alike.of_invariant (fun m n => ∃ q, p' <+: q ∧ q ≠ p' ∧ host.root.at? q = some m ∧
    mid.root.at? q = some n) ?_ ⟨q, hq, hne, hm, hn⟩
  rintro m n ⟨q, hq, hne, hm, hn⟩
  refine .inr ⟨fun hle q' => iff_of_false ?_ ?_, ?_, ?_⟩
  · rintro ⟨hstands, -, hout⟩
    obtain rfl := hstands.unique g.one.host_distinct ⟨hstands.1, m, hm, rfl⟩
    exact hne (hout hq)
  · intro hstands
    obtain ⟨hstands, hout⟩ := (g.two.stands_exchangeOf hle).1 hstands
    obtain rfl := hstands.unique g.one.distinct ⟨hstands.1, n, hn, rfl⟩
    exact hne (hout hq)
  · exact g.one.outline_at (o := .host) ⟨rfl, fun hp => g.not_below hp hq⟩ hm hn
  · intro i c c' hc hc'
    refine ⟨q ++ [i], hq.trans (List.prefix_append q [i]), ?_, ?_, ?_⟩
    · rintro rfl
      have hlength := hq.length_le
      rw [List.length_append, List.length_singleton] at hlength
      omega
    · exact at?_below hm (at?_cons_eq_some.2 ⟨c, hc, at?_nil c⟩)
    · exact at?_below hn (at?_cons_eq_some.2 ⟨c', hc', at?_nil c'⟩)

/-- A shadow of the host is tracked by what the first graft makes of it. -/
theorem tracks_host (g : TwoGrafts host first second mid final p p') (hagrees : host.Agrees)
    (he : e ∈ host.source.macroCalls.entries) :
    Tracks (Lives host p p') final g.t'.exchangeOf mid.maxId.toNat e.2
      (collapse (refresh mid.root.nodesById (e.2.mapIds g.t.exchangeOf))) := by
  refine Tracks.collapse (alike_refresh ?_)
  intro x hx
  have hle := (toNat_le_maxId_of_entry he).2 x.id (id_mem_slots hx)
  cases hnamed : named? mid.root (g.t.exchangeOf x.id) with
  | none => exact .inl ⟨rfl, fun hle' q => g.lives_iff hle hle' q⟩
  | some n =>
    refine .inr ⟨n, rfl, ?_⟩
    obtain ⟨q, hn, hstands⟩ := stands_of_named? hnamed
    have hid := (mem_of_named? hnamed).2
    by_cases hlive : ∃ q, Lives host p p' x.id q
    · refine .hole ⟨fun hle' q => ?_, hlive⟩
      rw [hid] at hle' ⊢
      exact g.lives_iff hle hle' q
    · -- the part was below the second position, and so is what it shows
      obtain ⟨hhost, hout⟩ := (g.one.stands_exchangeOf hle).1 hstands
      have hbelow : p' <+: q ∧ q ≠ p' := by
        by_contra hnot
        refine hlive ⟨q, hhost, hout, fun hq => ?_⟩
        by_contra hne
        exact hnot ⟨hq, hne⟩
      obtain ⟨hset, m, hm, hmid⟩ := hhost
      have hcollapse := hagrees e he x hx m (mem_preorder_iff.2 ⟨q, hm⟩) hset hmid.symm
      refine (alike_of_collapse_eq hcollapse).eq_trans (g.tracks_below hbelow.1 hbelow.2 hm hn) ?_
      rintro a b c halike here
      rw [halike.id_rel]
      exact here

/-- A shadow of the first donor is tracked by what the first graft makes of it. -/
theorem tracks_first (g : TwoGrafts host first second mid final p p')
    (he : e ∈ first.source.macroCalls.entries) :
    Tracks (fun i q => ∃ r, q = p ++ r ∧ first.Stands i r) final g.t'.exchangeOf mid.maxId.toNat e.2
      (collapse (refresh mid.root.nodesById (e.2.mapIds (Origin.donor.carry g.s g.t)))) := by
  have hlives {i : NodeId} (hle : i.toNat ≤ first.maxId.toNat)
      (hle' : (Origin.donor.carry g.s g.t i).toNat ≤ mid.maxId.toNat) (q : Position) :
      (∃ r, q = p ++ r ∧ first.Stands i r) ↔
        final.Stands (g.t'.exchangeOf (Origin.donor.carry g.s g.t i)) q := by
    rw [g.two.stands_exchangeOf hle', g.one.stands_carry hle, iff_self_and]
    rintro ⟨r, rfl, -⟩ hbelow
    exact absurd hbelow (g.not_below (List.prefix_append p r))
  refine Tracks.collapse (alike_refresh ?_)
  intro x hx
  have hle := (toNat_le_maxId_of_entry he).2 x.id (id_mem_slots hx)
  cases hnamed : named? mid.root (Origin.donor.carry g.s g.t x.id) with
  | none => exact .inl ⟨rfl, fun hle' q => hlives hle hle' q⟩
  | some n =>
    obtain ⟨q, -, hstands⟩ := stands_of_named? hnamed
    refine .inr ⟨n, rfl, .hole ⟨fun hle' q => ?_, q, (g.one.stands_carry hle).1 hstands⟩⟩
    rw [(mem_of_named? hnamed).2] at hle' ⊢
    exact hlives hle hle' q

/-- A shadow of the second donor tracks itself. -/
lemma tracks_second (g : TwoGrafts host first second mid final p p') (shadow : Expr) :
    Tracks (fun i q => ∃ r, q = p' ++ r ∧ second.Stands i r) final (Origin.donor.carry g.s' g.t')
      second.maxId.toNat shadow shadow :=
  Alike.refl_of_mem fun _ _ hle _ => (g.two.stands_carry hle).symm

end TwoGrafts

end Workspace

end CelEdit
