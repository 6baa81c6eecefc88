import CelEdit.Expr.Cached
import CelEdit.Proofs.Positions
import Mathlib.Logic.Relation

/-!
# Cached digests

Trees are built, copied, hashed, compared and edited at any depth, in any order. Whatever was done, a
digest that a node holds is the digest of what the node now is. A change drops the digests on the
way to its place, so the invariant speaks of one node and the nodes below it, and each operation is
looked at by itself.
-/

namespace CelEdit

/-- The digest of a tree, computed from the leaves up. -/
def Expr.digest : Expr → UInt64 :=
  fold fun id k => Kind.nodeDigest id (k.mapChildren Prod.snd)

lemma Expr.digest_mk (id : NodeId) (k : Kind Expr) :
    digest ⟨id, k⟩ = Kind.nodeDigest id (k.mapChildren digest) := by
  conv_lhs => unfold digest
  rw [fold_eq, snd_paired]
  rfl

lemma acceptAll_iff {α β : Type} {f : β → α → Bool} {bs : List β} {as : List α} :
    acceptAll (bs.map f) as = true ↔ List.Forall₂ (fun b a => f b a = true) bs as := by
  induction bs generalizing as with
  | nil => cases as <;> simp [acceptAll]
  | cons b bs ih => cases as <;> simp [acceptAll, ih]

namespace CachedExpr

open Runs

/-! ### Equations -/

variable {id : NodeId} {k : Kind CachedExpr} {d : Option UInt64} {e x y : CachedExpr}

/-- A node and all nodes below it, in pre-order. -/
abbrev nodes (e : CachedExpr) : List CachedExpr := e.preorder

@[simp] lemma digest?_mk : digest? ⟨⟨id, d⟩, k⟩ = d := rfl

lemma toExpr_mk : toExpr ⟨⟨id, d⟩, k⟩ = ⟨id, k.mapChildren toExpr⟩ := Expr.relabel_mk ..

lemma ofExpr_mk (id : NodeId) (k : Kind Expr) :
    ofExpr ⟨id, k⟩ = ⟨⟨id, none⟩, k.mapChildren ofExpr⟩ :=
  Expr.relabel_mk ..

lemma evaluate_some (v : UInt64) : evaluate ⟨⟨id, some v⟩, k⟩ = (v, ⟨⟨id, some v⟩, k⟩) := by
  conv_lhs => unfold evaluate
  rw [Expr.fold_eq]
  simp only [Expr.fst_paired]

lemma evaluate_none :
    evaluate ⟨⟨id, none⟩, k⟩ = (Kind.nodeDigest id (k.mapChildren digest),
      ⟨⟨id, some (Kind.nodeDigest id (k.mapChildren digest))⟩, k.mapChildren fill⟩) := by
  have hfst : (k.mapChildren evaluate).mapChildren Prod.fst = k.mapChildren digest :=
    Kind.mapChildren_mapChildren ..
  have hsnd : (k.mapChildren evaluate).mapChildren Prod.snd = k.mapChildren fill :=
    Kind.mapChildren_mapChildren ..
  rw [← hfst, ← hsnd]
  conv_lhs => unfold evaluate
  rw [Expr.fold_eq, Expr.snd_paired]
  rfl

lemma digest_mk_none :
    digest ⟨⟨id, none⟩, k⟩ = Kind.nodeDigest id (k.mapChildren digest) :=
  congrArg Prod.fst evaluate_none

lemma same_mk (other : CachedExpr) :
    same ⟨⟨id, d⟩, k⟩ other = (decide (id = other.id) && decide (k.tag = other.kind.tag)
      && !differ d other.digest? && decide (k.shape = other.kind.shape)
      && acceptAll (k.children.map same) other.kind.children) := by
  conv_lhs => unfold same
  rw [Expr.fold_eq]
  simp only [Kind.tag_mapChildren, Kind.shape_mapChildren, Kind.children_mapChildren, List.map_map]
  rfl

/-! ### Digests at hand -/

/-- If the node knows its digest, it is the one of the tree, and the children know theirs. -/
structure Current (e : CachedExpr) : Prop where
  digest_eq : ∀ v, e.digest? = some v → v = e.toExpr.digest
  children : e.digest?.isSome → ∀ c : CachedExpr, c ∈ e.kind.children → c.digest?.isSome

/-- Every digest in the tree is up to date. -/
def AllCurrent (e : CachedExpr) : Prop := ∀ x ∈ e.nodes, x.Current

/-- Every node of the tree knows its digest. -/
def Filled (e : CachedExpr) : Prop := ∀ x ∈ e.nodes, x.digest? = some x.toExpr.digest

lemma AllCurrent.of_mem (h : e.AllCurrent) (hx : x ∈ e.nodes) : x.AllCurrent :=
  fun _ hy => h _ (Expr.mem_preorder_trans hy hx)

lemma AllCurrent.child (h : AllCurrent ⟨⟨id, d⟩, k⟩) {c : CachedExpr} (hc : c ∈ k.children) :
    c.AllCurrent :=
  h.of_mem (Expr.mem_preorder_of_mem_children hc)

lemma AllCurrent.mk (hnode : Current ⟨⟨id, d⟩, k⟩) (hchildren : ∀ c ∈ k.children, AllCurrent c) :
    AllCurrent ⟨⟨id, d⟩, k⟩ :=
  Expr.forall_mem_preorder_mk.2 ⟨hnode, hchildren⟩

/-- A node without a digest asks nothing but of its children. -/
lemma AllCurrent.of_children (h : ∀ c ∈ k.children, AllCurrent c) : AllCurrent ⟨⟨id, none⟩, k⟩ :=
  .mk ⟨fun _ hv => (Option.some_ne_none _ hv.symm).elim, fun h => absurd h Bool.false_ne_true⟩ h

lemma Filled.mk (hnode : d = some (toExpr ⟨⟨id, d⟩, k⟩).digest) (h : ∀ c ∈ k.children, Filled c) :
    Filled ⟨⟨id, d⟩, k⟩ :=
  Expr.forall_mem_preorder_mk.2 ⟨hnode, h⟩

lemma Filled.allCurrent (h : e.Filled) : e.AllCurrent := by
  intro x hx
  constructor
  · intro v hv
    rw [h x hx] at hv
    exact (Option.some.inj hv).symm
  · intro _ c hc
    rw [h c (Expr.mem_preorder_trans (Expr.mem_preorder_of_mem_children hc) hx)]
    rfl

lemma AllCurrent.filled (h : e.AllCurrent) (hknown : e.digest?.isSome) : e.Filled := by
  induction e using Expr.induct with
  | node stamp k ih =>
    obtain ⟨id, d⟩ := stamp
    have hnode := h _ (Expr.self_mem_preorder _)
    obtain ⟨v, hv⟩ := Option.isSome_iff_exists.1 hknown
    refine .mk ?_ (fun c hc => ih c hc (h.child hc) (hnode.children hknown c hc))
    exact hv.trans (congrArg some (hnode.digest_eq v hv))

/-- Computing a digest gives that of the tree, leaves the tree as it is and tells every node its
digest. -/
theorem evaluate_spec (h : e.AllCurrent) :
    e.digest = e.toExpr.digest ∧ e.fill.toExpr = e.toExpr ∧ e.fill.Filled := by
  induction e using Expr.induct with
  | node stamp k ih =>
    obtain ⟨id, d⟩ := stamp
    cases d with
    | some v =>
      have hfilled := h.filled rfl
      rw [digest, fill, evaluate_some]
      exact ⟨(h _ (Expr.self_mem_preorder _)).digest_eq v rfl, rfl, hfilled⟩
    | none =>
      have hdigest : Kind.nodeDigest id (k.mapChildren digest) = (toExpr ⟨⟨id, none⟩, k⟩).digest := by
        rw [toExpr_mk, Expr.digest_mk, Kind.mapChildren_mapChildren]
        exact congrArg _ (Kind.mapChildren_congr (fun c hc => (ih c hc (h.child hc)).1))
      have htree : toExpr ⟨⟨id, some (Kind.nodeDigest id (k.mapChildren digest))⟩, k.mapChildren fill⟩ =
          toExpr ⟨⟨id, none⟩, k⟩ := by
        rw [toExpr_mk, toExpr_mk, Kind.mapChildren_mapChildren]
        exact congrArg _ (Kind.mapChildren_congr (fun c hc => (ih c hc (h.child hc)).2.1))
      rw [digest_mk_none, fill, evaluate_none]
      refine ⟨hdigest, htree, .mk ?_ ?_⟩
      · rw [htree, hdigest]
      · intro c' hc'
        rw [Kind.children_mapChildren, List.mem_map] at hc'
        obtain ⟨c, hc, rfl⟩ := hc'
        exact (ih c hc (h.child hc)).2.2

/-- Comparison of trees whose digests are up to date is equality of the trees. -/
theorem same_iff_toExpr_eq {a b : CachedExpr} (ha : a.AllCurrent) (hb : b.AllCurrent) :
    a.same b = true ↔ a.toExpr = b.toExpr := by
  induction a using Expr.induct generalizing b with
  | node stamp k ih =>
    obtain ⟨id, d⟩ := stamp
    obtain ⟨⟨id', d'⟩, k'⟩ := b
    have hchildren : acceptAll (k.children.map same) k'.children = true ↔
        k.children.map toExpr = k'.children.map toExpr := by
      rw [acceptAll_iff, ← List.forall₂_eq_eq_eq, List.forall₂_map_left_iff,
        List.forall₂_map_right_iff, List.forall₂_iff_zip, List.forall₂_iff_zip]
      refine and_congr_right fun _ => ?_
      constructor
      · intro h c c' hmem
        obtain ⟨hc, hc'⟩ := List.of_mem_zip hmem
        exact (ih c hc (ha.child hc) (hb.child hc')).1 (h hmem)
      · intro h c c' hmem
        obtain ⟨hc, hc'⟩ := List.of_mem_zip hmem
        exact (ih c hc (ha.child hc) (hb.child hc')).2 (h hmem)
    simp only [same_mk, Bool.and_eq_true, decide_eq_true_eq, hchildren]
    constructor
    · rintro ⟨⟨⟨⟨rfl, -⟩, -⟩, hshape⟩, hmap⟩
      rw [toExpr_mk, toExpr_mk, Expr.mk.injEq]
      refine ⟨rfl, Kind.eq_of_shape_of_children ?_ ?_⟩
      · rwa [Kind.shape_mapChildren, Kind.shape_mapChildren]
      · rwa [Kind.children_mapChildren, Kind.children_mapChildren]
    · intro h
      -- equal trees have equal digests, so that those at hand cannot differ
      have hdiffer : differ d d' = false := by
        cases d with
        | none => rfl
        | some v =>
          cases d' with
          | none => rfl
          | some v' =>
            have hv := (ha _ (Expr.self_mem_preorder _)).digest_eq v rfl
            have hv' := (hb _ (Expr.self_mem_preorder _)).digest_eq v' rfl
            rw [differ, hv, hv', h, bne_self_eq_false]
      rw [toExpr_mk, toExpr_mk, Expr.mk.injEq] at h
      have hshape := congrArg Kind.shape h.2
      rw [Kind.shape_mapChildren, Kind.shape_mapChildren] at hshape
      have hmap := congrArg Kind.children h.2
      rw [Kind.children_mapChildren, Kind.children_mapChildren] at hmap
      have htag := Kind.tag_eq_of_outline_eq (Kind.outline_eq_of_shape_eq hshape)
      exact ⟨⟨⟨⟨h.1, htag⟩, by rw [digest?_mk, hdiffer]; rfl⟩, hshape⟩, hmap⟩

/-! ### Edits -/

/-- The tree after the digest of the node at a position has been computed. The nodes above are only
passed. -/
def fillAt : Position → CachedExpr → CachedExpr
  | [], e => e.fill
  | i :: p, e => ⟨Expr.id e, e.kind.withChildren (e.kind.children.modify i (fillAt p))⟩

/-- What is done to a node in place. -/
inductive Edit where
  | setId (id : NodeId)
  | setKind (k : Kind CachedExpr)
  | update (f : Kind CachedExpr → Except AccessError (Kind CachedExpr))
  | assign (e : CachedExpr)
  | hash (p : Position)
  | child (i : Nat) (edit : Edit)
  | find (target : NodeId) (edit : Edit)
  | andThen (first second : Edit)

/-- The node after an edit, and whether it was refused. An edit of a node that is not there has
nothing to do, but drops the digests on the way. -/
def Edit.run : Edit → CachedExpr → Edited
  | .setId id, e => (e.withId id, .ok ())
  | .setKind k, e => (e.withKind k, .ok ())
  | .update f, e => e.updateKind f
  | .assign new, _ => (new, .ok ())
  | .hash p, e => (e.fillAt p, .ok ())
  | .child i edit, e =>
    (e.withKind (e.kind.withChildren (e.kind.children.modify i (fun c => (edit.run c).1))), .ok ())
  | .find target edit, e =>
    let found := e.editFirst target edit.run
    (found.1, found.2.getD (.ok ()))
  | .andThen first second, e => second.run (first.run e).1

/-- The node is one of those of the trees. -/
def Within (trees : List CachedExpr) (x : CachedExpr) : Prop := ∃ e ∈ trees, x ∈ e.nodes

/-- A node that is put together from nodes at hand. A new node does not know its digest. -/
inductive Assembled (atHand : CachedExpr → Prop) : CachedExpr → Prop
  | copy (x : CachedExpr) (h : atHand x) : Assembled atHand x
  | construct (id : NodeId) (k : Kind CachedExpr) (h : ∀ c ∈ k.children, Assembled atHand c) :
      Assembled atHand ⟨⟨id, none⟩, k⟩

/-- What an edit brings in is put together from nodes of the trees and from those below the node that
it changes. -/
def Edit.From (trees : List CachedExpr) : Edit → Prop
  | .setKind k => ∀ c ∈ k.children, Assembled (Within trees) c
  | .update f =>
    ∀ k k', f k = .ok k' →
      ∀ c ∈ k'.children, Assembled (fun x => Within trees x ∨ Within k.children x) c
  | .assign e => Assembled (Within trees) e
  | .child _ edit => edit.From trees
  | .find _ edit => edit.From trees
  | .andThen first second => first.From trees ∧ second.From trees
  | _ => True

/-- One operation on the trees at hand: a tree is read, copied or constructed, or one is edited. -/
inductive Step : List CachedExpr → List CachedExpr → Prop
  | read (trees : List CachedExpr) (e : Expr) : Step trees (ofExpr e :: trees)
  | assemble (trees : List CachedExpr) (e : CachedExpr) (h : Assembled (Within trees) e) :
      Step trees (e :: trees)
  | edit (trees : List CachedExpr) (i : Nat) (edit : Edit) (h : edit.From trees) :
      Step trees (trees.modify i (fun e => (edit.run e).1))

lemma children_withChildren_modify (f : CachedExpr → CachedExpr) (k : Kind CachedExpr) (i : Nat) :
    (k.withChildren (k.children.modify i f)).children = k.children.modify i f :=
  Kind.children_withChildren (List.length_modify ..)

/-- A digest that is computed inside a tree changes nothing else. -/
lemma fillAt_spec (p : Position) (h : e.AllCurrent) :
    (e.fillAt p).AllCurrent ∧ (e.fillAt p).toExpr = e.toExpr ∧
      (e.digest?.isSome → (e.fillAt p).digest?.isSome) := by
  induction p generalizing e with
  | nil =>
    obtain ⟨-, htree, hfilled⟩ := evaluate_spec h
    refine ⟨hfilled.allCurrent, htree, fun _ => ?_⟩
    rw [fillAt, hfilled _ (Expr.self_mem_preorder _)]
    rfl
  | cons i p ih =>
    obtain ⟨⟨id, d⟩, k⟩ := e
    have hnode := h _ (Expr.self_mem_preorder _)
    have htree : toExpr (fillAt (i :: p) ⟨⟨id, d⟩, k⟩) = toExpr ⟨⟨id, d⟩, k⟩ := by
      rw [fillAt, toExpr_mk, toExpr_mk]
      congr 1
      apply Kind.eq_of_shape_of_children
      · rw [Kind.shape_mapChildren, Kind.shape_withChildren, Kind.shape_mapChildren]
      · rw [Kind.children_mapChildren, children_withChildren_modify, Kind.children_mapChildren]
        exact map_modify_of_forall (fun c hc => (ih (h.child hc)).2.1) i
    refine ⟨.mk ⟨fun v hv => ?_, fun hknown => ?_⟩ ?_, htree, fun hknown => hknown⟩
    · exact (hnode.digest_eq v hv).trans (congrArg Expr.digest htree.symm)
    · rw [children_withChildren_modify]
      have hchildren := hnode.children hknown
      exact forall_mem_modify hchildren (fun c hc => (ih (h.child hc)).2.2 (hchildren c hc)) i
    · rw [children_withChildren_modify]
      exact forall_mem_modify (fun c hc => h.child hc) (fun c hc => (ih (h.child hc)).1) i

lemma allCurrent_visitFirst {target : NodeId} {edit : CachedExpr → Edited}
    (hedit : ∀ {x : CachedExpr}, x.AllCurrent → (edit x).1.AllCurrent) (h : e.AllCurrent)
    (s : Option (Except AccessError Unit)) : (visitFirst target edit e s).1.AllCurrent := by
  induction e using Expr.induct generalizing s with
  | node stamp k ih =>
    obtain ⟨id, d⟩ := stamp
    unfold visitFirst
    rw [Expr.fold_eq, Expr.fst_paired]
    cases s with
    | some outcome => exact h
    | none =>
      by_cases hid : id = target
      · simp only [if_pos hid]
        exact hedit h
      · simp only [if_neg hid]
        apply AllCurrent.of_children
        intro c' hc'
        obtain ⟨-, hthread⟩ :=
          (Kind.ends_traverse Prod.snd (k.mapChildren fun c => (c, visitFirst target edit c)) none
            _ _).1 rfl
        rw [Kind.children_mapChildren, Thread.map_left] at hthread
        obtain ⟨c, hc, u, v, hends⟩ := hthread.exists_of_mem hc'
        have hc'' := ih c hc (h.child hc) u
        rw [show visitFirst target edit c u = (c', v) from hends] at hc''
        exact hc''

lemma AllCurrent.of_within {trees : List CachedExpr} (h : ∀ e ∈ trees, e.AllCurrent)
    (hx : Within trees x) : x.AllCurrent := by
  obtain ⟨e, he, hx⟩ := hx
  exact (h e he).of_mem hx

lemma Assembled.allCurrent {atHand : CachedExpr → Prop} (h : ∀ y, atHand y → y.AllCurrent)
    (hx : Assembled atHand x) : x.AllCurrent := by
  induction hx with
  | copy x hx => exact h x hx
  | construct id k _ ih => exact .of_children ih

/-- An edit keeps the digests up to date if those of what it brings in are. -/
theorem allCurrent_run {trees : List CachedExpr} (htrees : ∀ e ∈ trees, e.AllCurrent) (edit : Edit)
    (hfrom : edit.From trees) (h : e.AllCurrent) : (edit.run e).1.AllCurrent := by
  have hnew : ∀ {x}, Assembled (Within trees) x → x.AllCurrent :=
    Assembled.allCurrent (fun y hy => .of_within htrees hy)
  have hchild : ∀ {e : CachedExpr}, e.AllCurrent → ∀ c ∈ e.kind.children, AllCurrent c :=
    fun h c hc => h.of_mem (Expr.mem_preorder_of_mem_children hc)
  induction edit generalizing e with
  | setId id => exact .of_children (hchild h)
  | setKind k => exact .of_children (fun c hc => hnew (hfrom c hc))
  | update f =>
    rw [Edit.run, updateKind]
    cases hf : f e.kind with
    | error error => exact .of_children (hchild h)
    | ok k =>
      refine .of_children (fun c hc => Assembled.allCurrent ?_ (hfrom e.kind k hf c hc))
      rintro y (hy | hy)
      · exact .of_within htrees hy
      · exact .of_within (hchild h) hy
  | assign new => exact hnew hfrom
  | hash p => exact (fillAt_spec p h).1
  | child i edit ih =>
    apply AllCurrent.of_children
    rw [children_withChildren_modify]
    exact forall_mem_modify (hchild h) (fun c hc => ih hfrom (hchild h c hc)) i
  | find target edit ih => exact allCurrent_visitFirst (fun hx => ih hfrom hx) h none
  | andThen first second ihFirst ihSecond => exact ihSecond hfrom.2 (ihFirst hfrom.1 h)

lemma allCurrent_ofExpr (t : Expr) : (ofExpr t).AllCurrent := by
  induction t using Expr.induct with
  | node id k ih =>
    rw [ofExpr_mk]
    apply AllCurrent.of_children
    intro c' hc'
    rw [Kind.children_mapChildren, List.mem_map] at hc'
    obtain ⟨c, hc, rfl⟩ := hc'
    exact ih c hc

theorem allCurrent_step {trees trees' : List CachedExpr} (h : ∀ e ∈ trees, e.AllCurrent)
    (hstep : Step trees trees') : ∀ e ∈ trees', e.AllCurrent := by
  cases hstep with
  | read t => exact List.forall_mem_cons.2 ⟨allCurrent_ofExpr t, h⟩
  | assemble e he =>
    exact List.forall_mem_cons.2 ⟨he.allCurrent (fun y hy => .of_within h hy), h⟩
  | edit i edit hfrom =>
    exact forall_mem_modify h (fun e he => allCurrent_run h edit hfrom (h e he)) i

/-- Every digest is up to date in all trees that were made from nothing. -/
theorem allCurrent_of_reachable {trees : List CachedExpr} (h : Relation.ReflTransGen Step [] trees) :
    ∀ e ∈ trees, e.AllCurrent := by
  induction h with
  | refl => exact fun e he => nomatch he
  | tail _ hstep ih => exact allCurrent_step ih hstep

/-- After any sequence of operations, a digest at a node is that of the node as it is. So comparison
is equality of the trees, in which a double counts by its bits, whichever digests are at hand; and
computing a digest gives that of the tree and leaves it at every node. -/
theorem digests_never_stale {trees : List CachedExpr} (h : Relation.ReflTransGen Step [] trees) :
    (∀ x, Within trees x → ∀ v, x.digest? = some v → v = x.toExpr.digest) ∧
    (∀ x y, Within trees x → Within trees y → (x.same y = true ↔ x.toExpr = y.toExpr)) ∧
    (∀ x y, Within trees x → Within trees y → x.toExpr = y.toExpr → x.digest = y.digest) ∧
    ∀ x, Within trees x → x.digest = x.toExpr.digest ∧ x.fill.toExpr = x.toExpr ∧
      ∀ y ∈ x.fill.nodes, y.digest? = some y.toExpr.digest := by
  have hwithin : ∀ {x}, Within trees x → x.AllCurrent :=
    AllCurrent.of_within (allCurrent_of_reachable h)
  refine ⟨fun x hx => ?_, fun x y hx hy => ?_, fun x y hx hy heq => ?_, fun x hx => ?_⟩
  · exact (hwithin hx x (Expr.self_mem_preorder x)).digest_eq
  · exact same_iff_toExpr_eq (hwithin hx) (hwithin hy)
  · rw [(evaluate_spec (hwithin hx)).1, (evaluate_spec (hwithin hy)).1, heq]
  · exact evaluate_spec (hwithin hx)

/-- A tree is hashed and copied, the copy is renamed below the root, copied again and renamed back,
and its leaf is hashed. -/
theorem digests_never_stale_renamed :
    let tree : Expr := ⟨⟨1⟩, .call ⟨none, "f", [⟨⟨2⟩, .ident ⟨"x"⟩⟩]⟩⟩
    let hashed := fillAt [] (ofExpr tree)
    let rename (name : String) : Edit := .find ⟨2⟩ (.update (Kind.updateIdent fun _ => ⟨name⟩))
    let renamed := ((rename "y").run hashed).1
    let restored := ((Edit.andThen (rename "x") (.hash [0])).run renamed).1
    Relation.ReflTransGen Step [] [restored, renamed, hashed] ∧
      hashed.digest?.isSome ∧ restored.digest? = none ∧ hashed.same renamed = false ∧
      hashed.same restored = true ∧ restored.digest = hashed.digest := by
  intro tree hashed rename renamed restored
  have hrename : ∀ name trees, (rename name).From trees := by
    intro name trees k k' hk c hc
    cases k with
    | ident i =>
      cases hk
      cases hc
    | _ => cases hk
  have hreach : Relation.ReflTransGen Step [] [restored, renamed, hashed] := by
    have hcopy : ∀ e es, Step (e :: es) (e :: e :: es) := fun e es =>
      .assemble _ e (.copy e ⟨e, List.mem_cons_self, Expr.self_mem_preorder e⟩)
    have hhash : Relation.ReflTransGen Step [] [hashed] :=
      .tail (.single (.read [] tree)) (.edit _ 0 (.hash []) trivial)
    have hfirst := (hhash.tail (hcopy hashed [])).tail (.edit _ 0 (rename "y") (hrename _ _))
    exact (hfirst.tail (hcopy renamed [hashed])).tail
      (.edit _ 0 (.andThen (rename "x") (.hash [0])) ⟨hrename _ _, trivial⟩)
  obtain ⟨-, hsame, hdigest, -⟩ := digests_never_stale hreach
  have hwithin : ∀ e ∈ [restored, renamed, hashed], Within [restored, renamed, hashed] e :=
    fun e he => ⟨e, he, Expr.self_mem_preorder e⟩
  have hrestored := hwithin restored (by simp)
  have hrenamed := hwithin renamed (by simp)
  have hhashed := hwithin hashed (by simp)
  refine ⟨hreach, rfl, rfl, ?_, (hsame _ _ hhashed hrestored).2 rfl, hdigest _ _ hrestored hhashed rfl⟩
  rw [← Bool.not_eq_true, hsame _ _ hhashed hrenamed]
  decide

end CachedExpr

end CelEdit
