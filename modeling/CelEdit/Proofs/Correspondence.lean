import CelEdit.Proofs.Renderings
import CelEdit.Proofs.Tables

/-!
# Corresponding macro calls

The macro calls of two workspaces are compared by the positions of the nodes that they stand for, so
that nothing depends on the ids. If calls at corresponding positions are alike, the workspaces are
written alike.
-/

namespace CelEdit

open CelEdit.Expr Unparse

namespace Workspace

variable {w v : Workspace} {q r : Position} {i j : NodeId} {n n' call : Expr}

/-- The macro call that is written for the node at a position. -/
def callAt? (w : Workspace) (q : Position) : Option Expr :=
  (w.root.at? q).bind fun n => macroCall? w.source.macroCalls [] n.id

/-- The position of the node that a key stands for. -/
def keyPosition? (w : Workspace) (i : NodeId) : Option Position :=
  if (macroCall? w.source.macroCalls [] i).isSome then w.root.firstAt? i else none

/-- The ids are distinct and every key is the id of a node. -/
structure Keyed (w : Workspace) : Prop where
  distinct : w.root.DistinctIds
  node : ∀ key ∈ w.source.macroCalls.keys, ∃ n ∈ w.root.preorder, n.id = key

lemma macroCall?_nil_eq_some {calls : IdMap Expr} :
    macroCall? calls [] i = some call ↔ i.isSet ∧ (i, call) ∈ calls.entries := by
  rw [macroCall?, Option.ite_none_right_eq_some, IdMap.get?_eq_some_iff]
  simp

lemma macroCall?_eq (calls : IdMap Expr) (E : List NodeId) (i : NodeId) :
    macroCall? calls E i = if i ∈ E then none else macroCall? calls [] i := by
  by_cases hi : i ∈ E
  · simp [macroCall?, hi]
  · simp [macroCall?, hi]

lemma callAt?_of_at (hn : w.root.at? q = some n) :
    w.callAt? q = macroCall? w.source.macroCalls [] n.id := by
  rw [callAt?, hn, Option.bind_some]

lemma exists_of_callAt? (h : w.callAt? q = some call) :
    ∃ n, w.root.at? q = some n ∧ n.id.isSet ∧ (n.id, call) ∈ w.source.macroCalls.entries := by
  obtain ⟨n, hn, hcall⟩ := Option.bind_eq_some_iff.1 h
  exact ⟨n, hn, macroCall?_nil_eq_some.1 hcall⟩

lemma firstAt?_ne_none {e : Expr} (hn : e.at? q = some n) : e.firstAt? n.id ≠ none := by
  intro hnone
  induction q generalizing e with
  | nil =>
    obtain ⟨id, k⟩ := e
    obtain rfl := Option.some.inj hn
    exact (firstAt?_eq_none_mk.1 hnone).1 rfl
  | cons i q ih =>
    obtain ⟨c, hc, hq⟩ := at?_cons_eq_some.1 hn
    obtain ⟨id, k⟩ := e
    exact ih hq ((firstAt?_eq_none_mk.1 hnone).2 c (List.mem_of_getElem? hc))

lemma firstAt?_at {e : Expr} (he : e.DistinctIds) (hn : e.at? q = some n) (hset : n.id.isSet) :
    e.firstAt? n.id = some q := by
  cases hfirst : e.firstAt? n.id with
  | none => exact absurd hfirst (firstAt?_ne_none hn)
  | some q' =>
    obtain ⟨n', hn', hid⟩ := exists_of_firstAt? hfirst
    rw [he.position_eq hn hn' hset hid.symm]

lemma keyPosition?_at (hw : w.Keyed) (hn : w.root.at? q = some n)
    (hcall : macroCall? w.source.macroCalls [] n.id = some call) : w.keyPosition? n.id = some q := by
  rw [keyPosition?, hcall, Option.isSome_some, if_pos rfl]
  exact firstAt?_at hw.distinct hn (macroCall?_nil_eq_some.1 hcall).1

lemma exists_of_keyPosition? (h : w.keyPosition? i = some q) :
    ∃ n call, w.root.at? q = some n ∧ n.id = i ∧ w.callAt? q = some call ∧
      macroCall? w.source.macroCalls [] i = some call := by
  rw [keyPosition?, Option.ite_none_right_eq_some, Option.isSome_iff_exists] at h
  obtain ⟨⟨call, hcall⟩, hfirst⟩ := h
  obtain ⟨n, hn, rfl⟩ := exists_of_firstAt? hfirst
  exact ⟨n, call, hn, rfl, by rw [callAt?_of_at hn, hcall], hcall⟩

lemma macroCall?_of_keyPosition?_eq_none (hw : w.Keyed) (h : w.keyPosition? i = none) :
    macroCall? w.source.macroCalls [] i = none := by
  rw [Option.eq_none_iff_forall_ne_some]
  intro call hcall
  obtain ⟨n, hn, rfl⟩ := hw.node i (List.mem_map_of_mem (macroCall?_nil_eq_some.1 hcall).2)
  obtain ⟨q, hq⟩ := mem_preorder_iff.1 hn
  rw [keyPosition?_at hw hq hcall] at h
  cases h

lemma keyPosition?_of_callAt?_eq_none (hn : w.root.at? q = some n) (h : w.callAt? q = none) :
    w.keyPosition? n.id = none := by
  rw [callAt?_of_at hn] at h
  rw [keyPosition?, h]
  rfl

lemma keyPosition?_of_not_named (h : MacroCalls.named? w.root i = none) :
    w.keyPosition? i = none := by
  rw [Option.eq_none_iff_forall_ne_some]
  intro q hq
  obtain ⟨n, call, hn, rfl, -, hcall⟩ := exists_of_keyPosition? hq
  have hset := (macroCall?_nil_eq_some.1 hcall).1
  exact MacroCalls.named?_eq_none_iff.1 h n (mem_preorder_iff.2 ⟨q, hn⟩) hset rfl

lemma unparse_eq_ok {text : String} :
    w.unparse = .ok text ↔ ∃ cs, render w.source.macroCalls [] w.root = .ok cs ∧
      String.ofList cs = text := by
  rw [unparse, Expr.unparse]
  cases render w.source.macroCalls [] w.root with
  | error err => simp [Except.map]
  | ok cs => simp [Except.map]

/-! ### Correspondence -/

variable {M : Position → Position → Prop} {H : Expr → Expr → Prop}

/-- Two ids are keys for corresponding positions, or neither is a key. -/
def SameKey (M : Position → Position → Prop) (w v : Workspace) (i j : NodeId) : Prop :=
  Option.Rel M (w.keyPosition? i) (v.keyPosition? j)

lemma SameKey.symm (h : SameKey M w v i j) : SameKey (fun r q => M q r) v w j i :=
  optionRel_flip h (fun _ _ hM => hM)

lemma sameKey_of_not_named (hi : MacroCalls.named? w.root i = none)
    (hj : MacroCalls.named? v.root j = none) : SameKey M w v i j := by
  rw [SameKey, keyPosition?_of_not_named hi, keyPosition?_of_not_named hj]
  exact .none

/-- Nodes at corresponding positions have ids that correspond, if both or none are written as a macro
call. -/
lemma sameKey_at (hw : w.Keyed) (hv : v.Keyed) (hM : M r q) (hn : w.root.at? r = some n)
    (hn' : v.root.at? q = some n') (hcalls : (w.callAt? r).isSome = (v.callAt? q).isSome) :
    SameKey M w v n.id n'.id := by
  rw [SameKey]
  cases hr : w.callAt? r with
  | none =>
    rw [keyPosition?_of_callAt?_eq_none hn hr,
      keyPosition?_of_callAt?_eq_none hn' (eq_none_of_isSome_eq hcalls hr)]
    exact .none
  | some call =>
    rw [hr, Option.isSome_some, eq_comm, Option.isSome_iff_exists] at hcalls
    obtain ⟨call', hcall'⟩ := hcalls
    rw [callAt?_of_at hn] at hr
    rw [callAt?_of_at hn'] at hcall'
    rw [keyPosition?_at hw hn hr, keyPosition?_at hv hn' hcall']
    exact .some hM

/-- The macro calls at corresponding positions are alike. -/
structure Corresponds (M : Position → Position → Prop) (H : Expr → Expr → Prop) (w v : Workspace) :
    Prop where
  left : w.Keyed
  right : v.Keyed
  unique : ∀ {r q r' q' : Position}, M r q → M r' q' → (r = r' ↔ q = q')
  calls : ∀ {r q : Position}, M r q →
    Option.Rel (Alike (SameKey M w v) H) (w.callAt? r) (v.callAt? q)

namespace Corresponds

/-- The keys being expanded correspond. -/
def Linked (M : Position → Position → Prop) (w v : Workspace) (E E' : List NodeId) : Prop :=
  ∀ i j r q, w.keyPosition? i = some r → v.keyPosition? j = some q → M r q → (i ∈ E ↔ j ∈ E')

lemma linked_nil : Linked M w v [] [] := by
  intro i j _ _ _ _ _
  exact iff_of_false List.not_mem_nil List.not_mem_nil

lemma linked_cons (h : Corresponds M H w v) {E E' : List NodeId} (hE : Linked M w v E E')
    (hi : w.keyPosition? i = some r) (hj : v.keyPosition? j = some q) (hM : M r q) :
    Linked M w v (i :: E) (j :: E') := by
  intro i' j' r' q' hi' hj' hM'
  obtain ⟨n, -, hn, rfl, -⟩ := exists_of_keyPosition? hi
  obtain ⟨m, -, hm, rfl, -⟩ := exists_of_keyPosition? hj
  obtain ⟨n', -, hn', rfl, -⟩ := exists_of_keyPosition? hi'
  obtain ⟨m', -, hm', rfl, -⟩ := exists_of_keyPosition? hj'
  have heq : n'.id = n.id ↔ m'.id = m.id := by
    constructor
    · intro hid
      rw [hid, hi, Option.some.injEq] at hi'
      rw [(h.unique hM hM').1 hi', hm', Option.some.injEq] at hm
      rw [hm]
    · intro hid
      rw [hid, hj, Option.some.injEq] at hj'
      rw [(h.unique hM hM').2 hj', hn', Option.some.injEq] at hn
      rw [hn]
  rw [List.mem_cons, List.mem_cons, heq, hE _ _ r' q' hi' hj' hM']

/-- Corresponding workspaces simulate each other. The holes may rely on what holds of all keys being
expanded. -/
def simulation (same : Prop) (h : Corresponds M H w v) (J : List NodeId → List NodeId → Prop)
    (hJ : ∀ {E E' i j r q}, J E E' → w.keyPosition? i = some r → v.keyPosition? j = some q → M r q →
      J (i :: E) (j :: E'))
    (hhole : ∀ {E E' e e'}, J E E' → H e e' →
      ¬ same ∧ ∃ text, render v.source.macroCalls E' e' = .ok text) :
    Simulation same w.source.macroCalls v.source.macroCalls where
  Related := SameKey M w v
  Hole := H
  Linked E E' := Linked M w v E E' ∧ J E E'
  hole hE hH := hhole hE.2 hH
  step := by
    intro E E' i j hE hij
    rw [macroCall?_eq _ E, macroCall?_eq _ E']
    cases hi : w.keyPosition? i with
    | none =>
      rw [SameKey, hi] at hij
      cases hj : v.keyPosition? j with
      | some q =>
        rw [hj] at hij
        cases hij
      | none =>
        rw [macroCall?_of_keyPosition?_eq_none h.left hi, macroCall?_of_keyPosition?_eq_none h.right hj,
          ite_self, ite_self]
        exact .inl ⟨rfl, rfl⟩
    | some r =>
      rw [SameKey, hi] at hij
      cases hj : v.keyPosition? j with
      | none =>
        rw [hj] at hij
        cases hij
      | some q =>
        rw [hj] at hij
        obtain hM | _ := hij
        obtain ⟨-, call, -, -, hr, hcall⟩ := exists_of_keyPosition? hi
        obtain ⟨-, call', -, -, hq, hcall'⟩ := exists_of_keyPosition? hj
        have halike := h.calls hM
        rw [hr, hq] at halike
        obtain halike | _ := halike
        rw [hcall, hcall']
        have hmem := hE.1 i j r q hi hj hM
        by_cases hiE : i ∈ E
        · rw [if_pos hiE, if_pos (hmem.1 hiE)]
          exact .inl ⟨rfl, rfl⟩
        · rw [if_neg hiE, if_neg (fun hjE => hiE (hmem.2 hjE))]
          exact .inr ⟨call, call', rfl, rfl, halike, h.linked_cons hE.1 hi hj hM, hJ hE.2 hi hj hM⟩

lemma symm (h : Corresponds M H w v) : Corresponds (fun r q => M q r) (fun x y => H y x) v w := by
  refine ⟨h.right, h.left, fun hM hM' => (h.unique hM hM').symm, fun hM => ?_⟩
  refine optionRel_flip (h.calls hM) fun call call' halike => ?_
  exact halike.symm.imp (fun _ _ => SameKey.symm) (fun _ _ here => .hole here)

/-- Corresponding workspaces whose trees are alike have the same text. -/
theorem unparse_of_ok (h : Corresponds M NoHole w v)
    (hroot : Alike (SameKey M w v) NoHole w.root v.root) {text : String}
    (hok : w.unparse = .ok text) : v.unparse = .ok text := by
  let S := h.simulation True (fun _ _ => True) (fun _ _ _ _ => trivial) (fun _ here => here.elim)
  have hfollows := S.follows ⟨linked_nil, trivial⟩ hroot
  obtain ⟨cs, hcs, rfl⟩ := unparse_eq_ok.1 hok
  obtain ⟨cs', hcs', hsame⟩ := hfollows cs hcs
  rw [unparse_eq_ok]
  exact ⟨cs', hcs', by rw [hsame trivial]⟩

end Corresponds

end Workspace

end CelEdit
