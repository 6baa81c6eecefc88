import CelEdit.Proofs.FreshIds
import CelEdit.Proofs.Redrawing
import CelEdit.Proofs.Sessions

/-!
# Texts of calls

A call takes in its arguments one after the other, and each gets ids of its own. So what was taken in
before keeps its macro calls, and what is taken in later does not change how it is written. The call is
written with the texts of its parts, and its id is above all others.
-/

namespace CelEdit

open Runs CelEdit.Expr Unparse

/-- A tree is written alike with two tables that agree on the ids it can reach. -/
lemma Unparse.render_eq_of_closed {calls calls' : IdMap Expr} {K : NodeId → Prop} {e : Expr}
    {text : List Char} (hsame : ∀ i, K i → macroCall? calls [] i = macroCall? calls' [] i)
    (hclosed : ∀ entry ∈ calls.entries, ∀ x ∈ entry.2.preorder, K x.id)
    (he : ∀ x ∈ e.preorder, K x.id) (h : render calls [] e = .ok text) :
    render calls' [] e = .ok text := by
  let S : Simulation True calls calls' := {
    Related := fun i j => i = j ∧ K i
    Hole := NoHole
    Linked := Eq
    step := by
      rintro E _ i _ rfl ⟨rfl, hi⟩
      have hsame' : macroCall? calls' E i = macroCall? calls E i := by
        rw [Workspace.macroCall?_eq, Workspace.macroCall?_eq calls, hsame i hi]
      rw [hsame']
      cases hcall : macroCall? calls E i with
      | none => exact .inl ⟨rfl, rfl⟩
      | some call =>
        rw [Workspace.macroCall?_eq, Option.ite_none_left_eq_some,
          Workspace.macroCall?_nil_eq_some] at hcall
        obtain ⟨-, -, hentry⟩ := hcall
        have halike : Alike (fun i j => i = j ∧ K i) NoHole call call :=
          .refl_of_mem fun x hx => ⟨rfl, hclosed _ hentry x hx⟩
        exact .inr ⟨call, call, rfl, rfl, halike, rfl⟩
    hole := fun _ here => here.elim }
  have halike : Alike S.Related S.Hole e e := .refl_of_mem fun x hx => ⟨rfl, he x hx⟩
  obtain ⟨text', htext', heq⟩ := S.follows rfl halike text h
  rw [htext', heq trivial]

/-- The tree is a call of an operator. -/
def Expr.IsOperatorCall (e : Expr) : Prop :=
  ∃ function args, e.kind = .call ⟨none, function, args⟩ ∧ (Operator.ofFunction? function).isSome

lemma Unparse.looserThan_eq_false {e : Expr} (h : ¬ e.IsOperatorCall) (limit : Nat) :
    looserThan limit e = false := by
  obtain ⟨id, k⟩ := e
  cases k with
  | call c =>
    obtain ⟨target, function, args⟩ := c
    cases target with
    | some target => rfl
    | none =>
      cases hop : Operator.ofFunction? function with
      | none => simp only [looserThan, hop]
      | some op => exact absurd ⟨function, args, rfl, by rw [hop]; rfl⟩ h
  | _ => rfl

namespace Workspace

variable {budget : Nat} {w v : Workspace} {a a' a'' : Assembly} {es : List Expr} {t : IdSupply}

/-! ### What later steps leave alone -/

/-- No id that was taken in is above the largest one. -/
structure Assembly.Bounded (a : Assembly) (es : List Expr) : Prop where
  trees : ∀ i ∈ es.flatMap slots, i.isSet ∧ i.toNat ≤ a.maxId.toNat
  calls : ∀ entry ∈ a.source.macroCalls.entries, entry.1.toNat ≤ a.maxId.toNat ∧
    ∀ i ∈ entry.2.slots, i.toNat ≤ a.maxId.toNat

lemma Assembly.bounded_nil : Assembly.Bounded ⟨.unset, .empty⟩ [] :=
  ⟨fun _ hi => absurd hi List.not_mem_nil, fun _ he => absurd he List.not_mem_nil⟩

lemma Assembly.Bounded.taking (ha : a.Bounded es) (h : Relocated a.maxId w v t) :
    (a.taking v t).Bounded (es ++ [v.root]) := by
  have hle := h.seed_le
  obtain ⟨htree, hcalls⟩ := h.idsBetween
  constructor
  · intro i hi
    change _ ∧ i.toNat ≤ t.maxId.toNat
    rw [List.flatMap_append, List.flatMap_singleton, List.mem_append] at hi
    rcases hi with hi | hi
    · obtain ⟨hset, hbefore⟩ := ha.trees i hi
      exact ⟨hset, Nat.le_trans hbefore hle⟩
    · obtain ⟨hlow, hhigh⟩ := htree i hi
      exact ⟨NodeId.isSet_of_lt hlow, hhigh⟩
  · intro entry he
    change _ ≤ t.maxId.toNat ∧ ∀ i ∈ _, _ ≤ t.maxId.toNat
    rcases IdMap.mem_of_mem_union he with he | he
    · refine ⟨(hcalls entry he).1.2, fun i hi => ?_⟩
      rcases Nat.eq_zero_or_pos i.toNat with hzero | hpos
      · omega
      · exact ((hcalls entry he).2 i hi (NodeId.isSet_of_lt (i := .unset) hpos)).2
    · obtain ⟨hkey, hshadow⟩ := ha.calls entry he
      exact ⟨Nat.le_trans hkey hle, fun i hi => Nat.le_trans (hshadow i hi) hle⟩

lemma Assembly.Bounded.get?_eq_none (ha : a.Bounded es) {i : NodeId}
    (hi : a.maxId.toNat < i.toNat) : a.source.macroCalls.get? i = none := by
  apply IdMap.get?_eq_none
  rintro entry he rfl
  have hkey := (ha.calls entry he).1
  omega

/-- The second assembly has taken in more than the first. -/
structure Assembly.Extends (a a' : Assembly) : Prop where
  maxId_le : a.maxId.toNat ≤ a'.maxId.toNat
  lookup : ∀ i, i.toNat ≤ a.maxId.toNat → a'.source.macroCalls.get? i = a.source.macroCalls.get? i

lemma Assembly.Extends.refl (a : Assembly) : a.Extends a := ⟨Nat.le_refl _, fun _ _ => rfl⟩

lemma Assembly.Extends.trans (h : a.Extends a') (h' : a'.Extends a'') : a.Extends a'' :=
  ⟨Nat.le_trans h.maxId_le h'.maxId_le, fun i hi =>
    (h'.lookup i (Nat.le_trans hi h.maxId_le)).trans (h.lookup i hi)⟩

lemma Assembly.extends_taking (h : Relocated a.maxId w v t) : a.Extends (a.taking v t) := by
  refine ⟨h.seed_le, fun i hi => ?_⟩
  have hnone : v.source.macroCalls.get? i = none := by
    apply IdMap.get?_eq_none
    rintro entry he rfl
    have hkey := (h.idsBetween.2 entry he).1.1
    omega
  change (a.source.macroCalls.union v.source.macroCalls).get? i = _
  rw [IdMap.get?_union, hnone, Option.none_or]

/-! ### Texts that stay -/

/-- The tree is written like this, whatever is taken in later. -/
def Assembly.Writes (a : Assembly) (e : Expr) (text : String) : Prop :=
  ∀ a', a.Extends a' → render a'.source.macroCalls [] e = .ok text.toList

lemma Assembly.Writes.mono {e : Expr} {text : String} (h : a.Writes e text) (ha : a.Extends a') :
    a'.Writes e text := fun a'' ha' => h a'' (ha.trans ha')

/-- A workspace that is taken in brings the only macro calls its ids can reach. -/
lemma Assembly.Bounded.writes_taking {text : String} (ha : a.Bounded es) (hw : w.Consistent)
    (htext : w.unparse = .ok text) (h : Relocated a.maxId w v t) :
    (a.taking v t).Writes v.root text := by
  have hv : v.unparse = .ok text := (h.exchanged hw.distinct).unparse_eq hw htext
  obtain ⟨cs, hcs, rfl⟩ := unparse_eq_ok.1 hv
  obtain ⟨htree, hcalls⟩ := h.idsBetween
  intro a' ha'
  let K : NodeId → Prop := fun i => i.isSet → a.maxId.toNat < i.toNat ∧ i.toNat ≤ t.maxId.toNat
  rw [String.toList_ofList]
  refine render_eq_of_closed (K := K) ?_ ?_ ?_ hcs
  · intro i hi
    by_cases hset : i.isSet
    · obtain ⟨hlow, hhigh⟩ := hi hset
      have hlookup : a'.source.macroCalls.get? i = v.source.macroCalls.get? i := by
        rw [ha'.lookup i hhigh]
        change (a.source.macroCalls.union v.source.macroCalls).get? i = _
        rw [IdMap.get?_union, ha.get?_eq_none hlow, Option.or_none]
      rw [macroCall?, macroCall?, hlookup]
    · rw [macroCall?, macroCall?, if_neg (fun h => hset h.1), if_neg (fun h => hset h.1)]
  · exact fun entry he x hx hset => (hcalls entry he).2 _ (id_mem_slots hx) hset
  · exact fun x hx _ => htree _ (id_mem_slots hx)

/-- All workspaces that are taken in are written as before. -/
theorem Assembly.Bounded.thread {ws : List Workspace} {es' : List Expr} {texts : List String}
    (ha : a.Bounded es) (hws : ∀ w ∈ ws, w.Consistent)
    (htexts : List.Forall₂ (fun w text => w.unparse = .ok text) ws texts)
    (h : Thread (fun w => Ends (takeIn budget w)) ws a es' a') :
    a'.Bounded (es ++ es') ∧ a.Extends a' ∧ List.Forall₂ a'.Writes es' texts := by
  induction h generalizing es texts with
  | nil a =>
    cases htexts
    rw [List.append_nil]
    exact ⟨ha, .refl a, .nil⟩
  | @cons w ws e es' a a₁ a' head tail ih =>
    cases htexts with
    | @cons _ text _ texts htext htexts =>
      obtain ⟨v, t, hrelocated, rfl, rfl⟩ := takeIn_cases head
      obtain ⟨hw, hws⟩ := List.forall_mem_cons.1 hws
      obtain ⟨hbounded, hextends, hwrites⟩ := ih (ha.taking hrelocated) hws htexts
      rw [List.append_assoc, List.singleton_append] at hbounded
      refine ⟨hbounded, (Assembly.extends_taking hrelocated).trans hextends, .cons ?_ hwrites⟩
      exact (ha.writes_taking hw htext hrelocated).mono hextends

/-! ### The id of a call -/

/-- The ids of the tree are set and distinct, and the root has the largest id of the workspace. -/
structure RootOnTop (w : Workspace) : Prop where
  isSet : ∀ i ∈ w.root.slots, i.isSet
  nodup : w.root.slots.Nodup
  below : ∀ i ∈ w.root.slots, i ≠ w.root.id → i < w.root.id
  calls : ∀ entry ∈ w.source.macroCalls.entries, entry.1 < w.root.id ∧
    ∀ i ∈ entry.2.slots, i < w.root.id

theorem rootOnTop_assembleCall {receiver : Option Workspace} {function : String}
    {args : List Workspace} (hargs : ∀ v ∈ args ++ receiver.toList, v.root.DistinctIds)
    (h : assembleCall budget receiver function args = .ok w) : w.RootOnTop := by
  have hdistinct := (wellFormed_assembleCall hargs h).distinct
  obtain ⟨a, es, ha, hsource, hid, hentries, hperm⟩ := assembleCall_invariant Assembly.bounded_nil
    (fun _ _ _ _ _ _ ha hrelocated => ha.taking hrelocated) h
  obtain ⟨⟨id, k⟩, source⟩ := w
  obtain rfl : source = a.source := hsource
  change id.toNat = a.maxId.toNat + 1 at hid
  change k.entryIds = [] at hentries
  change k.children.Perm es at hperm
  have hlt {i : NodeId} (hi : i.toNat ≤ a.maxId.toNat) : i < id := by
    rw [NodeId.lt_def]
    omega
  have hbelow {i : NodeId} (hi : i ∈ k.children.flatMap slots) : i.isSet ∧ i < id := by
    obtain ⟨hset, hle⟩ := ha.trees i ((hperm.flatMap_right slots).mem_iff.1 hi)
    exact ⟨hset, hlt hle⟩
  have hslots : slots ⟨id, k⟩ = id :: k.children.flatMap slots := by
    rw [slots_mk, hentries]
    rfl
  have hisSet : ∀ i ∈ slots ⟨id, k⟩, i.isSet := by
    intro i hi
    rw [hslots, List.mem_cons] at hi
    rcases hi with rfl | hi
    · exact NodeId.isSet_of_lt (i := a.maxId) (by omega)
    · exact (hbelow hi).1
  refine ⟨hisSet, ?_, ?_, ?_⟩
  · rwa [DistinctIds, List.filter_eq_self.2 hisSet] at hdistinct
  · intro i hi hne
    change i ∈ slots ⟨id, k⟩ at hi
    rw [hslots, List.mem_cons] at hi
    exact (hbelow (hi.resolve_left hne)).2
  · intro entry he
    obtain ⟨hkey, hshadow⟩ := ha.calls entry he
    exact ⟨hlt hkey, fun i hi => hlt (hshadow i hi)⟩

/-! ### The text of a call -/

/-- A call in concrete syntax. -/
def writtenCall (function : String) (texts : List String) : String :=
  function ++ "(" ++ ", ".intercalate texts ++ ")"

lemma toList_writtenCall (function : String) (texts : List String) :
    (writtenCall function texts).toList =
      function.toList ++ '(' :: commaSeparated (texts.map String.toList) ++ [')'] := by
  simp [writtenCall, commaSeparated, String.toList_intercalate]

lemma callText_of_writes {texts : List String} (h : List.Forall₂ a.Writes es texts)
    (function : String) :
    callText function (es.map (fun c => (c, fun _ => render a.source.macroCalls [] c))) =
      .ok (writtenCall function texts).toList := by
  have htexts : (es.map (fun c => (c, fun _ => render a.source.macroCalls [] c))).mapM Child.text =
      .ok (texts.map String.toList) := by
    apply mapM_eq_ok.2
    rw [List.forall₂_map_left_iff, List.forall₂_map_right_iff]
    exact h.imp fun e text hwrites => hwrites a (.refl a)
  rw [callText, htexts, toList_writtenCall]
  rfl

/-- The next id is no key, so its node is not written as a macro call. -/
lemma Assembly.Bounded.macroCall?_next (ha : a.Bounded es) {id : NodeId}
    (hid : a.maxId.next? = some id) : macroCall? a.source.macroCalls [] id = none := by
  have hnext := NodeId.toNat_next hid
  have hnone : a.source.macroCalls.get? id = none := ha.get?_eq_none (by omega)
  rw [macroCall?, hnone, ite_self]

section Text

variable {function : String} {args : List Workspace} {texts : List String}
  (hargs : ∀ v ∈ args, v.Consistent)
  (htexts : List.Forall₂ (fun v text => v.unparse = .ok text) args texts)

include hargs htexts

lemma unparse_globalCall (hfunction : Operator.ofFunction? function = none)
    (h : globalCall budget function args = .ok w) : w.unparse = .ok (writtenCall function texts) := by
  obtain ⟨es, receiver, a, a', id, hthread, hreceiver, hid, rfl⟩ := assembleCall_cases h
  obtain ⟨hnil, rfl⟩ := Thread.nil_iff.1 hreceiver
  obtain rfl := Option.toList_eq_nil_iff.1 hnil
  obtain ⟨ha, -, hwrites⟩ := Assembly.bounded_nil.thread hargs htexts hthread
  refine unparse_eq_ok.2 ⟨_, ?_, String.ofList_toList⟩
  rw [render_mk, ha.macroCall?_next hid]
  exact (nodeText_function hfunction _).trans (callText_of_writes hwrites function)

lemma unparse_memberCall {receiver : Workspace} {text : String} (hconsistent : receiver.Consistent)
    (htext : receiver.unparse = .ok text) (hroot : ¬ receiver.root.IsOperatorCall)
    (h : memberCall budget receiver function args = .ok w) :
    w.unparse = .ok (text ++ "." ++ writtenCall function texts) := by
  obtain ⟨es, e, a, a', id, hthread, hreceiver, hid, rfl⟩ := assembleCall_cases h
  obtain ⟨ha, -, hwrites⟩ := Assembly.bounded_nil.thread hargs htexts hthread
  obtain ⟨e', es', a'', he, htake, hnil⟩ := Thread.cons_iff.1 hreceiver
  obtain ⟨rfl, rfl⟩ := Thread.nil_iff.1 hnil
  obtain rfl := Option.toList_eq_singleton_iff.1 he
  obtain ⟨v, t, hrelocated, rfl, rfl⟩ := takeIn_cases htake
  have hreceiverText : render (a.taking v t).source.macroCalls [] v.root = .ok text.toList :=
    ha.writes_taking hconsistent htext hrelocated _ (.refl _)
  have hcall := callText_of_writes
    (hwrites.imp fun _ _ h => h.mono (Assembly.extends_taking hrelocated)) function
  -- the receiver keeps its kind, so it is written without parentheses
  have hlevel : looserThan 1 v.root = false := by
    rw [← looserThan_congr (outline_eq_of_eraseIds hrelocated.shape)]
    exact looserThan_eq_false hroot 1
  refine unparse_eq_ok.2 ⟨_, ?_, String.ofList_toList⟩
  rw [render_mk, (ha.taking hrelocated).macroCall?_next hid]
  simp only [Kind.mapChildren, Option.map_some, nodeText, operand, Child.text, hreceiverText, hlevel,
    hcall, Bool.and_false]
  rw [String.toList_append, String.toList_append, List.append_assoc]
  rfl

end Text

/-- A call is written with the texts of its arguments, and of its receiver if it has one. It has an id
above all others, and no id is in its tree twice. -/
theorem calls_compose (function : String) {args : List Workspace} {texts : List String}
    (hargs : ∀ v ∈ args, v.Consistent)
    (htexts : List.Forall₂ (fun v text => v.unparse = .ok text) args texts) :
    (∀ budget w, globalCall budget function args = .ok w →
      w.RootOnTop ∧ (Operator.ofFunction? function = none →
        w.unparse = .ok (writtenCall function texts))) ∧
      ∀ budget receiver text w, receiver.Consistent → receiver.unparse = .ok text →
        memberCall budget receiver function args = .ok w →
        w.RootOnTop ∧ (¬ receiver.root.IsOperatorCall →
          w.unparse = .ok (text ++ "." ++ writtenCall function texts)) := by
  constructor
  · intro budget w h
    refine ⟨rootOnTop_assembleCall ?_ h, fun hfunction => unparse_globalCall hargs htexts hfunction h⟩
    intro v hv
    rw [Option.toList_none, List.append_nil] at hv
    exact (hargs v hv).distinct
  · intro budget receiver text w hreceiver htext h
    refine ⟨rootOnTop_assembleCall ?_ h,
      fun hroot => unparse_memberCall hargs htexts hreceiver htext hroot h⟩
    intro v hv
    rcases List.mem_append.1 hv with hv | hv
    · exact (hargs v hv).distinct
    · rw [Option.toList_some, List.mem_singleton] at hv
      exact hv ▸ hreceiver.distinct

/-- The same loop twice and a sum with the ids of the loop and of its macro call, then with the loop as
the receiver as well. -/
theorem calls_compose_repeated :
    let loop : Workspace :=
      ⟨⟨⟨1⟩, .comprehension ⟨"x", ⟨⟨2⟩, .ident ⟨"xs"⟩⟩, "r", ⟨⟨3⟩, .ident ⟨"t"⟩⟩, ⟨⟨4⟩, .ident ⟨"r"⟩⟩,
        ⟨⟨5⟩, .ident ⟨"x"⟩⟩, ⟨⟨6⟩, .ident ⟨"r"⟩⟩⟩⟩,
        { SourceInfo.empty with macroCalls := .ofList [(⟨1⟩, ⟨.unset, .call
          ⟨some ⟨⟨2⟩, .ident ⟨"xs"⟩⟩, "all", [⟨⟨7⟩, .ident ⟨"x"⟩⟩, ⟨⟨5⟩, .ident ⟨"x"⟩⟩]⟩⟩)] }⟩
    let sum : Workspace :=
      .ofExpr ⟨⟨7⟩, .call ⟨none, "_+_", [⟨⟨1⟩, .ident ⟨"a"⟩⟩, ⟨⟨2⟩, .ident ⟨"b"⟩⟩]⟩⟩
    let args := [loop, sum, loop]
    let texts := ["xs.all(x, x)", "a + b", "xs.all(x, x)"]
    (∀ v ∈ args, v.Consistent) ∧ List.Forall₂ (fun v text => v.unparse = .ok text) args texts ∧
      (∃ w, globalCall 10 "g" args = .ok w ∧ w.RootOnTop ∧
        w.unparse = .ok "g(xs.all(x, x), a + b, xs.all(x, x))") ∧
      ∃ w, memberCall 10 loop "g" args = .ok w ∧ w.RootOnTop ∧
        w.unparse = .ok "xs.all(x, x).g(xs.all(x, x), a + b, xs.all(x, x))" := by
  intro loop sum args texts
  have hloop : loop.Consistent := by decide +kernel
  have hloopText : loop.unparse = .ok "xs.all(x, x)" := except_toOption_eq_some.1 (by decide +kernel)
  have hsum : sum.Consistent := by decide +kernel
  have hsumText : sum.unparse = .ok "a + b" := except_toOption_eq_some.1 (by decide +kernel)
  have hargs : ∀ v ∈ args, v.Consistent := by
    simp only [args, List.forall_mem_cons]
    exact ⟨hloop, hsum, hloop, fun v hv => absurd hv List.not_mem_nil⟩
  have htexts : List.Forall₂ (fun v text => v.unparse = .ok text) args texts :=
    .cons hloopText (.cons hsumText (.cons hloopText .nil))
  obtain ⟨hglobal, hmember⟩ := calls_compose "g" hargs htexts
  refine ⟨hargs, htexts, ?_, ?_⟩
  · have hsome : (globalCall 10 "g" args).toOption.isSome := by decide +kernel
    obtain ⟨w, hw⟩ := Option.isSome_iff_exists.1 hsome
    rw [except_toOption_eq_some] at hw
    obtain ⟨htop, htext⟩ := hglobal 10 w hw
    exact ⟨w, hw, htop, htext rfl⟩
  · have hsome : (memberCall 10 loop "g" args).toOption.isSome := by decide +kernel
    obtain ⟨w, hw⟩ := Option.isSome_iff_exists.1 hsome
    rw [except_toOption_eq_some] at hw
    obtain ⟨htop, htext⟩ := hmember 10 loop "xs.all(x, x)" w hloop hloopText hw
    have hroot : ¬ loop.root.IsOperatorCall := by
      rintro ⟨function, args, hkind, -⟩
      cases hkind
    exact ⟨w, hw, htop, htext hroot⟩

end Workspace

end CelEdit
