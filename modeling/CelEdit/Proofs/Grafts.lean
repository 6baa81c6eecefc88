import CelEdit.Edit.Replace
import CelEdit.Proofs.Positions
import CelEdit.Proofs.Shadows

/-!
# Grafts

The walk of a replacement renumbers the host until it meets the target, renumbers the donor there,
and goes on without a donor. So it is a renumbering of the host with the donor at the first position
of the target, in which the root of the donor shares the exchange of the target.
-/

namespace CelEdit.Workspace

open Runs CelEdit.Expr

variable {target : NodeId} {b b' : Nat} {s s' : IdSupply} {pending pending' : Option Expr}

lemma ends_liftMint {α : Type} {x : Mint α} {a : α} :
    Ends (liftM x : StateT (Option Expr) (Walk Mint) α) (pending, b, s) a (pending', b', s') ↔
      pending' = pending ∧ b' = b ∧ Ends x s a s' := by
  change Ends (liftM (liftM x : Walk Mint α) : StateT (Option Expr) (Walk Mint) α)
    (pending, b, s) a (pending', b', s') ↔ _
  rw [ends_lift, ends_lift]

lemma ends_payPending {a : Unit} :
    Ends (liftM (Walk.pay : Walk Mint Unit) : StateT (Option Expr) (Walk Mint) Unit)
      (pending, b, s) a (pending', b', s') ↔ pending' = pending ∧ b = b' + 1 ∧ s' = s := by
  rw [ends_lift, ends_pay]

/-- What the walk does with a node that it has paid for. -/
def transplantNode (target id : NodeId) (k : Kind Expr) :
    Option Expr → StateT (Option Expr) (Walk Mint) Expr
  | some donor => do
    set (none : Option Expr)
    let placed ← (liftM (IdSupply.exchange target) : StateT (Option Expr) (Walk Mint) NodeId)
    (liftM (IdSupply.remember donor.id placed) : StateT (Option Expr) (Walk Mint) Unit)
    (liftM (donor.renumber IdSupply.exchange) : StateT (Option Expr) (Walk Mint) Expr)
  | none => do
    let id ← (liftM (IdSupply.exchange id) : StateT (Option Expr) (Walk Mint) NodeId)
    let k ← (k.mapChildren (fun c => (c, transplant target c))).traverseEntryIds
      (fun entry => (liftM (IdSupply.exchange entry) : StateT (Option Expr) (Walk Mint) NodeId))
    let k ← k.traverse Prod.snd
    pure ⟨id, k⟩

lemma transplant_mk (target id : NodeId) (k : Kind Expr) :
    transplant target ⟨id, k⟩ = (do
      (liftM (Walk.pay : Walk Mint Unit) : StateT (Option Expr) (Walk Mint) Unit)
      let pending : Option Expr ← get
      transplantNode target id k (if id = target then pending else none)) := by
  conv_lhs => unfold transplant
  rw [fold_eq]
  rfl

lemma ends_transplant_mk {id : NodeId} {k : Kind Expr} {e' : Expr} :
    Ends (transplant target ⟨id, k⟩) (pending, b, s) e' (pending', b', s') ↔
      ∃ b₁, b = b₁ + 1 ∧ Ends (transplantNode target id k (if id = target then pending else none))
        (pending, b₁, s) e' (pending', b', s') := by
  rw [transplant_mk, ends_bind]
  simp only [ends_bind, Prod.exists, ends_payPending, ends_getOuter]
  constructor
  · rintro ⟨_, _, b₁, _, ⟨rfl, rfl, rfl⟩, _, _, _, _, ⟨rfl, hstate⟩, hnode⟩
    cases hstate
    exact ⟨_, rfl, hnode⟩
  · rintro ⟨b₁, rfl, hnode⟩
    exact ⟨(), pending, b₁, s, ⟨rfl, rfl, rfl⟩, pending, pending, b₁, s, ⟨rfl, rfl⟩, hnode⟩

/-- At the target the donor takes the place of the node. -/
lemma ends_transplant_hit {d e' : Expr} {k : Kind Expr} :
    Ends (transplant target ⟨target, k⟩) (some d, b, s) e' (pending', b', s') ↔
      pending' = none ∧ ∃ b₁ placed s₁, b = b₁ + 1 ∧ Ends (IdSupply.exchange target) s placed s₁ ∧
        Ends (d.renumber IdSupply.exchange) (b₁, ⟨s₁.counter, s₁.exchanged.insert d.id placed⟩) e'
          (b', s') := by
  rw [ends_transplant_mk, if_pos rfl]
  simp only [transplantNode, ends_bind, Prod.exists, ends_setOuter, ends_liftMint,
    IdSupply.ends_remember]
  constructor
  · rintro ⟨b₁, rfl, _, _, _, _, hset, placed, _, _, s₁, ⟨rfl, rfl, hplaced⟩, _, _, _, _,
      ⟨rfl, rfl, rfl⟩, hdonor⟩
    cases hset
    obtain ⟨hpending, hdonor⟩ := (ends_lift ..).1 hdonor
    exact ⟨hpending, _, placed, s₁, rfl, hplaced, hdonor⟩
  · rintro ⟨rfl, b₁, placed, s₁, rfl, hplaced, hdonor⟩
    exact ⟨b₁, rfl, ⟨⟩, none, b₁, s, rfl, placed, none, b₁, s₁, ⟨rfl, rfl, hplaced⟩, (), none, b₁, _,
      ⟨rfl, rfl, rfl⟩, (ends_lift ..).2 ⟨rfl, hdonor⟩⟩

lemma thread_liftMint {is js : List NodeId} :
    Thread (fun i => Ends
      (liftM (IdSupply.exchange i) : StateT (Option Expr) (Walk Mint) NodeId))
      is (pending, b, s) js (pending', b', s') ↔
    pending' = pending ∧ b' = b ∧ Thread (fun i => Ends (IdSupply.exchange i)) is s js s' := by
  change Thread (fun i => Ends (liftM (liftM (IdSupply.exchange i) : Walk Mint NodeId) :
    StateT (Option Expr) (Walk Mint) NodeId)) is (pending, b, s) js (pending', b', s') ↔ _
  rw [thread_lift, thread_lift]

/-- Anywhere else the walk renumbers the node and goes on to the children. -/
lemma ends_transplant_miss {id id' : NodeId} {k k' : Kind Expr} (h : id ≠ target ∨ pending = none) :
    Ends (transplant target ⟨id, k⟩) (pending, b, s) ⟨id', k'⟩ (pending', b', s') ↔
      ∃ b₁ s₁ s₂, b = b₁ + 1 ∧ Ends (IdSupply.exchange id) s id' s₁ ∧ k'.outline = k.outline ∧
        Thread (fun i => Ends (IdSupply.exchange i)) k.entryIds s₁ k'.entryIds s₂ ∧
        Thread (fun c => Ends (transplant target c)) k.children (pending, b₁, s₂) k'.children
          (pending', b', s') := by
  have hnone : (if id = target then pending else none) = none := by
    rcases h with h | h
    · rw [if_neg h]
    · rw [h, ite_self]
  have hnode := ends_renumberNode
    (fun i => (liftM (IdSupply.exchange i) : StateT (Option Expr) (Walk Mint) NodeId))
    (transplant target) id id' k k'
  rw [ends_transplant_mk, hnone]
  constructor
  · rintro ⟨b₁, rfl, h⟩
    obtain ⟨⟨p₁, b₂, s₁⟩, ⟨p₂, b₃, s₂⟩, hid, houtline, hentries, hchildren⟩ := (hnode ..).1 h
    obtain ⟨rfl, rfl, hid'⟩ := ends_liftMint.1 hid
    obtain ⟨rfl, rfl, hentries'⟩ := thread_liftMint.1 hentries
    exact ⟨_, s₁, s₂, rfl, hid', houtline, hentries', hchildren⟩
  · rintro ⟨b₁, s₁, s₂, rfl, hid, houtline, hentries, hchildren⟩
    refine ⟨b₁, rfl, (hnode ..).2 ⟨(pending, b₁, s₁), (pending, b₁, s₂), ?_, houtline, ?_, hchildren⟩⟩
    · exact ends_liftMint.2 ⟨rfl, rfl, hid⟩
    · exact thread_liftMint.2 ⟨rfl, rfl, hentries⟩

/-! ### Before and after the target -/

lemma thread_transplant_idle {cs cs' : List Expr}
    (ih : ∀ c ∈ cs, ∀ {c' b b' s s' pending'},
      Ends (transplant target c) (pending, b, s) c' (pending', b', s') ↔
        pending' = pending ∧ Ends (c.renumber IdSupply.exchange) (b, s) c' (b', s')) :
    Thread (fun c => Ends (transplant target c)) cs (pending, b, s) cs' (pending', b', s') ↔
      pending' = pending ∧
        Thread (fun c => Ends (c.renumber IdSupply.exchange)) cs (b, s) cs' (b', s') := by
  constructor
  · intro h
    induction cs generalizing cs' b s with
    | nil =>
      obtain ⟨rfl, hstate⟩ := Thread.nil_iff.1 h
      cases hstate
      exact ⟨rfl, .nil _⟩
    | cons c cs ihcs =>
      obtain ⟨c', cs', ⟨pending₁, b₁, s₁⟩, rfl, hc, hcs⟩ := Thread.cons_iff.1 h
      obtain ⟨rfl, hhead⟩ := (ih c List.mem_cons_self).1 hc
      obtain ⟨rfl, htail⟩ := ihcs (fun c hc => ih c (List.mem_cons_of_mem _ hc)) hcs
      exact ⟨rfl, .cons hhead htail⟩
  · rintro ⟨rfl, h⟩
    exact h.imp (fun st => (pending', st)) fun c hc st c' st' hrun => (ih c hc).2 ⟨rfl, hrun⟩

/-- Without a donor, or without the target, the walk is a renumbering. -/
theorem ends_transplant_idle {e e' : Expr} (hidle : pending = none ∨ e.firstAt? target = none) :
    Ends (transplant target e) (pending, b, s) e' (pending', b', s') ↔
      pending' = pending ∧ Ends (e.renumber IdSupply.exchange) (b, s) e' (b', s') := by
  induction e using induct generalizing e' b b' s s' pending' with
  | node id k ih =>
    obtain ⟨id', k'⟩ := e'
    have hmiss : id ≠ target ∨ pending = none :=
      hidle.symm.imp_left (fun hnone => (firstAt?_eq_none_mk.1 hnone).1)
    have hidle' (c : Expr) (hc : c ∈ k.children) : pending = none ∨ c.firstAt? target = none :=
      hidle.imp_right (fun hnone => (firstAt?_eq_none_mk.1 hnone).2 c hc)
    rw [ends_transplant_miss hmiss, ends_renumber_mk]
    simp only [thread_transplant_idle fun c hc {_ _ _ _ _ _} => ih c hc (hidle' c hc)]
    constructor
    · rintro ⟨b₁, s₁, s₂, hb, hid, houtline, hentries, hpending, hchildren⟩
      exact ⟨hpending, b₁, s₁, s₂, hb, hid, houtline, hentries, hchildren⟩
    · rintro ⟨hpending, b₁, s₁, s₂, hb, hid, houtline, hentries, hchildren⟩
      exact ⟨b₁, s₁, s₂, hb, hid, houtline, hentries, hpending, hchildren⟩

lemma thread_idle_slots {cs cs' : List Expr}
    (hidle : pending = none ∨ ∀ c ∈ cs, c.firstAt? target = none) :
    Thread (fun c => Ends (transplant target c)) cs (pending, b, s) cs' (pending', b', s') ↔
      pending' = pending ∧ RenumbersAll IdSupply.exchange cs b s cs' b' s' := by
  rw [thread_transplant_idle fun c hc {_ _ _ _ _ _} =>
    ends_transplant_idle (hidle.imp_right (fun hall => hall c hc)),
    thread_renumber (fun _ _ => ends_renumber)]

/-- The exchanges of a walk that puts in a donor: the ids before the target, the target itself for
the root of the donor, the ids of the donor, and the ids after the target. -/
def GraftRun (target : NodeId) (d : Expr) (before after : List NodeId) (s : IdSupply)
    (js : List NodeId) (s' : IdSupply) : Prop :=
  ∃ js₁ js₂ js₃ s₁ s₂ s₃ placed, js = js₁ ++ (js₂ ++ js₃) ∧
    Thread (fun i => Ends (IdSupply.exchange i)) before s js₁ s₁ ∧
    Ends (IdSupply.exchange target) s₁ placed s₂ ∧
    Thread (fun i => Ends (IdSupply.exchange i)) d.slots
      ⟨s₂.counter, s₂.exchanged.insert d.id placed⟩ js₂ s₃ ∧
    Thread (fun i => Ends (IdSupply.exchange i)) after s₃ js₃ s'

lemma GraftRun.extend {d : Expr} {before after is is' js js₀ js₁ : List NodeId} {t t' : IdSupply}
    (h : GraftRun target d before after t js t')
    (hbefore : Thread (fun i => Ends (IdSupply.exchange i)) is s js₀ t)
    (hafter : Thread (fun i => Ends (IdSupply.exchange i)) is' t' js₁ s') :
    GraftRun target d (is ++ before) (after ++ is') s (js₀ ++ js ++ js₁) s' := by
  obtain ⟨ks₁, ks₂, ks₃, s₁, s₂, s₃, placed, rfl, h₁, hplaced, h₂, h₃⟩ := h
  exact ⟨js₀ ++ ks₁, ks₂, ks₃ ++ js₁, s₁, s₂, s₃, placed, by simp only [List.append_assoc],
    hbefore.append h₁, hplaced, h₂, h₃.append hafter⟩

lemma GraftRun.hit {d : Expr} {placed : NodeId} {js : List NodeId} {t : IdSupply}
    (hplaced : Ends (IdSupply.exchange target) s placed t)
    (hdonor : Thread (fun i => Ends (IdSupply.exchange i)) d.slots
      ⟨t.counter, t.exchanged.insert d.id placed⟩ js s') : GraftRun target d [] [] s js s' :=
  ⟨[], js, [], s, t, s', placed, by simp, .nil s, hplaced, hdonor, .nil s'⟩

lemma GraftRun.of_hit {d : Expr} {js : List NodeId} (h : GraftRun target d [] [] s js s') :
    ∃ placed t, Ends (IdSupply.exchange target) s placed t ∧
      Thread (fun i => Ends (IdSupply.exchange i)) d.slots
        ⟨t.counter, t.exchanged.insert d.id placed⟩ js s' := by
  obtain ⟨js₁, js₂, js₃, s₁, s₂, s₃, placed, rfl, h₁, hplaced, h₂, h₃⟩ := h
  obtain ⟨rfl, rfl⟩ := Thread.nil_iff.1 h₁
  obtain ⟨rfl, rfl⟩ := Thread.nil_iff.1 h₃
  rw [List.append_nil]
  exact ⟨placed, s₂, hplaced, h₂⟩

/-- A run that begins and ends with other ids, taken apart. -/
lemma GraftRun.split {d : Expr} {before after is is' js js₀ js₁ : List NodeId}
    (h : GraftRun target d (is ++ before) (after ++ is') s (js₀ ++ js ++ js₁) s')
    (hlength₀ : js₀.length = is.length) (hlength₁ : js₁.length = is'.length) :
    ∃ t t', Thread (fun i => Ends (IdSupply.exchange i)) is s js₀ t ∧
      GraftRun target d before after t js t' ∧
      Thread (fun i => Ends (IdSupply.exchange i)) is' t' js₁ s' := by
  obtain ⟨_, ks₂, _, s₁, s₂, s₃, placed, hjs, hfront, hplaced, hdonor, hback⟩ := h
  obtain ⟨ks₀, ks₁, t, rfl, his, hbefore⟩ := Thread.append_iff.1 hfront
  obtain ⟨ks₃, ks₄, t', rfl, hafter, his'⟩ := Thread.append_iff.1 hback
  rw [List.append_assoc, List.append_assoc] at hjs
  obtain ⟨rfl, hrest⟩ := List.append_inj hjs (hlength₀.trans his.length_eq.symm)
  rw [← List.append_assoc ks₂, ← List.append_assoc ks₁] at hrest
  obtain ⟨rfl, rfl⟩ := List.append_inj' hrest (hlength₁.trans his'.length_eq.symm)
  exact ⟨t, t', his, ⟨ks₁, ks₂, ks₃, s₁, s₂, s₃, placed, rfl, hbefore, hplaced, hdonor, hafter⟩, his'⟩

/-- With a donor and the target, the walk gives the host with the donor at the target, and pays for
its nodes and once more for the target. -/
theorem ends_transplant_found {d e e' : Expr} {p : Position} (hp : e.firstAt? target = some p) :
    Ends (transplant target e) (some d, b, s) e' (pending', b', s') ↔
      pending' = none ∧ e'.eraseIds = (setAt d p e).eraseIds ∧
        b = b' + (setAt d p e).nodeCount + 1 ∧
        GraftRun target d (slotsBefore p e) (slotsAfter p e) s e'.slots s' := by
  induction e using induct generalizing e' b b' s s' pending' p with
  | node id k ih =>
    rcases firstAt?_eq_some_mk.1 hp with ⟨rfl, rfl⟩ | ⟨hid, before, c, after, q, hk, hnone, hq, rfl⟩
    · rw [ends_transplant_hit]
      constructor
      · rintro ⟨rfl, b₁, placed, s₁, rfl, hplaced, hdonor⟩
        obtain ⟨hshape, rfl, hslots⟩ := ends_renumber.1 hdonor
        exact ⟨rfl, hshape, rfl, .hit hplaced hslots⟩
      · rintro ⟨rfl, hshape, hb, hgraft⟩
        obtain ⟨placed, s₁, hplaced, hslots⟩ := hgraft.of_hit
        exact ⟨rfl, _, placed, s₁, hb, hplaced, ends_renumber.2 ⟨hshape, rfl, hslots⟩⟩
    · obtain ⟨id', k'⟩ := e'
      have hcount : (setAt d (before.length :: q) ⟨id, k⟩).nodeCount = _ :=
        nodeCount_split (children_setAt_split hk d q)
      have hshapeIff : eraseIds ⟨id', k'⟩ = (setAt d (before.length :: q) ⟨id, k⟩).eraseIds ↔
          k'.outline = k.outline ∧
            k'.children.map eraseIds = (before ++ setAt d q c :: after).map eraseIds := by
        rw [← children_setAt_split hk, ← outline_setAt_cons d ⟨id, k⟩ before.length q]
        exact eraseIds_eq_iff ..
      have ihc := fun {c' b b' s s' pending'} => @ih c (by simp [hk]) c' b b' s s' pending' _ hq
      rw [ends_transplant_miss (.inl hid), hshapeIff, hcount, hk, slotsBefore_split hk,
        slotsAfter_split hk, slots_mk]
      constructor
      · rintro ⟨b₁, s₁, s₂, rfl, hid, houtline, hentries, hchildren⟩
        obtain ⟨before', rest', ⟨_, b₃, s₃⟩, hk', hbefore, hrest⟩ := Thread.append_iff.1 hchildren
        obtain ⟨c', after', ⟨_, b₄, s₄⟩, rfl, hc, hafter⟩ := Thread.cons_iff.1 hrest
        obtain ⟨rfl, hshapes, hpaid, hids⟩ := (thread_idle_slots (.inr hnone)).1 hbefore
        obtain ⟨rfl, hshape, hpaidChild, hgraft⟩ := ihc.1 hc
        obtain ⟨rfl, hshapes', hpaid', hids'⟩ := (thread_idle_slots (.inl rfl)).1 hafter
        rw [foldr_add] at hpaid hpaid'
        refine ⟨rfl, ⟨houtline, ?_⟩, by omega, ?_⟩
        · rw [hk', List.map_append, List.map_append, List.map_cons, List.map_cons, hshapes, hshape,
            hshapes']
        · have hnode : Thread (fun i => Ends (IdSupply.exchange i)) (id :: k.entryIds) s
              (id' :: k'.entryIds) s₂ := .cons hid hentries
          rw [hk', List.flatMap_append, List.flatMap_cons]
          simpa only [List.append_assoc] using hgraft.extend (hnode.append hids) hids'
      · rintro ⟨rfl, ⟨houtline, hshapes⟩, hb, hgraft⟩
        rw [List.map_append, List.map_eq_append_iff] at hshapes
        obtain ⟨before', _, hk', hbefore, hshapes⟩ := hshapes
        rw [List.map_cons, List.map_eq_cons_iff] at hshapes
        obtain ⟨c', after', rfl, hc, hafter⟩ := hshapes
        have hgraft : GraftRun target d ((id :: k.entryIds ++ before.flatMap slots) ++ slotsBefore q c)
            (slotsAfter q c ++ after.flatMap slots) s
            ((id' :: k'.entryIds ++ before'.flatMap slots) ++ c'.slots ++ after'.flatMap slots) s' := by
          rw [hk', List.flatMap_append, List.flatMap_cons] at hgraft
          simpa only [List.append_assoc] using hgraft
        have hentryIds := Kind.length_entryIds_eq houtline
        have hlength := length_flatMap_slots_eq hbefore
        obtain ⟨t, t', hfront, hgraft, hback⟩ :=
          hgraft.split (by simp [hentryIds, hlength]) (length_flatMap_slots_eq hafter)
        obtain ⟨s₂, hnode, hids⟩ := hfront.split (by simp [hentryIds])
        obtain _ | ⟨hid, hentries⟩ := hnode
        refine ⟨_, _, s₂, hb, hid, houtline, hentries, ?_⟩
        rw [hk']
        refine ((thread_idle_slots (.inr hnone)).2 ⟨rfl, hbefore, ?_, hids⟩).append
          (.cons (ihc.2 ⟨rfl, hc, rfl, hgraft⟩)
            ((thread_idle_slots (.inl rfl)).2 ⟨rfl, hafter, rfl, hback⟩))
        rw [foldr_add (before.map nodeCount) (_ + _), foldr_add (after.map nodeCount) b']
        omega

/-- A walk that puts in a donor with a new root id exchanges the ids of the tree that it builds. The
root of the donor and the target share one exchange. -/
theorem GraftRun.exchanges {d : Expr} {before after js : List NodeId} {seed : NodeId}
    (hs : s.Sound seed) (hinj : s.InjectiveOn (fun _ => True)) (htarget : target.isSet)
    (hne : d.id ≠ target) (hbefore : d.id ∉ before) (hold : s.exchanged? d.id = none)
    (h : GraftRun target d before after s js s') :
    IdSupply.Exchanges (· ≠ target) s (before ++ d.slots ++ after) js s' ∧
      ∃ placed, s'.exchanged? target = some placed ∧ s'.exchanged? d.id = some placed := by
  obtain ⟨js₁, js₂, js₃, s₁, s₂, s₃, placed, rfl, h₁, hplaced, h₂, h₃⟩ := h
  have hrun₁ : IdSupply.Exchanges (fun _ => True) s before js₁ s₁ := .of_thread h₁
  have hsound₁ := (hrun₁.sound_extends hs).1
  have hsound₂ := IdSupply.exchange_sound hplaced hsound₁
  have hinj₂ := IdSupply.exchange_injectiveOn hplaced hsound₁ (hrun₁.injectiveOn hs hinj)
  have hgave := (IdSupply.exchange_gave hplaced hsound₁).1 htarget
  have hknown : ∀ k, s₂.exchanged? k = some placed ↔ k = target := by
    intro k
    constructor
    · exact fun hk => hinj₂ k target placed trivial trivial hk hgave
    · rintro rfl
      exact hgave
  have hnew : s₂.exchanged? d.id = none := by
    rw [Option.eq_none_iff_forall_ne_some]
    intro v hv
    rcases IdSupply.exchange_exchanged hplaced hv with hv | hv
    · rcases IdSupply.thread_exchanged h₁ hv with hv | hv
      · rw [hold] at hv
        cases hv
      · exact hbefore hv
    · exact hne hv
  have hrun₂ : IdSupply.Exchanges (· ≠ target) ⟨s₂.counter, s₂.exchanged.insert d.id placed⟩
      (d.slots ++ after) (js₂ ++ js₃) s' :=
    (IdSupply.Exchanges.of_thread h₂).append (.of_thread h₃)
  constructor
  · rw [List.append_assoc]
    exact (IdSupply.Exchanges.of_thread h₁).append
      (.aside hplaced (.pin hknown hnew (fun h => h.2 rfl) hrun₂))
  · have hsound : IdSupply.Sound seed ⟨s₂.counter, s₂.exchanged.insert d.id placed⟩ :=
      IdSupply.pin_sound hgave hsound₂
    have hextends := (hrun₂.sound_extends hsound).2
    exact ⟨placed, hextends.keeps ((IdSupply.pin_extends hgave hnew).keeps hgave),
      hextends.keeps (by rw [IdSupply.exchanged?_insert, if_pos rfl])⟩

end CelEdit.Workspace
