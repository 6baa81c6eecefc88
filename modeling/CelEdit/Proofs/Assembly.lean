import CelEdit.Edit.Call
import CelEdit.Proofs.Replacements

/-!
# Assembling calls

A call takes in one workspace after the other. Each is relocated above the largest id so far, so what
holds of the trees taken in is an invariant of one step.
-/

namespace CelEdit.Workspace

open Runs CelEdit.Expr

variable {budget : Nat} {w : Workspace} {a a' : Assembly}

/-- The assembly after it has taken in a relocated workspace. -/
def Assembly.taking (a : Assembly) (v : Workspace) (t : IdSupply) : Assembly where
  maxId := t.maxId
  source := { a.source with
    macroCalls := a.source.macroCalls.union v.source.macroCalls
    extensions := Extension.merge a.source.extensions v.source.extensions }

lemma takeIn_cases {e : Expr} (h : Ends (takeIn budget w) a e a') :
    ∃ v t, Relocated a.maxId w v t ∧ e = v.root ∧ a' = a.taking v t := by
  simp only [takeIn, ends_bind, ends_get, ends_liftExcept, ends_set, ends_pure] at h
  obtain ⟨_, _, ⟨rfl, rfl⟩, ⟨v, t⟩, _, ⟨hrelocate, rfl⟩, _, _, rfl, rfl, rfl⟩ := h
  exact ⟨v, t, relocated_of_relocate hrelocate, rfl, rfl⟩

/-- What every step keeps holds of all trees that have been taken in. -/
theorem thread_takeIn {P : Assembly → List Expr → Prop} {ws : List Workspace} {es es' : List Expr}
    (hstep : ∀ w ∈ ws, ∀ a es v t, P a es → Relocated a.maxId w v t →
      P (a.taking v t) (es ++ [v.root]))
    (h : Thread (fun w => Ends (takeIn budget w)) ws a es' a') (hes : P a es) : P a' (es ++ es') := by
  induction h generalizing es with
  | nil a => rwa [List.append_nil]
  | @cons w ws e es' a a₁ a' head tail ih =>
    obtain ⟨v, t, hrelocated, rfl, rfl⟩ := takeIn_cases head
    have hnext := hstep w List.mem_cons_self a es v t hes hrelocated
    rw [← List.singleton_append, ← List.append_assoc]
    exact ih (fun w hw => hstep w (List.mem_cons_of_mem _ hw)) hnext

lemma assembleCall_cases {target : Option Workspace} {function : String} {args : List Workspace}
    (h : assembleCall budget target function args = .ok w) :
    ∃ (es : List Expr) (receiver : Option Expr) (a a' : Assembly) (id : NodeId),
      Thread (fun w => Ends (takeIn budget w)) args ⟨.unset, .empty⟩ es a ∧
      Thread (fun w => Ends (takeIn budget w)) target.toList a receiver.toList a' ∧
      a'.maxId.next? = some id ∧ w = ⟨⟨id, .call ⟨receiver, function, es⟩⟩, a'.source⟩ := by
  unfold assembleCall at h
  rw [except_bind_eq_ok] at h
  obtain ⟨⟨call, a⟩, hbuild, h⟩ := h
  obtain ⟨⟨id, c⟩, hnext, hw⟩ := (except_bind_eq_ok ..).1 h
  obtain ⟨hid, -⟩ := IdSupply.next_eq_ok.1 hnext
  cases hw
  change Ends (args.mapM (takeIn budget) >>= _) ⟨.unset, .empty⟩ call a at hbuild
  obtain ⟨es, a₁, hargs, hcall⟩ := (ends_bind ..).1 hbuild
  rw [ends_listMapM] at hargs
  cases target with
  | none =>
    obtain ⟨rfl, rfl⟩ := (ends_pure ..).1 hcall
    exact ⟨es, none, a, a, id, hargs, .nil a, hid, rfl⟩
  | some target =>
    obtain ⟨receiver, a₂, hreceiver, hpure⟩ := (ends_bind ..).1 hcall
    obtain ⟨rfl, rfl⟩ := (ends_pure ..).1 hpure
    exact ⟨es, some receiver, a₁, a, id, hargs, .cons hreceiver (.nil a), hid, rfl⟩

/-- Invariants of the assembly hold of the children of the call, whose id is above all of theirs. -/
theorem assembleCall_invariant {P : Assembly → List Expr → Prop} {target : Option Workspace}
    {function : String} {args : List Workspace}
    (hstart : P ⟨.unset, .empty⟩ [])
    (hstep : ∀ w ∈ args ++ target.toList, ∀ a es v t, P a es → Relocated a.maxId w v t →
      P (a.taking v t) (es ++ [v.root]))
    (h : assembleCall budget target function args = .ok w) :
    ∃ a es, P a es ∧ w.source = a.source ∧ w.root.id.toNat = a.maxId.toNat + 1 ∧
      w.root.entryIds = [] ∧ w.root.children.Perm es := by
  obtain ⟨es, receiver, _, a, id, hargs, hreceiver, hid, rfl⟩ := assembleCall_cases h
  have hall : P a ([] ++ (es ++ receiver.toList)) :=
    thread_takeIn hstep (hargs.append hreceiver) hstart
  exact ⟨a, es ++ receiver.toList, hall, rfl, NodeId.toNat_next hid, rfl, List.perm_append_comm⟩

end CelEdit.Workspace
