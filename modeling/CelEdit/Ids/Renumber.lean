import CelEdit.Ids.Supply

/-!
# Renumbering trees

A walk visits nodes in pre-order and pays one unit of its budget for each. Renumbering exchanges the
id of a node, then those of its entries, and then goes on to the children.
-/

namespace CelEdit

/-- A walk with the number of nodes that it may still visit. -/
abbrev Walk (m : Type → Type) := StateT Nat m

namespace Walk

variable {m : Type → Type} [Monad m] [MonadExceptOf EditError m]

/-- Pays for one node. -/
def pay : Walk m Unit := do
  match ← get with
  | 0 => throw EditError.budgetExhausted
  | remaining + 1 => set remaining

end Walk

namespace Expr

def renumber (rename : Renaming) : Expr → Walk Mint Expr :=
  fold fun id k => do
    Walk.pay
    let id ← rename id
    let k ← k.traverseEntryIds (fun entry => liftM (rename entry))
    let k ← k.traverse Prod.snd
    pure ⟨id, k⟩

def eraseEntryIds {α : Type} (k : Kind α) : Kind α :=
  Id.run (k.traverseEntryIds (fun _ => pure .unset))

/-- The tree with all ids unset. -/
def eraseIds : Expr → Expr :=
  fold fun _ k => ⟨.unset, eraseEntryIds (k.mapChildren Prod.snd)⟩

end Expr

end CelEdit
