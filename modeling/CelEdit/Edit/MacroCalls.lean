import CelEdit.Expr.Access
import CelEdit.Ids.Renumber

/-!
# Macro calls after an edit

After every edit the macro calls are derived again from the tree. An entry is dropped when its key
names no node. In the shadows of the others the ids are exchanged like those of the tree, parts that
carry the id of a node become copies of that node, and comprehensions become placeholders for the
entries of their own.
-/

namespace CelEdit

/-- The nodes of a tree by their ids, the last in pre-order where an id is repeated. -/
def Expr.nodesById (root : Expr) : IdMap Expr :=
  IdMap.ofList (root.preorder.map (fun e => (e.id, e)))

namespace MacroCalls

/-- Replaces every outermost part that carries the id of a node by that node. -/
def refresh (nodes : IdMap Expr) : Expr → Expr :=
  Expr.fold fun id k =>
    match if id.isSet then nodes.get? id else none with
    | some node => node
    | none => ⟨id, k.mapChildren Prod.snd⟩

/-- Replaces every outermost comprehension by a placeholder with its id. -/
def collapse : Expr → Expr :=
  Expr.fold fun id k =>
    match k with
    | .comprehension _ => ⟨id, .notSet⟩
    | k => ⟨id, k.mapChildren Prod.snd⟩

/-- The elements of a list that was put in as the second operand of an adding loop step. -/
def replacedStep? (expanded : Expr) (replaced : NodeId) : Option (List Expr) :=
  match expanded.kind with
  | .comprehension c =>
    match c.loopStep.kind with
    | .call ⟨_, "_+_", [_, ⟨id, .list l⟩]⟩ => if id = replaced then some l.elements else none
    | _ => none
  | _ => none

/-- A mapping macro adds its transformed element as a list that only its expansion has. When that
list is replaced, the elements of the new one take the place of the second argument. -/
def followMapStep (shadow expanded : Expr) (replaced : NodeId) : Expr :=
  match replacedStep? expanded replaced, shadow.kind with
  | some elements, .call ⟨target, function, [variable_, _]⟩ =>
    ⟨shadow.id, .call ⟨target, function, variable_ :: elements⟩⟩
  | _, _ => shadow

/-- Derives one entry again, or drops it. -/
def rederiveEntry (replaced : Option NodeId) (nodes : IdMap Expr) (rename : Renaming)
    (budget : Nat) (derived : IdMap Expr) (entry : NodeId × Expr) : Mint (IdMap Expr) := do
  let key ← rename entry.1
  match nodes.get? key with
  | none => pure derived
  | some expanded =>
    let shadow ← (entry.2.renumber rename.onSet).run' budget
    let refreshed := refresh nodes shadow
    let updated := match replaced with
      | some id => followMapStep refreshed expanded id
      | none => refreshed
    pure (derived.insert key (collapse updated))

/-- Derives all macro calls again from a tree. The id of the node that has just been put in comes
after the exchange of ids. -/
def rederive (calls : IdMap Expr) (replaced : Option NodeId) (root : Expr) (rename : Renaming)
    (budget : Nat) : Mint (IdMap Expr) :=
  calls.entries.foldlM (rederiveEntry replaced root.nodesById rename budget) .empty

/-- Derives all macro calls again without an exchange of ids. -/
def rederiveKeeping (calls : IdMap Expr) (root : Expr) (budget : Nat) :
    Except EditError (IdMap Expr) :=
  (rederive calls none root .keep budget).run' default

end MacroCalls

end CelEdit
