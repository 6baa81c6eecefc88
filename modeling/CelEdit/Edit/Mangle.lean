import CelEdit.Edit.MacroCalls

/-!
# Mangling comprehension variables

Every comprehension gets an ordinal in pre-order, and its two variables are named by it. References
follow: the range and the initial value belong to the scope around the comprehension, the accumulator
is bound in the condition, the step and the result, and the iteration variable in the condition and
the step, where it hides the accumulator.
-/

namespace CelEdit

/-- The names of a comprehension before and after mangling. -/
structure VariableRenaming where
  id : NodeId
  oldIterVar : String
  newIterVar : String
  oldAccuVar : String
  newAccuVar : String
deriving DecidableEq

namespace Mangle

/-- Bound names with their new names, the innermost first. -/
abbrev Scopes := List (String × String)

/-- A walk that records the comprehensions in the order in which it enters them. -/
abbrev Pass := StateT (List VariableRenaming) (Walk (Except EditError))

/-- Records a comprehension under the next ordinal. -/
def enter (iterPrefix accuPrefix : String) (id : NodeId) (iterVar accuVar : String) :
    Pass VariableRenaming := do
  let records ← get
  let ordinal := String.ofList (Nat.toDigits 10 records.length)
  let record := ⟨id, iterVar, iterPrefix ++ ordinal, accuVar, accuPrefix ++ ordinal⟩
  set (records ++ [record])
  pure record

/-- Renames a tree inside of the given scopes. -/
def renameIn (iterPrefix accuPrefix : String) : Expr → Scopes → Pass Expr :=
  Expr.fold fun id k scopes => do
    (Walk.pay : Walk (Except EditError) Unit)
    match k with
    | .ident i => pure ⟨id, .ident ⟨(scopes.lookup i.name).getD i.name⟩⟩
    | .comprehension c =>
      let r ← enter iterPrefix accuPrefix id c.iterVar c.accuVar
      let iterRange ← c.iterRange.2 scopes
      let accuInit ← c.accuInit.2 scopes
      let withAccu := (r.oldAccuVar, r.newAccuVar) :: scopes
      let withIter := (r.oldIterVar, r.newIterVar) :: withAccu
      let loopCondition ← c.loopCondition.2 withIter
      let loopStep ← c.loopStep.2 withIter
      let result ← c.result.2 withAccu
      pure ⟨id, .comprehension
        ⟨r.newIterVar, iterRange, r.newAccuVar, accuInit, loopCondition, loopStep, result⟩⟩
    | k =>
      let k ← k.traverse (fun child => child.2 scopes)
      pure ⟨id, k⟩

/-- Renames the variable that a macro call declares by its first argument. -/
def renameVariable (r : VariableRenaming) (call : Expr) : Expr :=
  match call.kind with
  | .call ⟨target, function, ⟨id, .ident i⟩ :: args⟩ =>
    let name :=
      if i.name = r.oldAccuVar then r.newAccuVar
      else if i.name = r.oldIterVar then r.newIterVar
      else i.name
    ⟨call.id, .call ⟨target, function, ⟨id, .ident ⟨name⟩⟩ :: args⟩⟩
  | _ => call

end Mangle

/-- Gives every comprehension variable a name of its own, and lists the comprehensions with their
names. A tree without comprehensions is returned with its metadata as it is. -/
def Workspace.mangle (budget : Nat) (w : Workspace) (iterPrefix accuPrefix : String) :
    Except EditError (Workspace × List VariableRenaming) := do
  let (root, records) ← ((Mangle.renameIn iterPrefix accuPrefix w.root []).run []).run' budget
  if records.isEmpty then pure (w, records)
  else
    let calls ← MacroCalls.rederiveKeeping w.source.macroCalls root budget
    let renamed := records.foldl (fun t r => t.modify r.id (Mangle.renameVariable r)) calls
    pure (⟨root, { w.source with macroCalls := renamed }⟩, records)

end CelEdit
