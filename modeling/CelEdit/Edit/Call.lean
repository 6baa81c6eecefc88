import CelEdit.Edit.Replace
import CelEdit.Expr.Build

/-!
# Calls of independent trees

A call is built from workspaces that know nothing of each other: each gets ids above those of the
ones before it, so that their ids and macro calls fit into one tree.
-/

namespace CelEdit.Workspace

/-- What a call under construction has taken in. -/
structure Assembly where
  maxId : NodeId
  source : SourceInfo

/-- Takes a workspace into a call and returns its renumbered tree. -/
def takeIn (budget : Nat) (w : Workspace) : StateT Assembly (Except EditError) Expr := do
  let a ← get
  let (stable, g) ← (relocate budget w).run (.ofSeed a.maxId)
  let source := { a.source with
    macroCalls := a.source.macroCalls.union stable.source.macroCalls
    extensions := Extension.merge a.source.extensions stable.source.extensions }
  set (Assembly.mk g.maxId source)
  pure stable.root

/-- The arguments come first, the target last; the call gets the next id. -/
def assembleCall (budget : Nat) (target : Option Workspace) (function : String)
    (args : List Workspace) : Except EditError Workspace := do
  let build : StateT Assembly (Except EditError) Expr := do
    let args ← args.mapM (takeIn budget)
    match target with
    | some target => pure (Expr.memberCall (← takeIn budget target) function args)
    | none => pure (Expr.call function args)
  let (call, a) ← build.run ⟨.unset, .empty⟩
  let (id, _) ← (IdCounter.mk a.maxId).next
  pure ⟨call.withId id, a.source⟩

def globalCall (budget : Nat) (function : String) (args : List Workspace) :
    Except EditError Workspace :=
  assembleCall budget none function args

def memberCall (budget : Nat) (target : Workspace) (function : String)
    (args : List Workspace) : Except EditError Workspace :=
  assembleCall budget (some target) function args

end CelEdit.Workspace
