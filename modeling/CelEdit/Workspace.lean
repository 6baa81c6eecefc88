import CelEdit.Expr.Search
import CelEdit.Rendering.Unparse
import CelEdit.Source.Info

/-!
# Workspaces

A tree with its metadata: as a workspace while it is edited, frozen as an `Ast` with the mark whether
it has been type-checked.
-/

namespace CelEdit

structure Workspace where
  root : Expr
  source : SourceInfo
deriving DecidableEq

structure Ast where
  expr : Expr
  source : SourceInfo
  checked : Bool
deriving DecidableEq

namespace Workspace

def ofExpr (root : Expr) : Workspace := ⟨root, .empty⟩

def ofAst (a : Ast) : Workspace := ⟨a.expr, a.source⟩

/-- Freezes a workspace as a parsed tree with all of its metadata. -/
def freezeRetaining (w : Workspace) : Ast := ⟨w.root, w.source, false⟩

/-- Freezes a workspace without what only makes sense for freshly parsed text. -/
def freeze (w : Workspace) : Ast := ⟨w.root, w.source.forgetText, false⟩

/-- The largest id of the tree, of the keys of the macro calls and of the calls. -/
def maxId (w : Workspace) : NodeId :=
  NodeId.largest w.root.maxId
    (w.source.macroCalls.entries.flatMap (fun e => [e.1, e.2.maxId]))

/-- Equality that compares extensions by their tags. -/
def agrees (a b : Workspace) : Bool := a.root = b.root && a.source.agrees b.source

def unparse (w : Workspace) : Except UnparseError String := w.root.unparse w.source.macroCalls

end Workspace

end CelEdit
