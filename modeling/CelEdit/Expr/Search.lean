import CelEdit.Expr.Basic

/-!
# Searching trees

Lookup by id takes the first node in pre-order. Entry ids count for the largest id and not as nodes.
-/

namespace CelEdit.Expr

variable {ι β : Type}

/-- The node of a fold step, put together from its children. -/
def assemble (id : ι) (k : Kind (Expr ι × β)) : Expr ι := ⟨id, k.mapChildren Prod.fst⟩

/-- The first node in pre-order with the given id. -/
def find? (target : NodeId) : Expr → Option Expr :=
  fold fun id k => if id = target then some (assemble id k) else k.children.findSome? Prod.snd

/-- The largest id of nodes and entries. -/
def maxId : Expr → NodeId :=
  fold fun id k => NodeId.largest id (k.entryIds ++ k.children.map Prod.snd)

def nodeCount : Expr → Nat := fold fun _ k => (k.children.map Prod.snd).foldr (· + ·) 1

/-- The nodes in pre-order. -/
def preorder : Expr ι → List (Expr ι) :=
  fold fun id k => assemble id k :: k.children.flatMap Prod.snd

end CelEdit.Expr
