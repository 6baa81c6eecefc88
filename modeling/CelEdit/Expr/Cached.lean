import CelEdit.Digest.Content
import CelEdit.Expr.Access
import CelEdit.Expr.Equality

/-!
# Trees with cached digests

An editable tree keeps at each node the digest of that node, once it has been computed. Comparison
uses two digests at hand to tell trees apart early. Every way to change a node drops its digest, and
the search for a node drops the digests of all nodes that it passes on its way.
-/

namespace CelEdit

/-- What an editable tree keeps at a node: its id, and its digest once that is known. -/
structure Stamp where
  id : NodeId
  digest? : Option UInt64

/-- A tree whose nodes may know their digests. -/
abbrev CachedExpr := Expr Stamp

namespace CachedExpr

def id (e : CachedExpr) : NodeId := (Expr.id e).id

def digest? (e : CachedExpr) : Option UInt64 := (Expr.id e).digest?

/-- A tree without any digest. -/
def ofExpr : Expr → CachedExpr := Expr.relabel fun id => ⟨id, none⟩

/-- The tree itself. -/
def toExpr : CachedExpr → Expr := Expr.relabel Stamp.id

/-- The digest, and the node that knows it. Where it was at hand the node stays as it is; otherwise it
comes from the digests of the children, which stay with them too. -/
def evaluate : CachedExpr → UInt64 × CachedExpr :=
  Expr.fold fun stamp k =>
    match stamp.digest? with
    | some d => (d, ⟨stamp, k.mapChildren Prod.fst⟩)
    | none =>
      let evaluated := k.mapChildren Prod.snd
      let d := Kind.nodeDigest stamp.id (evaluated.mapChildren Prod.fst)
      (d, ⟨⟨stamp.id, some d⟩, evaluated.mapChildren Prod.snd⟩)

def digest (e : CachedExpr) : UInt64 := e.evaluate.1

/-- The tree after its digest has been computed. -/
def fill (e : CachedExpr) : CachedExpr := e.evaluate.2

/-- Whether two digests are at hand and differ. -/
def differ : Option UInt64 → Option UInt64 → Bool
  | some a, some b => a != b
  | _, _ => false

/-- Equality of trees, which looks at the digests before the children. -/
def same : CachedExpr → CachedExpr → Bool :=
  Expr.fold fun stamp k other =>
    stamp.id = other.id && k.tag = other.kind.tag && !differ stamp.digest? other.digest?
      && k.shape = other.kind.shape
      && acceptAll (k.children.map Prod.snd) other.kind.children

def withId (e : CachedExpr) (id : NodeId) : CachedExpr := ⟨⟨id, none⟩, e.kind⟩

def withKind (e : CachedExpr) (k : Kind CachedExpr) : CachedExpr := ⟨⟨e.id, none⟩, k⟩

/-- The outcome of an edit at one node: the node, and whether the edit was refused. -/
abbrev Edited := CachedExpr × Except AccessError Unit

/-- Changes the kind in place. The digest is dropped also when the change is refused. -/
def updateKind (f : Kind CachedExpr → Except AccessError (Kind CachedExpr)) (e : CachedExpr) :
    Edited :=
  match f e.kind with
  | .ok k => (e.withKind k, .ok ())
  | .error error => (e.withKind e.kind, .error error)

/-- The walk to the first node in pre-order with the given id, which is edited there. The state is
the outcome, once there is one: what comes after it stays as it is. -/
def visitFirst (target : NodeId) (edit : CachedExpr → Edited) :
    CachedExpr → StateM (Option (Except AccessError Unit)) CachedExpr :=
  Expr.fold fun stamp k => do
    let node : CachedExpr := ⟨stamp, k.mapChildren Prod.fst⟩
    match ← get with
    | some _ => pure node
    | none =>
      if stamp.id = target then
        let (edited, outcome) := edit node
        set (some outcome)
        pure edited
      else
        let k ← k.traverse Prod.snd
        pure ⟨⟨stamp.id, none⟩, k⟩

/-- Edits the first node in pre-order with the given id. Nodes passed before it lose their digests;
there is no outcome when no node has the id. -/
def editFirst (target : NodeId) (edit : CachedExpr → Edited) (e : CachedExpr) :
    CachedExpr × Option (Except AccessError Unit) :=
  (visitFirst target edit e).run none

end CachedExpr

end CelEdit
