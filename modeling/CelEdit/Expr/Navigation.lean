import CelEdit.Expr.Equality
import CelEdit.Expr.Search
import CelEdit.IdMap

/-!
# Navigation

A visit is a node together with its parent and its depth. A cursor makes visits one by one, in
pre-order, from a stack of pending ones; the parent index is read off the visits below the root.
-/

namespace CelEdit

theorem Expr.nodeCount_mk (id : NodeId) (k : Kind Expr) :
    nodeCount ⟨id, k⟩ = (k.children.map nodeCount).foldr (· + ·) 1 := by
  have hsnd : (k.mapChildren (fun c => (c, nodeCount c))).children.map Prod.snd =
      k.children.map nodeCount := by
    simp
  rw [← hsnd]
  exact fold_eq _ id k

/-- A node and where it stands in its tree. -/
structure Visit where
  expr : Expr
  parent : Option Expr
  depth : Nat

namespace Visit

def root (e : Expr) : Visit := ⟨e, none, 0⟩

def children (v : Visit) : List Visit :=
  v.expr.children.map (fun c => ⟨c, some v.expr, v.depth + 1⟩)

/-- The number of nodes at and below some visits. -/
def nodeCounts (vs : List Visit) : Nat := (vs.map (fun v => v.expr.nodeCount)).foldr (· + ·) 0

theorem nodeCounts_cons (v : Visit) (vs : List Visit) :
    nodeCounts (v :: vs) = v.expr.nodeCount + nodeCounts vs := rfl

theorem nodeCounts_append (vs ws : List Visit) :
    nodeCounts (vs ++ ws) = nodeCounts vs + nodeCounts ws := by
  induction vs with
  | nil => exact (Nat.zero_add _).symm
  | cons v vs ih => rw [List.cons_append, nodeCounts_cons, nodeCounts_cons, ih, Nat.add_assoc]

theorem nodeCount_eq (v : Visit) : v.expr.nodeCount = nodeCounts v.children + 1 := by
  obtain ⟨⟨id, k⟩, parent, depth⟩ := v
  rw [Expr.nodeCount_mk, nodeCounts, children, List.map_map]
  exact (List.foldr_assoc : List.foldr (· + ·) (0 + 1) _ = _)

theorem nodeCounts_reverse (vs : List Visit) : nodeCounts vs.reverse = nodeCounts vs := by
  induction vs with
  | nil => rfl
  | cons v vs ih =>
    rw [List.reverse_cons, nodeCounts_append, ih, nodeCounts_cons, nodeCounts_cons, Nat.add_comm]
    rfl

end Visit

/-- A walk in progress: the visits still to be made, the next one last. -/
structure Cursor where
  stack : Array Visit

namespace Cursor

/-- Makes the next visit. Its children take its place on the stack, the first of them last. -/
def next? (w : Cursor) : Option (Visit × Cursor) :=
  w.stack.back?.map (fun v => (v, ⟨w.stack.pop ++ v.children.toArray.reverse⟩))

theorem next?_eq_some {w rest : Cursor} {v : Visit} (h : w.next? = some (v, rest)) :
    ∃ below : Array Visit, w.stack = below.push v ∧
      rest.stack = below ++ v.children.toArray.reverse := by
  obtain ⟨top, htop, heq⟩ := Option.map_eq_some_iff.1 h
  obtain ⟨below, hstack⟩ := Array.back?_eq_some_iff.1 htop
  cases heq
  refine ⟨below, hstack, ?_⟩
  rw [hstack, Array.pop_push]

theorem nodeCounts_lt {w rest : Cursor} {v : Visit} (h : w.next? = some (v, rest)) :
    Visit.nodeCounts rest.stack.toList < Visit.nodeCounts w.stack.toList := by
  obtain ⟨below, hstack, hrest⟩ := next?_eq_some h
  have hbefore : Visit.nodeCounts w.stack.toList =
      Visit.nodeCounts below.toList + v.expr.nodeCount := by
    rw [hstack, Array.toList_push, Visit.nodeCounts_append]
    rfl
  have hafter : Visit.nodeCounts rest.stack.toList =
      Visit.nodeCounts below.toList + Visit.nodeCounts v.children := by
    rw [hrest, Array.toList_append, Array.toList_reverse, Visit.nodeCounts_append,
      Visit.nodeCounts_reverse]
  rw [hbefore, hafter, Visit.nodeCount_eq]
  omega

/-- All visits still to be made, in order. -/
def toList (w : Cursor) : List Visit :=
  match _h : w.next? with
  | none => []
  | some (v, rest) => v :: rest.toList
termination_by Visit.nodeCounts w.stack.toList
decreasing_by exact nodeCounts_lt _h

end Cursor

namespace Visit

/-- The visit itself and all below it, in pre-order. -/
def preorder (v : Visit) : List Visit := Cursor.toList ⟨#[v]⟩

def below (v : Visit) : List Visit := Cursor.toList ⟨v.children.toArray.reverse⟩

end Visit

/-- The parent ids of the nodes of a tree, by the ids of the nodes. -/
structure ParentIndex where
  parents : IdMap NodeId

namespace ParentIndex

/-- Where several nodes have the same id, the last of them in pre-order counts. -/
def ofExpr (root : Expr) : ParentIndex :=
  ⟨IdMap.ofList ((Visit.root root).below.filterMap
    (fun v => v.parent.map (fun p => (v.expr.id, p.id))))⟩

def parentOf (index : ParentIndex) (id : NodeId) : Option NodeId := index.parents.get? id

/-- Follows the parents upwards in search of `ancestor`. There is no answer when they lead round in a
circle, as they can where nodes share their ids. -/
def climb (index : ParentIndex) (ancestor : NodeId) : (current : Option NodeId) → Option Bool
  | none => some false
  | some id => if id = ancestor then some true else index |>.climb ancestor (index.parentOf id)
partial_fixpoint

/-- Whether the first id is the second one or that of one of its ancestors. -/
def encloses (index : ParentIndex) (ancestor id : NodeId) : Bool :=
  index.climb ancestor (some id) == some true

end ParentIndex

end CelEdit
