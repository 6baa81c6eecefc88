import CelEdit.Constant
import CelEdit.NodeId

/-!
# Kinds of nodes

One layer of an expression tree: what a node is, over an arbitrary type of direct children. Children
are always met in the same order: the operand; the target, then the arguments; the elements; the
values of struct entries; key and value of each map entry; range, initial value, condition, step and
result of a comprehension.
-/

namespace CelEdit

/-- A set of list positions, in ascending order. -/
structure IndexSet where
  toList : List UInt64
  sorted : toList.Pairwise (· < ·)
deriving DecidableEq

namespace IndexSet

def empty : IndexSet := ⟨[], .nil⟩

def insertIndex (i : UInt64) : List UInt64 → List UInt64
  | [] => [i]
  | j :: js => if i < j then i :: j :: js else if i = j then j :: js else j :: insertIndex i js

theorem mem_insertIndex {i x : UInt64} {js : List UInt64} (h : x ∈ insertIndex i js) :
    x = i ∨ x ∈ js := by
  induction js with
  | nil => simpa [insertIndex] using h
  | cons j js ih =>
    unfold insertIndex at h
    grind

theorem sorted_insertIndex (i : UInt64) {js : List UInt64} (h : js.Pairwise (· < ·)) :
    (insertIndex i js).Pairwise (· < ·) := by
  induction js with
  | nil => simp [insertIndex]
  | cons j js ih =>
    obtain ⟨hj, hjs⟩ := List.pairwise_cons.1 h
    unfold insertIndex
    split
    · next hlt =>
      refine List.pairwise_cons.2 ⟨fun x hx => ?_, h⟩
      rcases List.mem_cons.1 hx with rfl | hx
      · exact hlt
      · exact UInt64.lt_trans hlt (hj x hx)
    · next hlt =>
      split
      · exact h
      · next hne =>
        refine List.pairwise_cons.2 ⟨fun x hx => ?_, ih hjs⟩
        rcases mem_insertIndex hx with rfl | hx
        · exact UInt64.lt_of_le_of_ne (UInt64.not_lt.1 hlt) (Ne.symm hne)
        · exact hj x hx

def insert (s : IndexSet) (i : UInt64) : IndexSet :=
  ⟨insertIndex i s.toList, sorted_insertIndex i s.sorted⟩

def ofList (is : List UInt64) : IndexSet := is.foldl insert empty

def contains (s : IndexSet) (i : Nat) : Bool := s.toList.any (fun j => j.toNat = i)

def isEmpty (s : IndexSet) : Bool := s.toList.isEmpty

end IndexSet

/-- A reference to a variable. -/
structure Ident where
  name : String
deriving DecidableEq

/-- A field selection, or the test that the field is present. -/
structure Select (α : Type) where
  operand : α
  field : String
  testOnly : Bool
deriving DecidableEq

/-- A call: global without a target, of a member with one. Operators are global calls. -/
structure Call (α : Type) where
  target : Option α
  function : String
  args : List α
deriving DecidableEq

/-- A list literal; the elements at optional positions may be absent. -/
structure ListLiteral (α : Type) where
  elements : List α
  optionalIndices : IndexSet
deriving DecidableEq

structure StructEntry (α : Type) where
  id : NodeId
  fieldKey : String
  value : α
  optionalEntry : Bool
deriving DecidableEq

/-- A message literal. -/
structure StructLiteral (α : Type) where
  messageName : String
  entries : List (StructEntry α)
deriving DecidableEq

structure MapEntry (α : Type) where
  id : NodeId
  key : α
  value : α
  optionalEntry : Bool
deriving DecidableEq

/-- A map literal. -/
structure MapLiteral (α : Type) where
  entries : List (MapEntry α)
deriving DecidableEq

/-- A fold over a range. The accumulator is visible in the condition, the step and the result, the
iteration variable in the condition and the step only. -/
structure Comprehension (α : Type) where
  iterVar : String
  iterRange : α
  accuVar : String
  accuInit : α
  loopCondition : α
  loopStep : α
  result : α
deriving DecidableEq

/-- What a node is. -/
inductive Kind (α : Type) where
  | notSet
  | constant (value : Constant)
  | ident (ident : Ident)
  | select (select : Select α)
  | call (call : Call α)
  | list (list : ListLiteral α)
  | struct (literal : StructLiteral α)
  | map (literal : MapLiteral α)
  | comprehension (comprehension : Comprehension α)
deriving DecidableEq

/-- The kind of a node without its content. -/
inductive KindTag where
  | notSet | constant | ident | select | call | list | struct | map | comprehension
deriving DecidableEq

/-- The name of a kind in dumps and messages. -/
def KindTag.display : KindTag → String
  | .notSet => "NOT_SET"
  | .constant => "CONSTANT"
  | .ident => "IDENT"
  | .select => "SELECT"
  | .call => "CALL"
  | .list => "CREATE_LIST"
  | .struct => "CREATE_STRUCT"
  | .map => "CREATE_MAP"
  | .comprehension => "COMPREHENSION"

namespace Kind

variable {α β : Type}

def tag : Kind α → KindTag
  | .notSet => .notSet
  | .constant _ => .constant
  | .ident _ => .ident
  | .select _ => .select
  | .call _ => .call
  | .list _ => .list
  | .struct _ => .struct
  | .map _ => .map
  | .comprehension _ => .comprehension

/-- The direct children, in order. -/
def children : Kind α → List α
  | .notSet => []
  | .constant _ => []
  | .ident _ => []
  | .select s => [s.operand]
  | .call c => c.target.toList ++ c.args
  | .list l => l.elements
  | .struct s => s.entries.map StructEntry.value
  | .map m => m.entries.flatMap (fun e => [e.key, e.value])
  | .comprehension c => [c.iterRange, c.accuInit, c.loopCondition, c.loopStep, c.result]

/-- The ids of the struct or map entries, in order. -/
def entryIds : Kind α → List NodeId
  | .struct s => s.entries.map StructEntry.id
  | .map m => m.entries.map MapEntry.id
  | _ => []

/-- Applies a function to every child. -/
def mapChildren (f : α → β) : Kind α → Kind β
  | .notSet => .notSet
  | .constant c => .constant c
  | .ident i => .ident i
  | .select s => .select ⟨f s.operand, s.field, s.testOnly⟩
  | .call c => .call ⟨c.target.map f, c.function, c.args.map f⟩
  | .list l => .list ⟨l.elements.map f, l.optionalIndices⟩
  | .struct s =>
    .struct ⟨s.messageName, s.entries.map (fun e => ⟨e.id, e.fieldKey, f e.value, e.optionalEntry⟩)⟩
  | .map m => .map ⟨m.entries.map (fun e => ⟨e.id, f e.key, f e.value, e.optionalEntry⟩)⟩
  | .comprehension c =>
    .comprehension ⟨c.iterVar, f c.iterRange, c.accuVar, f c.accuInit, f c.loopCondition,
      f c.loopStep, f c.result⟩

variable {m : Type → Type} [Monad m]

/-- Runs a computation on every child, in order. -/
def traverse (f : α → m β) : Kind α → m (Kind β)
  | .notSet => pure .notSet
  | .constant c => pure (.constant c)
  | .ident i => pure (.ident i)
  | .select s => do
    let operand ← f s.operand
    pure (.select ⟨operand, s.field, s.testOnly⟩)
  | .call c => do
    let target ← c.target.mapM f
    let args ← c.args.mapM f
    pure (.call ⟨target, c.function, args⟩)
  | .list l => do
    let elements ← l.elements.mapM f
    pure (.list ⟨elements, l.optionalIndices⟩)
  | .struct s => do
    let entries ← s.entries.mapM fun e => do
      let value ← f e.value
      pure ⟨e.id, e.fieldKey, value, e.optionalEntry⟩
    pure (.struct ⟨s.messageName, entries⟩)
  | .map literal => do
    let entries ← literal.entries.mapM fun e => do
      let key ← f e.key
      let value ← f e.value
      pure ⟨e.id, key, value, e.optionalEntry⟩
    pure (.map ⟨entries⟩)
  | .comprehension c => do
    let iterRange ← f c.iterRange
    let accuInit ← f c.accuInit
    let loopCondition ← f c.loopCondition
    let loopStep ← f c.loopStep
    let result ← f c.result
    pure (.comprehension
      ⟨c.iterVar, iterRange, c.accuVar, accuInit, loopCondition, loopStep, result⟩)

/-- Runs a computation on every entry id, in order. -/
def traverseEntryIds (f : NodeId → m NodeId) : Kind α → m (Kind α)
  | .struct s => do
    let entries ← s.entries.mapM fun e => do
      let id ← f e.id
      pure { e with id := id }
    pure (.struct ⟨s.messageName, entries⟩)
  | .map literal => do
    let entries ← literal.entries.mapM fun e => do
      let id ← f e.id
      pure { e with id := id }
    pure (.map ⟨entries⟩)
  | k => pure k

/-- A kind without its children: everything that a node says about itself. -/
def shape (k : Kind α) : Kind Unit := k.mapChildren (fun _ => ())

end Kind

end CelEdit
