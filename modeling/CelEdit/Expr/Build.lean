import CelEdit.Expr.Basic

/-!
# Building expressions

One constructor per kind of node. Nodes are built without an id, and entries as not optional.
-/

namespace CelEdit

variable {α : Type}

def StructEntry.of (id : NodeId) (fieldKey : String) (value : α) : StructEntry α :=
  ⟨id, fieldKey, value, false⟩

def MapEntry.of (id : NodeId) (key value : α) : MapEntry α := ⟨id, key, value, false⟩

namespace Expr

def withId (e : Expr) (id : NodeId) : Expr := ⟨id, e.kind⟩

def notSet : Expr := ⟨.unset, .notSet⟩

instance : Inhabited Expr := ⟨notSet⟩

def constant (value : Constant) : Expr := ⟨.unset, .constant value⟩

def ident (name : String) : Expr := ⟨.unset, .ident ⟨name⟩⟩

def select (operand : Expr) (field : String) : Expr := ⟨.unset, .select ⟨operand, field, false⟩⟩

/-- The test that a field is present. -/
def hasField (operand : Expr) (field : String) : Expr :=
  ⟨.unset, .select ⟨operand, field, true⟩⟩

def call (function : String) (args : List Expr) : Expr := ⟨.unset, .call ⟨none, function, args⟩⟩

def memberCall (target : Expr) (function : String) (args : List Expr) : Expr :=
  ⟨.unset, .call ⟨some target, function, args⟩⟩

def optionalList (elements : List Expr) (optionalIndices : IndexSet) : Expr :=
  ⟨.unset, .list ⟨elements, optionalIndices⟩⟩

def list (elements : List Expr) : Expr := optionalList elements .empty

def struct (messageName : String) (entries : List (StructEntry Expr)) : Expr :=
  ⟨.unset, .struct ⟨messageName, entries⟩⟩

def map (entries : List (MapEntry Expr)) : Expr := ⟨.unset, .map ⟨entries⟩⟩

def comprehension (c : Comprehension Expr) : Expr := ⟨.unset, .comprehension c⟩

end Expr

end CelEdit
