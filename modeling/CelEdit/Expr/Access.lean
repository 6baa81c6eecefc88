import CelEdit.Expr.Kind

/-!
# Access by kind

Reading or changing the content of a node as one expected kind. A node of another kind is refused
with both tags.
-/

namespace CelEdit

/-- A node was taken for a kind that it does not have. -/
structure AccessError where
  expected : KindTag
  actual : KindTag
deriving DecidableEq

def AccessError.message (e : AccessError) : String :=
  "Invalid ExprKind: expected " ++ e.expected.display ++ ", found " ++ e.actual.display

namespace Kind

variable {α : Type}

def expectConstant : Kind α → Except AccessError Constant
  | .constant c => .ok c
  | k => .error ⟨.constant, k.tag⟩

def expectIdent : Kind α → Except AccessError Ident
  | .ident i => .ok i
  | k => .error ⟨.ident, k.tag⟩

def expectSelect : Kind α → Except AccessError (Select α)
  | .select s => .ok s
  | k => .error ⟨.select, k.tag⟩

def expectCall : Kind α → Except AccessError (Call α)
  | .call c => .ok c
  | k => .error ⟨.call, k.tag⟩

def expectList : Kind α → Except AccessError (ListLiteral α)
  | .list l => .ok l
  | k => .error ⟨.list, k.tag⟩

def expectStruct : Kind α → Except AccessError (StructLiteral α)
  | .struct s => .ok s
  | k => .error ⟨.struct, k.tag⟩

def expectMap : Kind α → Except AccessError (MapLiteral α)
  | .map m => .ok m
  | k => .error ⟨.map, k.tag⟩

def expectComprehension : Kind α → Except AccessError (Comprehension α)
  | .comprehension c => .ok c
  | k => .error ⟨.comprehension, k.tag⟩

def updateIdent (f : Ident → Ident) (k : Kind α) : Except AccessError (Kind α) :=
  k.expectIdent.map (fun i => .ident (f i))

def updateSelect (f : Select α → Select α) (k : Kind α) : Except AccessError (Kind α) :=
  k.expectSelect.map (fun s => .select (f s))

def updateCall (f : Call α → Call α) (k : Kind α) : Except AccessError (Kind α) :=
  k.expectCall.map (fun c => .call (f c))

def updateList (f : ListLiteral α → ListLiteral α) (k : Kind α) : Except AccessError (Kind α) :=
  k.expectList.map (fun l => .list (f l))

def updateStruct (f : StructLiteral α → StructLiteral α) (k : Kind α) :
    Except AccessError (Kind α) :=
  k.expectStruct.map (fun s => .struct (f s))

def updateMap (f : MapLiteral α → MapLiteral α) (k : Kind α) : Except AccessError (Kind α) :=
  k.expectMap.map (fun m => .map (f m))

def updateComprehension (f : Comprehension α → Comprehension α) (k : Kind α) :
    Except AccessError (Kind α) :=
  k.expectComprehension.map (fun c => .comprehension (f c))

end Kind

/-- Appends an element. An optional one enters its position into the set of optional positions. -/
def ListLiteral.push {α : Type} (l : ListLiteral α) (element : α) (optional : Bool) :
    ListLiteral α :=
  ⟨l.elements ++ [element],
    if optional then l.optionalIndices.insert (UInt64.ofNat l.elements.length)
    else l.optionalIndices⟩

end CelEdit
