import CelEdit.Json.Value
import CelEdit.Workspace

/-!
# Writing documents

A tree and its metadata as a JSON value. Records are objects with their fields in a fixed order,
alternatives are objects with one member named for the alternative, and ids used as keys are decimal
strings.
-/

namespace CelEdit

namespace Json

def text (s : String) : Json := .string (encodeString s)

def nat (n : Nat) : Json := .number (.ofNat n)

def record (fields : List (String × Json)) : Json :=
  .object (fields.map (fun f => (encodeString f.1, f.2)))

/-- An alternative with content. -/
def variant (name : String) (content : Json) : Json := record [(name, content)]

def ofIdMap {α : Type} (f : α → Json) (t : IdMap α) : Json :=
  .object (t.entries.map (fun e => ((Nat.toDigits 10 e.1.toNat).map .plain, f e.2)))

end Json

namespace Double

/-- Doubles of a document are positional from `0.00001` up to, not including, `1e16`. -/
def documentLayout : DecimalLayout := ⟨-4, 16⟩

/-- What is not finite has no number and is written as null. -/
def toJson (d : Double) : Json :=
  match d.read with
  | .finite m p => .number (numeral documentLayout d.negative m p)
  | _ => .null

end Double

namespace Constant

def toJson : Constant → Json
  | .null => .text "Null"
  | .bool b => .variant "Bool" (.bool b)
  | .int i => .variant "Int" (.number (.ofInt i.toInt))
  | .uint u => .variant "Uint" (.nat u.toNat)
  | .double d => .variant "Double" d.toJson
  | .string s => .variant "String" (.text s)
  | .bytes b => .variant "Bytes" (.array (b.map (fun x => .nat x.toNat)))

end Constant

def Ident.toJson (i : Ident) : Json := .record [("name", .text i.name)]

def Select.toJson (s : Select Json) : Json :=
  .record [("operand", s.operand), ("field", .text s.field), ("test_only", .bool s.testOnly)]

def Call.toJson (c : Call Json) : Json :=
  .record [("target", c.target.getD .null), ("function", .text c.function), ("args", .array c.args)]

def ListLiteral.toJson (l : ListLiteral Json) : Json :=
  .record [("elements", .array l.elements),
    ("optional_indices", .array (l.optionalIndices.toList.map (fun i => .nat i.toNat)))]

def StructEntry.toJson (e : StructEntry Json) : Json :=
  .record [("id", .nat e.id.toNat), ("field_key", .text e.fieldKey), ("value", e.value),
    ("optional_entry", .bool e.optionalEntry)]

def StructLiteral.toJson (s : StructLiteral Json) : Json :=
  .record [("message_name", .text s.messageName),
    ("entries", .array (s.entries.map StructEntry.toJson))]

def MapEntry.toJson (e : MapEntry Json) : Json :=
  .record [("id", .nat e.id.toNat), ("key", e.key), ("value", e.value),
    ("optional_entry", .bool e.optionalEntry)]

def MapLiteral.toJson (m : MapLiteral Json) : Json :=
  .record [("entries", .array (m.entries.map MapEntry.toJson))]

def Comprehension.toJson (c : Comprehension Json) : Json :=
  .record [("iter_var", .text c.iterVar), ("iter_range", c.iterRange), ("accu_var", .text c.accuVar),
    ("accu_init", c.accuInit), ("loop_condition", c.loopCondition), ("loop_step", c.loopStep),
    ("result", c.result)]

def Kind.toJson : Kind Json → Json
  | .notSet => .text "NotSet"
  | .constant c => .variant "Constant" c.toJson
  | .ident i => .variant "Ident" i.toJson
  | .select s => .variant "Select" s.toJson
  | .call c => .variant "Call" c.toJson
  | .list l => .variant "List" l.toJson
  | .struct s => .variant "Struct" s.toJson
  | .map m => .variant "Map" m.toJson
  | .comprehension c => .variant "Comprehension" c.toJson

def Expr.toJson : Expr → Json :=
  fold fun id k => .record [("id", .nat id.toNat), ("kind", (k.mapChildren Prod.snd).toJson)]

def Component.toJson : Component → Json
  | .parser => .text "Parser"
  | .typeChecker => .text "TypeChecker"
  | .runtime => .text "Runtime"

def Version.toJson (v : Version) : Json :=
  .record [("major", .nat v.major.toNat), ("minor", .nat v.minor.toNat)]

def Extension.toJson (e : Extension) : Json :=
  .record [("name", .text e.name), ("version", e.version.toJson),
    ("affected_components", .array (e.affectedComponents.map Component.toJson))]

def SourceInfo.toJson (s : SourceInfo) : Json :=
  .record [("description", .text s.description),
    ("line_offsets", .array (s.lineOffsets.map (fun n => .nat n.toNat))),
    ("positions", .ofIdMap (fun n => .nat n.toNat) s.positions),
    ("macro_calls", .ofIdMap Expr.toJson s.macroCalls),
    ("extensions", .array (s.extensions.map Extension.toJson))]

def Ast.toJson (a : Ast) : Json :=
  .record [("expr", a.expr.toJson), ("source", a.source.toJson), ("checked", .bool a.checked)]

end CelEdit
