import CelEdit.Json.Value
import CelEdit.Workspace

/-!
# Reading documents

A reader gets the number of containers that may still be nested and a JSON value. Every array and
every object that is read takes one from that number; members that no reader asks for are not looked
at. A record is an object with its fields in any order, none twice, or an array of its fields in their
fixed order. An alternative without content is its name or an object that maps its name to null.
-/

namespace CelEdit

/-- Reads a value inside of at most so many further containers. -/
abbrev Reader (α : Type) := (room : Nat) → Json → Option α

namespace Reader

variable {α : Type}

def nat (limit : Nat) : Reader Nat := fun _ j =>
  match j with
  | .number n => n.toNat?.filter (· < limit)
  | _ => none

def uint64 : Reader UInt64 := fun room j => (nat UInt64.size room j).map UInt64.ofNat

def uint32 : Reader UInt32 := fun room j => (nat UInt32.size room j).map UInt32.ofNat

def uint8 : Reader UInt8 := fun room j => (nat UInt8.size room j).map UInt8.ofNat

def int64 : Reader Int64 := fun _ j =>
  match j with
  | .number n =>
    (n.toInt?.filter (fun i => Int64.minValue.toInt ≤ i ∧ i ≤ Int64.maxValue.toInt)).map Int64.ofInt
  | _ => none

def double : Reader Double := fun _ j =>
  match j with
  | .number n => Double.ofNumeral? n
  | _ => none

def bool : Reader Bool := fun _ j =>
  match j with
  | .bool b => some b
  | _ => none

def string : Reader String := fun _ j =>
  match j with
  | .string units => Json.decodeString units
  | _ => none

def nodeId : Reader NodeId := fun room j => (uint64 room j).map NodeId.mk

def option (read : Reader α) : Reader (Option α) := fun room j =>
  match j with
  | .null => some none
  | j => (read room j).map some

def list (read : Reader α) : Reader (List α)
  | room + 1, .array items => items.mapM (read room)
  | _, _ => none

/-- An id that is the key of an object: its decimal digits, without escapes or leading zeros. -/
def idKey (units : List Json.StringUnit) : Option NodeId := do
  let digits ← Json.plainText? units
  if Numeral.canonicalDigits digits ∧ digitsValue digits < UInt64.size then
    some ⟨UInt64.ofNat (digitsValue digits)⟩
  else none

/-- A table keyed by ids; of a repeated key the last value stays. -/
def idMap (read : Reader α) : Reader (IdMap α)
  | room + 1, .object members => do
    let entries ← members.mapM fun (key, v) => do
      let id ← idKey key
      let value ← read room v
      pure (id, value)
    pure (IdMap.ofList entries)
  | _, _ => none

/-- The values given for the named fields, each at most once, and the room inside of the record. -/
def fields (names : List String) : (room : Nat) → Json → Option (Nat × List (Option Json))
  | room + 1, .array items =>
    if items.length ≤ names.length then
      some (room, items.map some ++ List.replicate (names.length - items.length) none)
    else none
  | room + 1, .object members => do
    let named ← members.mapM fun (key, v) => do
      let name ← Json.decodeString key
      pure (name, v)
    let values ← names.mapM fun name =>
      match named.filter (fun m => m.1 = name) with
      | [] => some none
      | [m] => some (some m.2)
      | _ => none
    pure (room, values)
  | _, _ => none

/-- A field that has to be given. -/
def required (read : Reader α) (room : Nat) (field : Option Json) : Option α :=
  field.bind (read room)

/-- A field that may be left out. -/
def defaulting (read : Reader α) (default : α) (room : Nat) : Option Json → Option α
  | none => some default
  | some j => read room j

/-- The name of an alternative, and its content with the room for it. -/
def alternative : (room : Nat) → Json → Option (String × Option (Nat × Json))
  | _, .string units => (Json.decodeString units).map (fun name => (name, none))
  | room + 1, .object [(key, v)] =>
    (Json.decodeString key).map (fun name => (name, some (room, v)))
  | _, _ => none

def noContent (value : α) : Option (Nat × Json) → Option α
  | none => some value
  | some (_, .null) => some value
  | some _ => none

def content (read : Reader α) : Option (Nat × Json) → Option α
  | some (room, j) => read room j
  | none => none

end Reader

open Reader

def Constant.read : Reader Constant := fun room j => do
  let (name, inner) ← alternative room j
  match name with
  | "Null" => noContent .null inner
  | "Bool" => (content Reader.bool inner).map .bool
  | "Int" => (content int64 inner).map .int
  | "Uint" => (content uint64 inner).map .uint
  | "Double" => (content Reader.double inner).map .double
  | "String" => (content Reader.string inner).map .string
  | "Bytes" => (content (list uint8) inner).map .bytes
  | _ => none

def Ident.read : Reader Ident := fun room j => do
  match ← fields ["name"] room j with
  | (room, [name]) => pure ⟨← required string room name⟩
  | _ => none

section Layers

variable {α : Type} (child : Reader α)

def Select.read : Reader (Select α) := fun room j => do
  match ← fields ["operand", "field", "test_only"] room j with
  | (room, [operand, field, testOnly]) =>
    let operand ← required child room operand
    let field ← required string room field
    let testOnly ← required bool room testOnly
    pure ⟨operand, field, testOnly⟩
  | _ => none

def Call.read : Reader (Call α) := fun room j => do
  match ← fields ["target", "function", "args"] room j with
  | (room, [target, function, args]) =>
    let target ← defaulting (option child) none room target
    let function ← required string room function
    let args ← required (list child) room args
    pure ⟨target, function, args⟩
  | _ => none

def ListLiteral.read : Reader (ListLiteral α) := fun room j => do
  match ← fields ["elements", "optional_indices"] room j with
  | (room, [elements, optionalIndices]) =>
    let elements ← required (list child) room elements
    let optionalIndices ← required (list uint64) room optionalIndices
    pure ⟨elements, .ofList optionalIndices⟩
  | _ => none

def StructEntry.read : Reader (StructEntry α) := fun room j => do
  match ← fields ["id", "field_key", "value", "optional_entry"] room j with
  | (room, [id, fieldKey, value, optionalEntry]) =>
    let id ← required nodeId room id
    let fieldKey ← required string room fieldKey
    let value ← required child room value
    let optionalEntry ← required bool room optionalEntry
    pure ⟨id, fieldKey, value, optionalEntry⟩
  | _ => none

def StructLiteral.read : Reader (StructLiteral α) := fun room j => do
  match ← fields ["message_name", "entries"] room j with
  | (room, [messageName, entries]) =>
    let messageName ← required string room messageName
    let entries ← required (list (StructEntry.read child)) room entries
    pure ⟨messageName, entries⟩
  | _ => none

def MapEntry.read : Reader (MapEntry α) := fun room j => do
  match ← fields ["id", "key", "value", "optional_entry"] room j with
  | (room, [id, key, value, optionalEntry]) =>
    let id ← required nodeId room id
    let key ← required child room key
    let value ← required child room value
    let optionalEntry ← required bool room optionalEntry
    pure ⟨id, key, value, optionalEntry⟩
  | _ => none

def MapLiteral.read : Reader (MapLiteral α) := fun room j => do
  match ← fields ["entries"] room j with
  | (room, [entries]) => pure ⟨← required (list (MapEntry.read child)) room entries⟩
  | _ => none

def Comprehension.read : Reader (Comprehension α) := fun room j => do
  match ← fields ["iter_var", "iter_range", "accu_var", "accu_init", "loop_condition", "loop_step",
      "result"] room j with
  | (room, [iterVar, iterRange, accuVar, accuInit, loopCondition, loopStep, result]) =>
    let iterVar ← required string room iterVar
    let iterRange ← required child room iterRange
    let accuVar ← required string room accuVar
    let accuInit ← required child room accuInit
    let loopCondition ← required child room loopCondition
    let loopStep ← required child room loopStep
    let result ← required child room result
    pure ⟨iterVar, iterRange, accuVar, accuInit, loopCondition, loopStep, result⟩
  | _ => none

def Kind.read : Reader (Kind α) := fun room j => do
  let (name, inner) ← alternative room j
  match name with
  | "NotSet" => noContent .notSet inner
  | "Constant" => (content Constant.read inner).map .constant
  | "Ident" => (content Ident.read inner).map .ident
  | "Select" => (content (Select.read child) inner).map .select
  | "Call" => (content (Call.read child) inner).map .call
  | "List" => (content (ListLiteral.read child) inner).map .list
  | "Struct" => (content (StructLiteral.read child) inner).map .struct
  | "Map" => (content (MapLiteral.read child) inner).map .map
  | "Comprehension" => (content (Comprehension.read child) inner).map .comprehension
  | _ => none

end Layers

/-- Reads a tree of at most so many levels. -/
def Expr.readLevels : (levels : Nat) → Reader Expr
  | 0, _, _ => none
  | levels + 1, room, j => do
    match ← fields ["id", "kind"] room j with
    | (room, [id, kind]) =>
      let id ← required nodeId room id
      let kind ← required (Kind.read (readLevels levels)) room kind
      pure ⟨id, kind⟩
    | _ => none

/-- Reads a tree. It has no more levels than containers. -/
def Expr.read : Reader Expr := fun room j => readLevels room room j

def Component.read : Reader Component := fun room j => do
  let (name, inner) ← alternative room j
  match name with
  | "Parser" => noContent .parser inner
  | "TypeChecker" => noContent .typeChecker inner
  | "Runtime" => noContent .runtime inner
  | _ => none

def Version.read : Reader Version := fun room j => do
  match ← fields ["major", "minor"] room j with
  | (room, [major, minor]) => pure ⟨← required uint64 room major, ← required uint64 room minor⟩
  | _ => none

def Extension.read : Reader Extension := fun room j => do
  match ← fields ["name", "version", "affected_components"] room j with
  | (room, [name, version, components]) =>
    let name ← required string room name
    let version ← required Version.read room version
    let components ← defaulting (list Component.read) [] room components
    pure ⟨name, version, components⟩
  | _ => none

def SourceInfo.read : Reader SourceInfo := fun room j => do
  match ← fields ["description", "line_offsets", "positions", "macro_calls", "extensions"] room j with
  | (room, [description, lineOffsets, positions, macroCalls, extensions]) =>
    let description ← required string room description
    let lineOffsets ← required (list uint32) room lineOffsets
    let positions ← required (idMap uint32) room positions
    let macroCalls ← required (idMap Expr.read) room macroCalls
    let extensions ← required (list Extension.read) room extensions
    pure ⟨description, lineOffsets, positions, macroCalls, extensions⟩
  | _ => none

def Ast.read : Reader Ast := fun room j => do
  match ← fields ["expr", "source", "checked"] room j with
  | (room, [expr, source, checked]) =>
    let expr ← required Expr.read room expr
    let source ← defaulting SourceInfo.read .empty room source
    let checked ← defaulting bool false room checked
    pure ⟨expr, source, checked⟩
  | _ => none

/-- The number of containers that a document may nest. -/
def documentRoom : Nat := 127

/-- Reads a document: one JSON text with a tree and its metadata. -/
def Ast.parse? (document : String) : Option Ast :=
  (Json.parse? document.toList).bind (Ast.read documentRoom)

end CelEdit
