import CelEdit.Digest.SipHash
import CelEdit.Expr.Kind
import CelEdit.Source.Extension

/-!
# Digests of values

A value is written as bytes from which it could be read back, and the digest is taken of these. The
parts of a record follow each other; an alternative starts with its number, a list with its length;
a text ends with a byte that no text contains. Of a child only the digest enters.
-/

namespace CelEdit

namespace Digest

/-- Digests have one round for each word and three at the end, under the key zero. -/
def ofBytes (bytes : List UInt8) : UInt64 := SipHash.digest ⟨1, 3⟩ ⟨0, 0⟩ bytes

/-- The eight bytes of a word, the lowest first. -/
def word (w : UInt64) : List UInt8 :=
  (List.range 8).map (fun i => (w >>> UInt64.ofNat (8 * i)).toUInt8)

def number (n : Nat) : List UInt8 := word (UInt64.ofNat n)

def flag (b : Bool) : List UInt8 := [if b then 1 else 0]

def text (s : String) : List UInt8 := s.toUTF8.toList ++ [0xff]

def optional {α : Type} (bytes : α → List UInt8) : Option α → List UInt8
  | none => number 0
  | some a => number 1 ++ bytes a

def counted {α : Type} (bytes : α → List UInt8) (items : List α) : List UInt8 :=
  number items.length ++ items.flatMap bytes

end Digest

open Digest

def Constant.digestBytes : Constant → List UInt8
  | .null => number 0
  | .bool b => number 1 ++ flag b
  | .int i => number 2 ++ word i.toUInt64
  | .uint u => number 3 ++ word u
  | .double d => number 4 ++ word d.bits
  | .string s => number 5 ++ text s
  | .bytes b => number 6 ++ counted (fun x => [x]) b

def StructEntry.digestBytes (e : StructEntry UInt64) : List UInt8 :=
  word e.id.value ++ text e.fieldKey ++ word e.value ++ flag e.optionalEntry

def MapEntry.digestBytes (e : MapEntry UInt64) : List UInt8 :=
  word e.id.value ++ word e.key ++ word e.value ++ flag e.optionalEntry

/-- The bytes of a node without its id, given the digests of its children. -/
def Kind.digestBytes : Kind UInt64 → List UInt8
  | .notSet => number 0
  | .constant c => number 1 ++ c.digestBytes
  | .ident i => number 2 ++ text i.name
  | .select s => number 3 ++ word s.operand ++ text s.field ++ flag s.testOnly
  | .call c => number 4 ++ optional word c.target ++ text c.function ++ counted word c.args
  | .list l => number 5 ++ counted word l.elements ++ counted word l.optionalIndices.toList
  | .struct s => number 6 ++ text s.messageName ++ counted StructEntry.digestBytes s.entries
  | .map m => number 7 ++ counted MapEntry.digestBytes m.entries
  | .comprehension c =>
    number 8 ++ text c.iterVar ++ word c.iterRange ++ text c.accuVar ++ word c.accuInit ++
      word c.loopCondition ++ word c.loopStep ++ word c.result

/-- The digest of a node, given those of its children. -/
def Kind.nodeDigest (id : NodeId) (k : Kind UInt64) : UInt64 := ofBytes (word id.value ++ k.digestBytes)

def Constant.digest (c : Constant) : UInt64 := ofBytes c.digestBytes

/-- The components do not enter, as they do not enter the comparison. -/
def Extension.digest (e : Extension) : UInt64 :=
  ofBytes (text e.name ++ word e.version.major ++ word e.version.minor)

end CelEdit
