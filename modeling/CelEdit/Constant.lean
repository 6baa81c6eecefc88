import CelEdit.Double
import CelEdit.Text.Quoted

/-!
# Constants

The literal values of the expression language and their concrete syntax.
-/

namespace CelEdit

inductive Constant where
  | null
  | bool (b : Bool)
  | int (i : Int64)
  | uint (u : UInt64)
  | double (d : Double)
  | string (s : String)
  | bytes (b : List UInt8)
deriving DecidableEq

namespace Constant

/-- Double literals are positional from `0.0001` up to, not including, `1e16`. -/
def doubleLayout : DecimalLayout := ⟨-3, 16⟩

def doubleSource (d : Double) : List Char :=
  match d.read with
  | .nan => ['N', 'a', 'N']
  | .infinite => (if d.negative then ['-'] else []) ++ ['i', 'n', 'f']
  | .finite m p => (Double.numeral doubleLayout d.negative m p).spell

/-- The concrete syntax of a constant. -/
def source : Constant → List Char
  | .null => "null".toList
  | .bool true => "true".toList
  | .bool false => "false".toList
  | .int i => (Numeral.ofInt i.toInt).spell
  | .uint u => (Numeral.ofNat u.toNat).spell ++ ['u']
  | .double d => doubleSource d
  | .string s => Text.quoteString s
  | .bytes b => Text.quoteBytes b

end Constant

end CelEdit
