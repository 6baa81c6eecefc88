/-!
# Operators

Some global functions are written as operators. A lower level binds tighter.
-/

namespace CelEdit

inductive Operator where
  | conditional
  | binary (symbol : String) (level : Nat)
  | unary (sign : Char)
  | index
  | optionalIndex
  | optionalSelect
deriving DecidableEq

namespace Operator

/-- The operator that a function name stands for. -/
def ofFunction? : String → Option Operator
  | "_?_:_" => some .conditional
  | "_||_" => some (.binary "||" 7)
  | "_&&_" => some (.binary "&&" 6)
  | "_==_" => some (.binary "==" 5)
  | "_!=_" => some (.binary "!=" 5)
  | "_<_" => some (.binary "<" 5)
  | "_<=_" => some (.binary "<=" 5)
  | "_>_" => some (.binary ">" 5)
  | "_>=_" => some (.binary ">=" 5)
  | "@in" => some (.binary "in" 5)
  | "_+_" => some (.binary "+" 4)
  | "_-_" => some (.binary "-" 4)
  | "_*_" => some (.binary "*" 3)
  | "_/_" => some (.binary "/" 3)
  | "_%_" => some (.binary "%" 3)
  | "!_" => some (.unary '!')
  | "-_" => some (.unary '-')
  | "_[_]" => some .index
  | "_[?_]" => some .optionalIndex
  | "_?._" => some .optionalSelect
  | _ => none

def level : Operator → Nat
  | .conditional => 8
  | .binary _ level => level
  | .unary _ => 2
  | .index => 1
  | .optionalIndex => 1
  | .optionalSelect => 1

/-- The number of operands. -/
def arity : Operator → Nat
  | .conditional => 3
  | .binary _ _ => 2
  | .unary _ => 1
  | .index => 2
  | .optionalIndex => 2
  | .optionalSelect => 2

end Operator

end CelEdit
