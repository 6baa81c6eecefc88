import CelEdit.NodeId

/-!
# Failures of rendering
-/

namespace CelEdit

/-- Why an expression has no concrete syntax. -/
inductive UnparseError where
  | missingMacroCall (id : NodeId)
  | unsetExpr (id : NodeId)
  | operatorArity (function : String) (expected found : Nat)
deriving DecidableEq

def UnparseError.message : UnparseError → String
  | .missingMacroCall id => "comprehension " ++ id.display ++ " has no macro call"
  | .unsetExpr id => "unset expression " ++ id.display ++ " cannot be rendered"
  | .operatorArity function expected found =>
    "operator " ++ function ++ " expects " ++ String.ofList (Nat.toDigits 10 expected) ++
      " operands, found " ++ String.ofList (Nat.toDigits 10 found)

end CelEdit
