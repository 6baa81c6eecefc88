import CelEdit.NodeId

/-!
# Failures of edits
-/

namespace CelEdit

/-- Why an edit of a workspace fails. -/
inductive EditError where
  | notFound (id : NodeId)
  | budgetExhausted
  | idOverflow
deriving DecidableEq

def EditError.message : EditError → String
  | .notFound id => "expression " ++ id.display ++ " not found"
  | .budgetExhausted => "Max iteration count reached."
  | .idOverflow => "attempt to add with overflow"

end CelEdit
