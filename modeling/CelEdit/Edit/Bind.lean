import CelEdit.Edit.Replace
import CelEdit.Expr.Build

/-!
# Binding a variable

`cel.bind(v, init, result)` is a comprehension over `[null]` that never takes a step: its accumulator
`v` starts with `init`, and `result` is evaluated with it. The result may contain nodes of the host;
their ids are exchanged by a supply that remembers them, so that macro calls of the host apply to the
copies too.
-/

namespace CelEdit.Workspace

/-- The comprehension that binds a variable. -/
def bindComprehension (budget : Nat) (name : String) (init result : Expr) : Mint Expr := do
  let accuInit ← (init.renumber .fresh).run' budget
  let result ← (result.renumber IdSupply.exchange).run' budget
  let null := (Expr.constant .null).withId (← IdSupply.mint)
  let iterRange := (Expr.list [null]).withId (← IdSupply.mint)
  let loopCondition := (Expr.constant (.bool false)).withId (← IdSupply.mint)
  let loopStep := (Expr.ident name).withId (← IdSupply.mint)
  let bound := Expr.comprehension
    ⟨name, iterRange, name, accuInit, loopCondition, loopStep, result⟩
  pure (bound.withId (← IdSupply.mint))

/-- The macro calls of the host that apply inside of the comprehension, and the call of the bind
macro for the comprehension itself. -/
def bindSource (budget : Nat) (bound : Expr) (name : String) (host : SourceInfo) :
    Mint SourceInfo := do
  let receiver := (Expr.ident "cel").withId (← IdSupply.mint)
  let variable_ := (Expr.ident name).withId (← IdSupply.mint)
  let content := match bound.kind with
    | .comprehension c => [c.accuInit, c.result]
    | _ => []
  let call := Expr.memberCall receiver "bind" (variable_ :: content)
  let calls ← MacroCalls.rederive host.macroCalls none bound IdSupply.exchange budget
  pure { SourceInfo.empty with
    macroCalls := calls.insert bound.id call
    extensions := host.extensions }

/-- The workspace that takes the place of the target. -/
def bindDonor (budget : Nat) (host : Workspace) (name : String) (init result : Expr)
    (populate : Bool) : Mint Workspace := do
  let bound ← bindComprehension budget name init result
  let source ← if populate then bindSource budget bound name host.source else pure .empty
  pure ⟨bound, source⟩

/-- Replaces the first node with the target id by `cel.bind(name, init, result)`, with an entry for
the macro if `populate` is set. -/
def replaceByBind (budget : Nat) (host : Workspace) (name : String) (init result : Expr)
    (target : NodeId) (populate : Bool) : Except EditError Workspace := do
  let seed := NodeId.largest init.maxId [host.maxId]
  let donor ← (bindDonor budget host name init result populate).run' (.ofSeed seed)
  replaceBy budget host donor target

end CelEdit.Workspace
