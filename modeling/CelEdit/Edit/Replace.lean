import CelEdit.Edit.MacroCalls

/-!
# Replacing subtrees

A replacement renumbers the whole tree. First the donor gets ids above all that are in use; then a
second supply renumbers the host, and the root of the donor takes the id that the target is
exchanged for. So tables keyed by ids follow both trees through the same renaming. Every walk may
visit as many nodes as the budget says.
-/

namespace CelEdit.Workspace

/-- Moves all ids of a workspace into the range of a supply. -/
def relocate (budget : Nat) (w : Workspace) : Mint Workspace := do
  let root ← (w.root.renumber IdSupply.exchange).run' budget
  let calls ← MacroCalls.rederive w.source.macroCalls none root IdSupply.exchange budget
  pure ⟨root, { SourceInfo.empty with macroCalls := calls, extensions := w.source.extensions }⟩

/-- Renumbers a tree while the donor, as long as it is pending, takes the place of the target. -/
def transplant (target : NodeId) : Expr → StateT (Option Expr) (Walk Mint) Expr :=
  Expr.fold fun id k => do
    (Walk.pay : Walk Mint Unit)
    let pending : Option Expr ← get
    match if id = target then pending else none with
    | some donor =>
      set (none : Option Expr)
      let placed ← IdSupply.exchange target
      IdSupply.remember donor.id placed
      donor.renumber IdSupply.exchange
    | none =>
      let id ← IdSupply.exchange id
      let k ← k.traverseEntryIds (fun entry => liftM (IdSupply.exchange entry))
      let k ← k.traverse Prod.snd
      pure ⟨id, k⟩

/-- The host with the relocated donor in the place of the target. -/
def transplantDonor (budget : Nat) (host donor : Workspace) (target : NodeId) : Mint Workspace := do
  let (root, pending) ← ((transplant target host.root).run (some donor.root)).run' budget
  if pending.isSome then throw (.notFound target)
  let replaced ← IdSupply.exchange target
  let combined := (host.source.macroCalls.erase target).union donor.source.macroCalls
  let calls ← MacroCalls.rederive combined (some replaced) root IdSupply.exchange budget
  let source := { host.source with
    macroCalls := calls
    extensions := Extension.merge host.source.extensions donor.source.extensions }
  pure ⟨root, source.forgetText⟩

/-- The host as it is, with the extensions of both. -/
def adoptExtensions (budget : Nat) (host donor : Workspace) : Except EditError Workspace := do
  let calls ← MacroCalls.rederiveKeeping host.source.macroCalls host.root budget
  let source := { host.source with
    macroCalls := calls
    extensions := Extension.merge host.source.extensions donor.source.extensions }
  pure ⟨host.root, source.forgetText⟩

/-- Replaces the first node with the target id by the root of the donor, whose macro calls and
extensions come along. A donor that equals the target changes nothing in the tree. -/
def replaceBy (budget : Nat) (host donor : Workspace) (target : NodeId) :
    Except EditError Workspace :=
  match if target.isSet then host.root.find? target else none with
  | none => .error (.notFound target)
  | some existing =>
    if donor.root.id = target ∧ existing = donor.root then adoptExtensions budget host donor
    else do
      let seed := NodeId.largest host.maxId [donor.maxId]
      let (donor, supply) ← (relocate budget donor).run (.ofSeed seed)
      (transplantDonor budget host donor target).run' (.ofSeed supply.maxId)

/-- Replaces the first node with the target id by an expression. -/
def replace (budget : Nat) (host : Workspace) (e : Expr) (target : NodeId) :
    Except EditError Workspace :=
  replaceBy budget host (.ofExpr e) target

/-- Numbers the tree from one, in pre-order. Positions of ids outside of the tree are dropped. -/
def renumber (budget : Nat) (w : Workspace) : Except EditError Workspace := do
  let (root, g) ← ((w.root.renumber IdSupply.exchange).run' budget).run (.ofSeed .unset)
  let positions := w.source.positions.entries.filterMap fun (id, offset) =>
    (g.exchanged? id).map (fun new => (new, offset))
  let calls ←
    (MacroCalls.rederive w.source.macroCalls none root IdSupply.exchange budget).run' g
  pure ⟨root, { w.source with positions := .ofList positions, macroCalls := calls }⟩

end CelEdit.Workspace
