import CelEdit.Edit.Error
import CelEdit.IdMap
import CelEdit.Workspace

/-!
# Minting ids

A counter hands out the ids above a largest one in use. A supply also remembers what it gave for
each id, so that one renaming can be carried through a tree and the tables beside it; an unset id
is never remembered and gets a new one every time.
-/

namespace CelEdit

/-- The largest id in use. -/
structure IdCounter where
  max : NodeId
deriving DecidableEq, Inhabited

namespace IdCounter

def ofExpr (e : Expr) : IdCounter := ⟨e.maxId⟩

def ofWorkspace (w : Workspace) : IdCounter := ⟨w.maxId⟩

def next (c : IdCounter) : Except EditError (NodeId × IdCounter) :=
  match c.max.next? with
  | some id => .ok (id, ⟨id⟩)
  | none => .error .idOverflow

end IdCounter

structure IdSupply where
  counter : IdCounter
  exchanged : IdMap NodeId
deriving DecidableEq, Inhabited

/-- A computation that draws ids from a supply. -/
abbrev Mint := StateT IdSupply (Except EditError)

/-- How ids are exchanged for others along a walk. -/
abbrev Renaming := NodeId → Mint NodeId

namespace IdSupply

/-- The first id that it mints follows the seed. -/
def ofSeed (seed : NodeId) : IdSupply := ⟨⟨seed⟩, .empty⟩

/-- The last id minted, or the seed. -/
def maxId (s : IdSupply) : NodeId := s.counter.max

/-- What an id was exchanged for. -/
def exchanged? (s : IdSupply) (id : NodeId) : Option NodeId := s.exchanged.get? id

/-- A new id, whatever has been remembered. -/
def mint : Mint NodeId := do
  let s ← get
  let (id, counter) ← s.counter.next
  set { s with counter := counter }
  pure id

/-- Remembers an exchange. -/
def remember (old new : NodeId) : Mint Unit :=
  modify fun s => { s with exchanged := s.exchanged.insert old new }

/-- The id remembered for a set id, or else a new one. -/
def exchange : Renaming := fun id => do
  if id.isSet then
    match (← get).exchanged? id with
    | some known => pure known
    | none =>
      let fresh ← mint
      remember id fresh
      pure fresh
  else mint

end IdSupply

namespace Renaming

/-- Keeps every id. -/
def keep : Renaming := pure

/-- A new id for each, without remembering it. -/
def fresh : Renaming := fun _ => IdSupply.mint

/-- Leaves unset ids alone. -/
def onSet (rename : Renaming) : Renaming := fun id => if id.isSet then rename id else pure id

end Renaming

end CelEdit
