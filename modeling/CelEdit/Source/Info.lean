import CelEdit.Expr.Equality
import CelEdit.IdMap
import CelEdit.Source.Extension

/-!
# Source metadata

What a parser records beside a tree. A macro call is keyed by the id of the node that the macro
expanded to; the call itself is an independent tree, the shadow of that node.
-/

namespace CelEdit

structure SourceInfo where
  description : String
  lineOffsets : List UInt32
  positions : IdMap UInt32
  macroCalls : IdMap Expr
  extensions : List Extension
deriving DecidableEq

namespace SourceInfo

def empty : SourceInfo := ⟨"", [], .empty, .empty, []⟩

instance : Inhabited SourceInfo := ⟨empty⟩

/-- Drops what only makes sense for freshly parsed text. -/
def forgetText (s : SourceInfo) : SourceInfo :=
  { s with description := "", lineOffsets := [], positions := .empty }

def addMacroCall (s : SourceInfo) (id : NodeId) (call : Expr) : SourceInfo :=
  { s with macroCalls := s.macroCalls.insert id call }

def addExtension (s : SourceInfo) (e : Extension) : SourceInfo :=
  { s with extensions := s.extensions ++ [e] }

/-- Equality that compares extensions by their tags. -/
def agrees (a b : SourceInfo) : Bool :=
  a.description = b.description && a.lineOffsets = b.lineOffsets && a.positions = b.positions
    && a.macroCalls = b.macroCalls && a.extensions == b.extensions

end SourceInfo

end CelEdit
