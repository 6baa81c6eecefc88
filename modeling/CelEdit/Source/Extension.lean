/-!
# Extension tags

An extension marks an optional language feature that a tree depends on. Name and version make the
tag; the affected components are only reported.
-/

namespace CelEdit

inductive Component where
  | parser
  | typeChecker
  | runtime
deriving DecidableEq

structure Version where
  major : UInt64
  minor : UInt64
deriving DecidableEq

def Version.order (a b : Version) : Ordering :=
  (compare a.major b.major).then (compare a.minor b.minor)

structure Extension where
  name : String
  version : Version
  affectedComponents : List Component
deriving DecidableEq

namespace Extension

def tag (e : Extension) : String × Version := (e.name, e.version)

instance : BEq Extension := ⟨fun a b => a.tag = b.tag⟩

/-- A tag as text: name, at sign, version. -/
def display (e : Extension) : String :=
  e.name ++ "@" ++ String.ofList (Nat.toDigits 10 e.version.major.toNat) ++ "." ++
    String.ofList (Nat.toDigits 10 e.version.minor.toNat)

/-- Keeps the extensions whose tag is neither among `seen` nor carried by an earlier one. -/
def firstOccurrences (seen : List (String × Version)) : List Extension → List Extension
  | [] => []
  | e :: es =>
    if e.tag ∈ seen then firstOccurrences seen es
    else e :: firstOccurrences (e.tag :: seen) es

/-- The extensions of both lists, each tag where it first appears. -/
def merge (first second : List Extension) : List Extension := firstOccurrences [] (first ++ second)

end Extension

end CelEdit
