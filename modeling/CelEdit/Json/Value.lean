import CelEdit.Json.Token

/-!
# JSON values

A value is read from tokens by a machine with a stack of open containers, and written either without
blanks or with one line per item. Members of an object keep their order and may repeat a key.
-/

namespace CelEdit

inductive Json where
  | null
  | bool (b : Bool)
  | number (n : Numeral)
  | string (units : List Json.StringUnit)
  | array (items : List Json)
  | object (members : List (List Json.StringUnit × Json))

namespace Json

/-- A container that is being read: what it holds so far, the last first. -/
inductive Frame where
  | array (items : List Json)
  | member (members : List (List StringUnit × Json)) (key : List StringUnit)

/-- What may come next, inside of the open containers. -/
inductive State where
  | value (stack : List Frame)
  | firstItem (stack : List Frame)
  | firstKey (stack : List Frame)
  | nextKey (members : List (List StringUnit × Json)) (stack : List Frame)
  | needColon (members : List (List StringUnit × Json)) (key : List StringUnit)
    (stack : List Frame)
  | complete (v : Json) (stack : List Frame)

namespace State

def beginValue (stack : List Frame) : Token → Option State
  | .null => some (.complete .null stack)
  | .bool b => some (.complete (.bool b) stack)
  | .number n => some (.complete (.number n) stack)
  | .string units => some (.complete (.string units) stack)
  | .openBracket => some (.firstItem stack)
  | .openBrace => some (.firstKey stack)
  | _ => none

def step : State → Token → Option State
  | .value stack, token => beginValue stack token
  | .firstItem stack, .closeBracket => some (.complete (.array []) stack)
  | .firstItem stack, token => beginValue (.array [] :: stack) token
  | .firstKey stack, .closeBrace => some (.complete (.object []) stack)
  | .firstKey stack, .string key => some (.needColon [] key stack)
  | .nextKey members stack, .string key => some (.needColon members key stack)
  | .needColon members key stack, .colon => some (.value (.member members key :: stack))
  | .complete v (.array items :: stack), .comma => some (.value (.array (v :: items) :: stack))
  | .complete v (.array items :: stack), .closeBracket =>
    some (.complete (.array (v :: items).reverse) stack)
  | .complete v (.member members key :: stack), .comma =>
    some (.nextKey ((key, v) :: members) stack)
  | .complete v (.member members key :: stack), .closeBrace =>
    some (.complete (.object ((key, v) :: members).reverse) stack)
  | _, _ => none

end State

/-- The value that a sequence of tokens spells. -/
def ofTokens? (tokens : List Token) : Option Json :=
  match tokens.foldlM State.step (.value []) with
  | some (.complete v []) => some v
  | _ => none

/-- Reads a text that holds one value and blanks around it. -/
def parse? (text : List Char) : Option Json := (tokenize text).bind ofTokens?

mutual

/-- The tokens of a value. -/
def tokens : Json → List Token
  | .null => [.null]
  | .bool b => [.bool b]
  | .number n => [.number n]
  | .string units => [.string units]
  | .array [] => [.openBracket, .closeBracket]
  | .array (item :: items) => .openBracket :: tokens item ++ itemTokens items
  | .object [] => [.openBrace, .closeBrace]
  | .object ((key, v) :: members) =>
    .openBrace :: .string key :: .colon :: tokens v ++ memberTokens members

def itemTokens : List Json → List Token
  | [] => [.closeBracket]
  | item :: items => .comma :: tokens item ++ itemTokens items

def memberTokens : List (List StringUnit × Json) → List Token
  | [] => [.closeBrace]
  | (key, v) :: members => .comma :: .string key :: .colon :: tokens v ++ memberTokens members

end

/-- The text without blanks. -/
def compact (v : Json) : List Char := v.tokens.flatMap Token.spell

/-- The start of a line at a depth of nesting. -/
def newLine (depth : Nat) : List Char := '\n' :: List.replicate (2 * depth) ' '

mutual

/-- The text with one line per item, starting at a depth of nesting. -/
def prettyAt (depth : Nat) : Json → List Char
  | .array [] => ['[', ']']
  | .array (item :: items) =>
    '[' :: newLine (depth + 1) ++ prettyAt (depth + 1) item ++ prettyItems depth items
  | .object [] => ['\x7b', '\x7d']
  | .object ((key, v) :: members) =>
    '\x7b' :: newLine (depth + 1) ++ spellString key ++ ':' :: ' ' :: prettyAt (depth + 1) v ++
      prettyMembers depth members
  | .null => Token.null.spell
  | .bool b => (Token.bool b).spell
  | .number n => n.spell
  | .string units => spellString units

def prettyItems (depth : Nat) : List Json → List Char
  | [] => newLine depth ++ [']']
  | item :: items =>
    ',' :: newLine (depth + 1) ++ prettyAt (depth + 1) item ++ prettyItems depth items

def prettyMembers (depth : Nat) : List (List StringUnit × Json) → List Char
  | [] => newLine depth ++ ['\x7d']
  | (key, v) :: members =>
    ',' :: newLine (depth + 1) ++ spellString key ++ ':' :: ' ' :: prettyAt (depth + 1) v ++
      prettyMembers depth members

end

def pretty (v : Json) : List Char := prettyAt 0 v

end Json

end CelEdit
