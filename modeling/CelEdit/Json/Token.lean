import CelEdit.Decimal.Numeral
import CelEdit.Json.Text

/-!
# Tokens of a JSON text

Between tokens stand blanks only: space, tab, line feed and carriage return.
-/

namespace CelEdit.Json

inductive Token where
  | openBrace
  | closeBrace
  | openBracket
  | closeBracket
  | colon
  | comma
  | null
  | bool (b : Bool)
  | number (n : Numeral)
  | string (units : List StringUnit)
deriving DecidableEq

def isBlank (c : Char) : Bool := c = ' ' || c = '\t' || c = '\n' || c = '\r'

def isNumberChar (c : Char) : Bool :=
  c.isDigit || c = '-' || c = '+' || c = '.' || c = 'e' || c = 'E'

/-- The token that a single character is. -/
def punctuation? : Char → Option Token
  | '\x7b' => some .openBrace
  | '\x7d' => some .closeBrace
  | '[' => some .openBracket
  | ']' => some .closeBracket
  | ':' => some .colon
  | ',' => some .comma
  | _ => none

/-- The first token of a text that does not start with a blank, and what follows it. -/
def nextToken? : List Char → Option (Token × List Char)
  | 't' :: 'r' :: 'u' :: 'e' :: rest => some (.bool true, rest)
  | 'f' :: 'a' :: 'l' :: 's' :: 'e' :: rest => some (.bool false, rest)
  | 'n' :: 'u' :: 'l' :: 'l' :: rest => some (.null, rest)
  | '"' :: rest => (scanString rest).map fun (units, rest) => (.string units, rest)
  | c :: rest =>
    match punctuation? c with
    | some token => some (token, rest)
    | none =>
      if isNumberChar c then
        (Numeral.parse? (c :: rest.takeWhile isNumberChar)).map fun n =>
          (.number n, rest.dropWhile isNumberChar)
      else none
  | [] => none

theorem nextToken?_length {text rest : List Char} {token : Token}
    (h : nextToken? text = some (token, rest)) : rest.length < text.length := by
  unfold nextToken? at h
  split at h
  · cases h
    simp only [List.length_cons]
    omega
  · cases h
    simp only [List.length_cons]
    omega
  · cases h
    simp only [List.length_cons]
    omega
  · obtain ⟨⟨us, r⟩, hr, heq⟩ := Option.map_eq_some_iff.1 h
    cases heq
    have := scanString_length hr
    simp only [List.length_cons]
    omega
  · next c tail _ _ _ _ =>
    split at h
    · cases h
      simp
    · split at h
      · obtain ⟨n, hn, heq⟩ := Option.map_eq_some_iff.1 h
        cases heq
        have := (List.dropWhile_sublist isNumberChar (l := tail)).length_le
        simp only [List.length_cons]
        omega
      · cases h
  · cases h

/-- All tokens of a text. -/
def tokenize (text : List Char) : Option (List Token) :=
  match text with
  | [] => some []
  | c :: rest =>
    if isBlank c then tokenize rest
    else
      match _h : nextToken? (c :: rest) with
      | some (token, rest) => (tokenize rest).map (token :: ·)
      | none => none
termination_by text.length
decreasing_by
  · simp
  · exact nextToken?_length _h

def Token.spell : Token → List Char
  | .openBrace => ['\x7b']
  | .closeBrace => ['\x7d']
  | .openBracket => ['[']
  | .closeBracket => [']']
  | .colon => [':']
  | .comma => [',']
  | .null => "null".toList
  | .bool true => "true".toList
  | .bool false => "false".toList
  | .number n => n.spell
  | .string units => spellString units

end CelEdit.Json
