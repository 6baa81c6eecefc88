import CelEdit.Text.Quoted

/-!
# Strings of a JSON text

A string is kept as the characters and escapes between its quotes. Decoding joins surrogate pairs
and refuses a surrogate that stands alone; what is never decoded may contain one.
-/

namespace CelEdit.Json

/-- A character of a string, or an escape for one. -/
inductive StringUnit where
  | plain (c : Char)
  | escaped (letter : Char)
  | code (unit : Nat)
deriving DecidableEq

def hexValue? (c : Char) : Option Nat :=
  if '0' ≤ c ∧ c ≤ '9' then some (c.toNat - '0'.toNat)
  else if 'a' ≤ c ∧ c ≤ 'f' then some (c.toNat - 'a'.toNat + 10)
  else if 'A' ≤ c ∧ c ≤ 'F' then some (c.toNat - 'A'.toNat + 10)
  else none

/-- What the letter after a backslash stands for. -/
def unescape? : Char → Option Char
  | '"' => some '"'
  | '\\' => some '\\'
  | '/' => some '/'
  | 'b' => some '\x08'
  | 'f' => some '\x0c'
  | 'n' => some '\n'
  | 'r' => some '\r'
  | 't' => some '\t'
  | _ => none

/-- Reads a string up to its closing quote, and returns what follows. -/
def scanString : List Char → Option (List StringUnit × List Char)
  | [] => none
  | '"' :: rest => some ([], rest)
  | '\\' :: 'u' :: a :: b :: c :: d :: rest =>
    match hexValue? a, hexValue? b, hexValue? c, hexValue? d with
    | some a, some b, some c, some d =>
      (scanString rest).map fun (units, rest) =>
        (.code (4096 * a + 256 * b + 16 * c + d) :: units, rest)
    | _, _, _, _ => none
  | '\\' :: letter :: rest =>
    if (unescape? letter).isSome then
      (scanString rest).map fun (units, rest) => (.escaped letter :: units, rest)
    else none
  | c :: rest =>
    if c.toNat < 0x20 then none
    else (scanString rest).map fun (units, rest) => (.plain c :: units, rest)

theorem scanString_length {text rest : List Char} {units : List StringUnit}
    (h : scanString text = some (units, rest)) : rest.length < text.length := by
  fun_induction scanString text generalizing units rest with
  | case1 => cases h
  | case2 => cases h; simp
  | case3 a b c d tail _ _ _ _ _ _ _ _ ih =>
    obtain ⟨⟨us, r⟩, hr, heq⟩ := Option.map_eq_some_iff.1 h
    cases heq
    have := ih hr
    simp only [List.length_cons]
    omega
  | case4 => cases h
  | case5 letter tail _ _ ih =>
    obtain ⟨⟨us, r⟩, hr, heq⟩ := Option.map_eq_some_iff.1 h
    cases heq
    have := ih hr
    simp only [List.length_cons]
    omega
  | case6 => cases h
  | case7 => cases h
  | case8 c tail _ _ _ _ ih =>
    obtain ⟨⟨us, r⟩, hr, heq⟩ := Option.map_eq_some_iff.1 h
    cases heq
    have := ih hr
    simp only [List.length_cons]
    omega

def isHighSurrogate (unit : Nat) : Bool := 0xD800 ≤ unit && unit ≤ 0xDBFF

def isLowSurrogate (unit : Nat) : Bool := 0xDC00 ≤ unit && unit ≤ 0xDFFF

/-- The characters that a string stands for. -/
def decodeUnits : List StringUnit → Option (List Char)
  | [] => some []
  | .plain c :: rest => (decodeUnits rest).map (c :: ·)
  | .escaped letter :: rest =>
    (unescape? letter).bind fun c => (decodeUnits rest).map (c :: ·)
  | .code high :: .code low :: rest =>
    if isHighSurrogate high then
      if isLowSurrogate low then
        (decodeUnits rest).map
          (Char.ofNat (0x10000 + 0x400 * (high - 0xD800) + (low - 0xDC00)) :: ·)
      else none
    else if isLowSurrogate high then none
    else (decodeUnits (.code low :: rest)).map (Char.ofNat high :: ·)
  | .code unit :: rest =>
    if isHighSurrogate unit || isLowSurrogate unit then none
    else (decodeUnits rest).map (Char.ofNat unit :: ·)

def decodeString (units : List StringUnit) : Option String :=
  (decodeUnits units).map String.ofList

/-- The unit that writes a character: controls, the quote and the backslash are escaped. -/
def encodeChar (c : Char) : StringUnit :=
  match c with
  | '"' => .escaped '"'
  | '\\' => .escaped '\\'
  | '\x08' => .escaped 'b'
  | '\x0c' => .escaped 'f'
  | '\n' => .escaped 'n'
  | '\r' => .escaped 'r'
  | '\t' => .escaped 't'
  | c => if c.toNat < 0x20 then .code c.toNat else .plain c

def encodeString (s : String) : List StringUnit := s.toList.map encodeChar

def StringUnit.spell : StringUnit → List Char
  | .plain c => [c]
  | .escaped letter => ['\\', letter]
  | .code unit =>
    ['\\', 'u', Text.hexDigit (unit / 4096 % 16), Text.hexDigit (unit / 256 % 16),
      Text.hexDigit (unit / 16 % 16), Text.hexDigit (unit % 16)]

/-- A string with its quotes. -/
def spellString (units : List StringUnit) : List Char :=
  '"' :: units.flatMap StringUnit.spell ++ ['"']

/-- The text of a string without escapes. -/
def plainText? : List StringUnit → Option (List Char)
  | [] => some []
  | .plain c :: rest => (plainText? rest).map (c :: ·)
  | _ => none

end CelEdit.Json
