/-!
# Quoted literals

String and bytes literals of the expression language. A string escapes the quote, the backslash and
three controls; a byte outside the printable ASCII range is written as two hexadecimal digits.
-/

namespace CelEdit.Text

def hexDigit (n : Nat) : Char := Nat.digitChar n

/-- The two lower-case hexadecimal digits of a byte. -/
def hexByte (b : UInt8) : List Char := [hexDigit (b.toNat / 16), hexDigit (b.toNat % 16)]

def escapeChar (c : Char) : List Char :=
  if c = '"' then ['\\', '"']
  else if c = '\\' then ['\\', '\\']
  else if c = '\n' then ['\\', 'n']
  else if c = '\r' then ['\\', 'r']
  else if c = '\t' then ['\\', 't']
  else [c]

def escapeByte (b : UInt8) : List Char :=
  if b = 0x22 then ['\\', '"']
  else if b = 0x5C then ['\\', '\\']
  else if 0x20 ≤ b ∧ b ≤ 0x7E then [Char.ofNat b.toNat]
  else '\\' :: 'x' :: hexByte b

/-- A string literal. -/
def quoteString (s : String) : List Char := '"' :: s.toList.flatMap escapeChar ++ ['"']

/-- A bytes literal. -/
def quoteBytes (bytes : List UInt8) : List Char := 'b' :: '"' :: bytes.flatMap escapeByte ++ ['"']

end CelEdit.Text
