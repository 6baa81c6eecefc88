/-!
# Decimal numerals

A numeral is a decimal number as it is written: a sign, the digits before and after the point, and a
power of ten. The same number has many numerals.
-/

namespace CelEdit

/-- The power of ten at the end of a numeral. -/
structure Exponent where
  negative : Bool
  digits : List Char
deriving DecidableEq

/-- A written decimal number; without fraction digits it has no point. -/
structure Numeral where
  negative : Bool
  whole : List Char
  fraction : List Char
  exponent : Option Exponent
deriving DecidableEq

/-- The value of a decimal digit. -/
def digitValue (c : Char) : Nat := c.toNat - '0'.toNat

/-- The number that decimal digits denote. -/
def digitsValue (digits : List Char) : Nat := digits.foldl (fun n c => 10 * n + digitValue c) 0

namespace Numeral

/-- The numeral of a natural number: no leading zeros. -/
def ofNat (n : Nat) : Numeral := ⟨false, Nat.toDigits 10 n, [], none⟩

def ofInt (i : Int) : Numeral := ⟨i < 0, Nat.toDigits 10 i.natAbs, [], none⟩

/-- The integer of a numeral without fraction and exponent. A negative zero is not an integer. -/
def toInt? (n : Numeral) : Option Int :=
  if n.fraction = [] ∧ n.exponent = none then
    if n.negative then
      if digitsValue n.whole = 0 then none else some (-(digitsValue n.whole : Int))
    else some (digitsValue n.whole)
  else none

def toNat? (n : Numeral) : Option Nat :=
  if n.negative then none else n.toInt?.map Int.toNat

/-- The value of the exponent, zero where none is written. -/
def scale (n : Numeral) : Int :=
  match n.exponent with
  | none => 0
  | some e => if e.negative then -(digitsValue e.digits : Int) else digitsValue e.digits

/-- The text of a numeral, without a plus sign in the exponent. -/
def spell (n : Numeral) : List Char :=
  (if n.negative then ['-'] else []) ++ n.whole ++
    (if n.fraction = [] then [] else '.' :: n.fraction) ++
    match n.exponent with
    | none => []
    | some e => 'e' :: ((if e.negative then ['-'] else []) ++ e.digits)

/-- Decimal digits without a superfluous leading zero. -/
def canonicalDigits (digits : List Char) : Bool :=
  match digits with
  | [] => false
  | c :: cs => digits.all Char.isDigit && (c ≠ '0' || cs.isEmpty)

/-- The digits after a point, and what follows them. A point without digits is refused. -/
def readFraction : List Char → Option (List Char × List Char)
  | '.' :: cs =>
    if cs.takeWhile Char.isDigit = [] then none
    else some (cs.takeWhile Char.isDigit, cs.dropWhile Char.isDigit)
  | cs => some ([], cs)

/-- A power of ten that ends the text, or no text at all. -/
def readExponent : List Char → Option (Option Exponent)
  | [] => some none
  | mark :: cs =>
    let (negative, digits) := match cs with
      | '-' :: ds => (true, ds)
      | '+' :: ds => (false, ds)
      | ds => (false, ds)
    if (mark = 'e' || mark = 'E') && digits ≠ [] && digits.all Char.isDigit then
      some (some ⟨negative, digits⟩)
    else none

/-- Reads a whole text as a numeral: no plus sign, no leading zeros, digits around a point. -/
def parse? (text : List Char) : Option Numeral :=
  let (negative, cs) := match text with
    | '-' :: ds => (true, ds)
    | ds => (false, ds)
  let whole := cs.takeWhile Char.isDigit
  if canonicalDigits whole then
    (readFraction (cs.dropWhile Char.isDigit)).bind fun (fraction, rest) =>
      (readExponent rest).map fun exponent => ⟨negative, whole, fraction, exponent⟩
  else none

end Numeral

end CelEdit
