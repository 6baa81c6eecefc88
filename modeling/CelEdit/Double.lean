import CelEdit.Decimal.Layout

/-!
# Doubles

A double is its 64-bit pattern: two NaNs may differ and the two zeros do. Arithmetic on doubles is
exact arithmetic on fractions, rounded to the nearest double with ties to the even one.
-/

namespace CelEdit

/-- A binary64 number, identified by its bits. -/
structure Double where
  bits : UInt64
deriving DecidableEq

/-- What the bits of a double say: `mantissa * 2 ^ power` when it is finite. -/
inductive Double.Reading where
  | nan
  | infinite
  | finite (mantissa : Nat) (power : Int)

namespace Double

def negative (d : Double) : Bool := d.bits.toNat >>> 63 = 1

def exponentField (d : Double) : Nat := d.bits.toNat >>> 52 % 2048

def fractionField (d : Double) : Nat := d.bits.toNat % (1 <<< 52)

/-- The magnitude of a double. -/
def read (d : Double) : Reading :=
  if d.exponentField = 2047 then
    if d.fractionField = 0 then .infinite else .nan
  else if d.exponentField = 0 then .finite d.fractionField (-1074)
  else .finite (1 <<< 52 + d.fractionField) (d.exponentField - 1075)

/-- The quotient rounded to the nearest whole number, a half to the even neighbour. -/
def roundQuotient (num den : Nat) : Nat :=
  let q := num / den
  let r := num % den
  if 2 * r < den then q
  else if den < 2 * r then q + 1
  else if q % 2 = 0 then q else q + 1

/-- The fraction `num / den * 2 ^ power` with the power worked into it. -/
def scaled (num den : Nat) (power : Int) : Nat × Nat :=
  if power < 0 then (num, den <<< power.natAbs) else (num <<< power.natAbs, den)

/-- The binary logarithm of a positive fraction, rounded down. -/
def log2Floor (num den : Nat) : Int :=
  let guess : Int := (num.log2 : Int) - den.log2
  let (n, d) := scaled num den (-guess)
  if d ≤ n then guess else guess - 1

/-- The bits of the nearest non-negative double, those of infinity when the fraction is too large. -/
def bitsOfRatio (num den : Nat) : Nat :=
  if num = 0 then 0
  else
    let power := max (log2Floor num den - 52) (-1074)
    let (n, d) := scaled num den (-power)
    min ((power + 1074).toNat <<< 52 + roundQuotient n d) (2047 <<< 52)

/-- The nearest non-negative double. -/
def ofRatio (num den : Nat) : Double := ⟨UInt64.ofNat (bitsOfRatio num den)⟩

def neg (d : Double) : Double := ⟨d.bits ^^^ 0x8000000000000000⟩

/-- The largest significand that fits a word. -/
def significandLimit : Nat := UInt64.size - 1

/-- Appends digits to a significand as long as it fits a word, and counts them. -/
def absorb : (significand : Nat) → (digits : List Char) → Nat × Nat
  | n, [] => (n, 0)
  | n, c :: cs =>
    if 10 * n + digitValue c ≤ significandLimit then
      let (m, used) := absorb (10 * n + digitValue c) cs
      (m, used + 1)
    else (n, 0)

def isZero (d : Double) : Bool := d.bits.toNat % (1 <<< 63) = 0

/-- The product with a rounded power of ten, for non-negative finite doubles. -/
def timesPowerOfTen (d : Double) (k : Nat) : Double :=
  match d.read, (ofRatio (Nat.pow 10 k) 1).read with
  | .finite m p, .finite m' p' =>
    let (n, den) := scaled (m * m') 1 (p + p')
    ofRatio n den
  | _, _ => d

/-- The quotient by a rounded power of ten, for non-negative finite doubles. -/
def overPowerOfTen (d : Double) (k : Nat) : Double :=
  match d.read, (ofRatio (Nat.pow 10 k) 1).read with
  | .finite m p, .finite m' p' =>
    let (n, den) := scaled m m' (p - p')
    ofRatio n den
  | _, _ => d

/-- The largest power of ten that is a finite double. -/
def largestPowerOfTen : Nat := 308

/-- Divides by `10 ^ k`, in steps of the largest power of ten until the rest is small enough. -/
def shrink (d : Double) (k : Nat) : Double :=
  if k ≤ largestPowerOfTen then d.overPowerOfTen k
  else if d.isZero then d
  else (d.overPowerOfTen largestPowerOfTen).shrink (k - largestPowerOfTen)
termination_by k
decreasing_by simp only [largestPowerOfTen] at *; omega

/-- Multiplies by `10 ^ k`, unless the result is not finite. -/
def grow? (d : Double) (k : Nat) : Option Double :=
  if d.isZero then some d
  else if largestPowerOfTen < k then none
  else
    let result := d.timesPowerOfTen k
    match result.read with
    | .finite _ _ => some result
    | _ => none

/-- The double that a numeral denotes: as many leading digits as fit a word are rounded to a double,
which is then multiplied or divided by a power of ten. There is none when it would be infinite. -/
def ofNumeral? (n : Numeral) : Option Double :=
  let (s, used) := absorb 0 n.whole
  let (significand, usedFraction) := absorb s n.fraction
  let power : Int := (n.whole.length : Int) - used - usedFraction + n.scale
  let d := ofRatio significand 1
  let magnitude := if power < 0 then some (d.shrink power.natAbs) else d.grow? power.natAbs
  magnitude.map (fun d => if n.negative then d.neg else d)

/-- The interval of numbers that round to `mantissa * 2 ^ power`. Below a power of two the
neighbours are twice as dense. -/
def rounding (mantissa : Nat) (power : Int) : Rounding :=
  let gap := if mantissa = 1 <<< 52 ∧ -1074 < power then 1 else 2
  let (num, den) := scaled (4 * mantissa) 1 (power - 2)
  let unit := (scaled 1 1 (power - 2)).1
  ⟨num, num - gap * unit, num + 2 * unit, den, mantissa % 2 = 0⟩

/-- The shortest numeral of a finite double, in the given layout. -/
def numeral (layout : DecimalLayout) (negative : Bool) (mantissa : Nat) (power : Int) : Numeral :=
  if mantissa = 0 then ⟨negative, ['0'], ['0'], none⟩
  else layout.write negative (rounding mantissa power).shortest

end Double

end CelEdit
