/-!
# Shortest decimal digits

The fewest decimal digits that are nearer to a binary number than to its neighbours, computed with
exact natural numbers. The number is `num / den`; what is nearer to it than to its neighbours lies
between `low / den` and `high / den`, ends included when `closed` is set.
-/

namespace CelEdit

/-- A positive number with the interval of those that round to it, over one denominator. -/
structure Rounding where
  num : Nat
  low : Nat
  high : Nat
  den : Nat
  closed : Bool

/-- Significant digits; the number is `0.d₁d₂… * 10 ^ point`. -/
structure Significand where
  digits : List Char
  point : Int
deriving DecidableEq

namespace Rounding

/-- The whole interval over another denominator, measured in units of `10 ^ unit`. -/
def inUnits (r : Rounding) (unit : Int) : Rounding :=
  if unit < 0 then
    let p := Nat.pow 10 unit.natAbs
    { r with num := r.num * p, low := r.low * p, high := r.high * p }
  else { r with den := r.den * Nat.pow 10 unit.natAbs }

/-- Whether a whole number lies in the interval. -/
def covers (r : Rounding) (n : Nat) : Bool :=
  if r.closed then r.low ≤ n * r.den && n * r.den ≤ r.high
  else r.low < n * r.den && n * r.den < r.high

/-- The whole neighbour of the number that lies in the interval, of two the nearer, the upper one
when they are equally near. -/
def nearest? (r : Rounding) : Option Nat :=
  let below := r.num / r.den
  match r.covers below, r.covers (below + 1) with
  | true, true => some (if 2 * (r.num % r.den) < r.den then below else below + 1)
  | true, false => some below
  | false, true => some (below + 1)
  | false, false => none

/-- The position of the leading digit: `10 ^ (point - 1) ≤ num / den < 10 ^ point`. -/
def point (r : Rounding) : Int :=
  if r.den ≤ r.num then (Nat.toDigits 10 (r.num / r.den)).length
  else
    let ratio := (r.den + r.num - 1) / r.num
    1 - (Nat.toDigits 10 (ratio - 1)).length

/-- Tries `count`, `count + 1`, … digits and gives up after `tries` attempts. -/
def shortestFrom (r : Rounding) (count : Nat) : (tries : Nat) → Option Significand
  | 0 => none
  | tries + 1 =>
    let unit := r.point - count
    match (r.inUnits unit).nearest? with
    | some n =>
      let digits := Nat.toDigits 10 n
      let kept := (digits.reverse.dropWhile (· = '0')).reverse
      some ⟨kept, unit + digits.length⟩
    | none => shortestFrom r (count + 1) tries

/-- The digits of the shortest decimal in the interval. Seventeen digits are enough for a double. -/
def shortest (r : Rounding) : Significand :=
  (r.shortestFrom 1 17).getD ⟨['0'], 1⟩

end Rounding

end CelEdit
