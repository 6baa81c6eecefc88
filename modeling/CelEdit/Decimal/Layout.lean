import CelEdit.Decimal.Numeral
import CelEdit.Decimal.Shortest

/-!
# Layout of decimals

Where positional writing ends and a power of ten begins. A positional decimal keeps at least one
digit after the point; a power of ten has one digit before it.
-/

namespace CelEdit

/-- Positional writing is used when the point stands between these positions, ends included. -/
structure DecimalLayout where
  first : Int
  last : Int

namespace DecimalLayout

def zeros (n : Nat) : List Char := List.replicate n '0'

def positional (negative : Bool) (s : Significand) : Numeral :=
  if s.point ≤ 0 then ⟨negative, ['0'], zeros s.point.natAbs ++ s.digits, none⟩
  else
    let before := s.point.toNat
    if before < s.digits.length then ⟨negative, s.digits.take before, s.digits.drop before, none⟩
    else ⟨negative, s.digits ++ zeros (before - s.digits.length), ['0'], none⟩

def scientific (negative : Bool) (s : Significand) : Numeral :=
  let power := s.point - 1
  ⟨negative, s.digits.take 1, s.digits.drop 1, some ⟨power < 0, Nat.toDigits 10 power.natAbs⟩⟩

def write (l : DecimalLayout) (negative : Bool) (s : Significand) : Numeral :=
  if l.first ≤ s.point ∧ s.point ≤ l.last then positional negative s else scientific negative s

end DecimalLayout

end CelEdit
