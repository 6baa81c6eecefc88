import CelEdit.Decimal.Numeral
import Mathlib.Data.List.TakeWhile
import Mathlib.Tactic.Lemma

/-!
# Numerals of integers

The digits of a number have its value and no superfluous zero, so that the numeral written for an
integer is read as that numeral and stands for that integer.
-/

namespace CelEdit

/-- Where the characters of a kind end, both parts are found. -/
lemma span_append {p : Char → Bool} {cs rest : List Char} (hcs : ∀ c ∈ cs, p c = true)
    (hrest : ∀ c ∈ rest.head?, p c = false) :
    (cs ++ rest).takeWhile p = cs ∧ (cs ++ rest).dropWhile p = rest := by
  rw [List.takeWhile_append_of_pos hcs, List.dropWhile_append_of_pos hcs]
  cases rest with
  | nil => simp
  | cons c rest =>
    have hc : ¬p c = true := by
      rw [hrest c rfl]
      exact Bool.false_ne_true
    rw [List.takeWhile_cons_of_neg hc, List.dropWhile_cons_of_neg hc, List.append_nil]
    exact ⟨rfl, rfl⟩

/-- Where the characters of a kind end, a text is divided in one way only. -/
lemma span_append_inj {p : Char → Bool} {cs ds rest rest' : List Char}
    (hcs : ∀ c ∈ cs, p c = true) (hds : ∀ c ∈ ds, p c = true) (hrest : ∀ c ∈ rest.head?, p c = false)
    (hrest' : ∀ c ∈ rest'.head?, p c = false) (h : cs ++ rest = ds ++ rest') :
    cs = ds ∧ rest = rest' := by
  obtain ⟨htake, hdrop⟩ := span_append hcs hrest
  obtain ⟨htake', hdrop'⟩ := span_append hds hrest'
  rw [h] at htake hdrop
  exact ⟨htake.symm.trans htake', hdrop.symm.trans hdrop'⟩

lemma digitsValue_toDigits (n : Nat) : digitsValue (Nat.toDigits 10 n) = n :=
  Nat.ofDigitChars_ten_toDigits

lemma isDigit_toDigits (n : Nat) : ∀ c ∈ Nat.toDigits 10 n, c.isDigit = true :=
  fun _ hc => Nat.isDigit_of_mem_toDigits (by omega) (by omega) hc

/-- The digits of a positive number start with one that is not zero. -/
lemma toDigits_eq_cons {n : Nat} (h : 0 < n) : ∃ c cs, Nat.toDigits 10 n = c :: cs ∧ c ≠ '0' := by
  induction n using Nat.strongRecOn with
  | _ n ih =>
    by_cases hn : n < 10
    · refine ⟨n.digitChar, [], Nat.toDigits_of_lt_base hn, fun hzero => ?_⟩
      rw [Nat.digitChar_eq_zero] at hzero
      omega
    · obtain ⟨c, cs, hcs, hc⟩ := ih (n / 10) (by omega) (by omega)
      exact ⟨c, cs ++ [(n % 10).digitChar],
        by rw [Nat.toDigits_of_base_le (by omega) (by omega), hcs, List.cons_append], hc⟩

namespace Numeral

lemma canonicalDigits_toDigits (n : Nat) : canonicalDigits (Nat.toDigits 10 n) = true := by
  have hdigits : (Nat.toDigits 10 n).all Char.isDigit := List.all_eq_true.2 (isDigit_toDigits n)
  by_cases hn : 0 < n
  · obtain ⟨c, cs, hcs, hc⟩ := toDigits_eq_cons hn
    rw [hcs] at hdigits ⊢
    simp [canonicalDigits, hdigits, hc]
  · obtain rfl : n = 0 := by omega
    decide

/-- A sign and canonical digits are a numeral. -/
lemma parse?_digits {digits : List Char} (h : canonicalDigits digits) (negative : Bool) :
    parse? ((if negative then ['-'] else []) ++ digits) = some ⟨negative, digits, [], none⟩ := by
  cases digits with
  | nil => cases h
  | cons c cs =>
    have hall : ∀ d ∈ c :: cs, d.isDigit = true := by
      rw [canonicalDigits, Bool.and_eq_true] at h
      exact List.all_eq_true.1 h.1
    have htake : (c :: cs).takeWhile Char.isDigit = c :: cs := List.takeWhile_eq_self_iff.2 hall
    have hdrop : (c :: cs).dropWhile Char.isDigit = [] := List.dropWhile_eq_nil_iff.2 hall
    have hread : readFraction [] = some ([], []) ∧ readExponent [] = some none := ⟨rfl, rfl⟩
    cases negative with
    | true =>
      simp only [parse?, if_true, List.singleton_append, htake, hdrop, h, hread, Option.bind_some,
        Option.map_some]
    | false =>
      have hc : c ≠ '-' := by
        rintro rfl
        exact absurd (hall '-' List.mem_cons_self) (by decide)
      unfold parse?
      split
      next negative ds hsign =>
      obtain ⟨rfl, rfl⟩ : negative = false ∧ ds = c :: cs := by
        simpa [hc, eq_comm] using hsign
      simp only [htake, hdrop, h, hread, Option.bind_some, Option.map_some, if_true]

lemma spell_ofNat (n : Nat) : (ofNat n).spell = Nat.toDigits 10 n := by
  simp [spell, ofNat]

lemma spell_ofInt (i : Int) :
    (ofInt i).spell = (if decide (i < 0) then ['-'] else []) ++ Nat.toDigits 10 i.natAbs := by
  simp [spell, ofInt]

lemma toNat?_ofNat (n : Nat) : (ofNat n).toNat? = some n := by
  simp [toNat?, toInt?, ofNat, digitsValue_toDigits]

lemma toInt?_ofInt (i : Int) : (ofInt i).toInt? = some i := by
  simp only [toInt?, ofInt, true_and, if_true, digitsValue_toDigits, decide_eq_true_eq]
  by_cases hi : i < 0
  · rw [if_pos hi, if_neg (by omega)]
    congr 1
    omega
  · rw [if_neg hi]
    congr 1
    omega

end Numeral

end CelEdit
