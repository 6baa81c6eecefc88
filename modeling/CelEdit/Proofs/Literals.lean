import CelEdit.Proofs.Documents
import CelEdit.Proofs.PlainTexts

/-!
# Literals

The text of a constant consists of one lexeme, or of a sign and a number, and these tell which
constant it is. Doubles are left out: all not-a-numbers have one text. A string or bytes literal also
shows where it ends, whatever text comes after it.
-/

namespace CelEdit.Constant

open Lexeme

/-- Strings and bytes. -/
def isQuoted : Constant → Bool
  | .string _ | .bytes _ => true
  | _ => false

/-- The lexemes of a constant that is not a double. -/
def lexemes : Constant → List Lexeme
  | .int i => if i.toInt < 0 then [.sign '-', .number i.toInt.natAbs] else [.number i.toInt.natAbs]
  | c => [c.lexeme]

/-- The constant that some lexemes stand for. -/
def ofLexemes? : List Lexeme → Option Constant
  | [.word "null"] => some .null
  | [.word "true"] => some (.bool true)
  | [.word "false"] => some (.bool false)
  | [.sign '-', .number n] => some (.int (Int64.ofInt (-n)))
  | [.number n] => some (.int (Int64.ofInt n))
  | [.unsigned n] => some (.uint (UInt64.ofNat n))
  | [.text s] => some (.string s)
  | [.bytes b] => some (.bytes b)
  | _ => none

variable {c d : Constant}

lemma ofLexemes?_lexemes (hc : c.isDouble = false) : ofLexemes? c.lexemes = some c := by
  cases c with
  | null => rfl
  | bool b => cases b <;> rfl
  | int i =>
    rw [lexemes]
    split
    · next hneg =>
      have habs : -(i.toInt.natAbs : Int) = i.toInt := by omega
      rw [ofLexemes?, habs, Int64.ofInt_toInt]
    · next hpos =>
      have habs : (i.toInt.natAbs : Int) = i.toInt := by omega
      rw [ofLexemes?, habs, Int64.ofInt_toInt]
  | uint n =>
    change some (Constant.uint (UInt64.ofNat n.toNat)) = _
    rw [UInt64.ofNat_toNat]
  | double d => cases hc
  | string s => rfl
  | bytes b => rfl

/-- The text of a constant consists of its lexemes. -/
lemma spells_source (hc : c.isDouble = false) : Spells c.lexemes c.source := by
  have hplain (hplain : c.isPlain = true) : Spells [c.lexeme] c.source := by
    have hspells := Unparse.spelling_constant hplain [] [] .nil trivial
    rwa [List.append_nil, List.append_nil] at hspells
  cases c with
  | int i =>
    rw [lexemes]
    split
    · next hneg =>
      have htext : (Constant.int i).source = '-' :: (Nat.toDigits 10 i.toInt.natAbs ++ []) := by
        rw [source, Numeral.spell_ofInt, decide_eq_true hneg, List.append_nil]
        rfl
      rw [htext]
      exact .cons (t := .sign '-') (.inr rfl) trivial
        (.cons (t := .number _) trivial trivial .nil)
    · next hpos =>
      have habs : i.toInt.natAbs = i.toInt.toNat := by omega
      rw [habs]
      exact hplain (decide_eq_true (by omega))
  | double d => cases hc
  | _ => exact hplain rfl

lemma eq_of_lexemes_eq (hc : c.isDouble = false) (hd : d.isDouble = false)
    (h : c.lexemes = d.lexemes) : c = d := by
  rw [← Option.some_inj, ← ofLexemes?_lexemes hc, h, ofLexemes?_lexemes hd]

/-- A constant can be told from its text. -/
theorem source_inj (hc : c.isDouble = false) (hd : d.isDouble = false) :
    c.source = d.source ↔ c = d :=
  ⟨fun h => eq_of_lexemes_eq hc hd ((spells_source hc).unique (h ▸ spells_source hd)),
    congrArg source⟩

/-! ### Literals on one line -/

lemma feed_not_mem_digits (n : Nat) : '\n' ∉ Nat.toDigits 10 n := by
  intro h
  exact absurd (isDigit_toDigits n _ h) (by decide)

lemma feed_not_mem_escapeChar (c : Char) : '\n' ∉ Text.escapeChar c := by
  unfold Text.escapeChar
  grind

lemma feed_not_mem_escapeByte (b : UInt8) : '\n' ∉ Text.escapeByte b := by
  have hbytes : ∀ n < 256, '\n' ∉ Text.escapeByte (UInt8.ofNat n) := by decide +kernel
  have hb := hbytes b.toNat b.toNat_lt
  rwa [UInt8.ofNat_toNat] at hb

/-- A literal has no line feed of its own. -/
lemma feed_not_mem_source (hc : c.isDouble = false) : '\n' ∉ c.source := by
  cases c with
  | null => decide
  | bool b => cases b <;> decide
  | int i =>
    rw [source, Numeral.spell_ofInt, List.mem_append]
    rintro (h | h)
    · split at h <;> simp at h
    · exact feed_not_mem_digits _ h
  | uint u =>
    rw [source, Numeral.spell_ofNat, List.mem_append]
    rintro (h | h)
    · exact feed_not_mem_digits _ h
    · exact absurd h (by decide)
  | double d => cases hc
  | string s =>
    simp only [source, Text.quoteString, List.mem_append, List.mem_cons, List.mem_flatMap]
    rintro ((h | ⟨c, -, h⟩) | h)
    · cases h
    · exact feed_not_mem_escapeChar c h
    · simp at h
  | bytes b =>
    simp only [source, Text.quoteBytes, List.mem_append, List.mem_cons, List.mem_flatMap]
    rintro ((h | h | ⟨x, -, h⟩) | h)
    · cases h
    · cases h
    · exact feed_not_mem_escapeByte x h
    · simp at h

/-! ### Quoted literals -/

lemma isDouble_of_isQuoted (hc : c.isQuoted = true) : c.isDouble = false := by
  cases c with
  | double d => cases hc
  | _ => rfl

lemma lexemes_of_isQuoted (hc : c.isQuoted = true) : c.lexemes = [c.lexeme] := by
  cases c with
  | int i => cases hc
  | _ => rfl

/-- A quoted literal is read off the beginning of a text. -/
lemma next?_source (hc : c.isQuoted = true) (u : List Char) :
    next? (c.source ++ u) = some (c.lexeme, u) := by
  cases c with
  | string s => exact next?_spell (t := .text s) trivial trivial
  | bytes b => exact next?_spell (t := .bytes b) trivial trivial
  | _ => cases hc

/-- Literals are unambiguous, and quoted ones are self-delimiting: no text that follows makes one
quoted literal look like another. -/
theorem literals_unambiguous :
    (∀ c d : Constant, c.isDouble = false → d.isDouble = false →
      (c.source = d.source ↔ c = d)) ∧
    ∀ (c d : Constant) (u v : List Char), c.isQuoted = true → d.isQuoted = true →
      (c.source ++ u = d.source ++ v ↔ c = d ∧ u = v) := by
  refine ⟨fun c d => source_inj, fun c d u v hc hd => ⟨fun h => ?_, ?_⟩⟩
  · have hread : some (c.lexeme, u) = some (d.lexeme, v) := by
      rw [← next?_source hc, h, next?_source hd]
    obtain ⟨hlexeme, hrest⟩ := Prod.mk.inj (Option.some.inj hread)
    refine ⟨eq_of_lexemes_eq (isDouble_of_isQuoted hc) (isDouble_of_isQuoted hd) ?_, hrest⟩
    rw [lexemes_of_isQuoted hc, lexemes_of_isQuoted hd, hlexeme]
  · rintro ⟨rfl, rfl⟩
    rfl

/-- A backslash at the end of a string does not take in the quote after it, and an escaped byte is
not the characters of its escape. -/
theorem literals_unambiguous_escapes :
    let c := Constant.string "a\\"
    let d := Constant.string "a\\\""
    let b := Constant.bytes [0]
    let x := Constant.bytes [0x5C, 0x78, 0x30, 0x30]
    c.isQuoted = true ∧ d.isQuoted = true ∧ c.source ++ ['"', '"'] ≠ d.source ++ ['"'] ∧
      b.isDouble = false ∧ x.isDouble = false ∧ b.source ≠ x.source := by
  intro c d b x
  have hquoted := literals_unambiguous.2 c d ['"', '"'] ['"'] rfl rfl
  have hbytes := literals_unambiguous.1 b x rfl rfl
  refine ⟨rfl, rfl, fun h => ?_, rfl, rfl, fun h => ?_⟩
  · exact absurd (hquoted.1 h).1 (by decide)
  · exact absurd (hbytes.1 h) (by decide)

end CelEdit.Constant
