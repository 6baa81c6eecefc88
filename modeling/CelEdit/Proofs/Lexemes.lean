import CelEdit.Constant
import CelEdit.Proofs.JsonTexts
import Mathlib.Tactic.Tauto

/-!
# Lexemes of the expression language

Rendered text is a sequence of names, literals and signs. Binary operators carry the blanks around
them. A name or a number ends where no further character of a name follows, and then the sequence of
lexemes can be told from the text alone.
-/

namespace CelEdit

def isNameStart (c : Char) : Bool := c.isAlpha || c = '_'

def isNameChar (c : Char) : Bool := c.isAlphanum || c = '_'

inductive Lexeme where
  | word (name : String)
  | number (n : Nat)
  | unsigned (n : Nat)
  | text (s : String)
  | bytes (b : List UInt8)
  | operator (symbol : String)
  | sign (c : Char)
  | openParen
  | closeParen
  | openBracket
  | closeBracket
  | openBrace
  | closeBrace
  | dot
  | mark
  | comma
  | colon
deriving DecidableEq

namespace Lexeme

def spell : Lexeme → List Char
  | .word name => name.toList
  | .number n => Nat.toDigits 10 n
  | .unsigned n => Nat.toDigits 10 n ++ ['u']
  | .text s => Text.quoteString s
  | .bytes b => Text.quoteBytes b
  | .operator symbol => ' ' :: symbol.toList ++ [' ']
  | .sign c => [c]
  | .openParen => ['(']
  | .closeParen => [')']
  | .openBracket => ['[']
  | .closeBracket => [']']
  | .openBrace => ['\x7b']
  | .closeBrace => ['\x7d']
  | .dot => ['.']
  | .mark => ['?']
  | .comma => [',', ' ']
  | .colon => [':', ' ']

/-! ### Quoted literals -/

/-- What the letter after a backslash stands for. -/
def unescape : Char → Char
  | 'n' => '\n'
  | 'r' => '\r'
  | 't' => '\t'
  | c => c

/-- Reads a string up to its closing quote. -/
def scanText : List Char → Option (List Char × List Char)
  | [] => none
  | '"' :: rest => some ([], rest)
  | '\\' :: letter :: rest => (scanText rest).map fun (cs, rest) => (unescape letter :: cs, rest)
  | c :: rest => (scanText rest).map fun (cs, rest) => (c :: cs, rest)

/-- Reads bytes up to the closing quote. -/
def scanBytes : List Char → Option (List UInt8 × List Char)
  | [] => none
  | '"' :: rest => some ([], rest)
  | '\\' :: 'x' :: a :: b :: rest =>
    match Json.hexValue? a, Json.hexValue? b with
    | some high, some low =>
      (scanBytes rest).map fun (bs, rest) => (UInt8.ofNat (16 * high + low) :: bs, rest)
    | _, _ => none
  | '\\' :: letter :: rest =>
    (scanBytes rest).map fun (bs, rest) => (UInt8.ofNat letter.toNat :: bs, rest)
  | c :: rest => (scanBytes rest).map fun (bs, rest) => (UInt8.ofNat c.toNat :: bs, rest)

lemma scanText_plain {c : Char} (hquote : c ≠ '"') (hbackslash : c ≠ '\\') (rest : List Char) :
    scanText (c :: rest) = (scanText rest).map fun r => (c :: r.1, r.2) := by
  rw [scanText.eq_def]
  split
  · next heq => cases heq
  · next heq => exact absurd (List.cons.inj heq).1 hquote
  · next heq => exact absurd (List.cons.inj heq).1 hbackslash
  · next heq =>
    obtain ⟨rfl, rfl⟩ := List.cons.inj heq
    rfl

lemma scanText_escapeChar (c : Char) (rest : List Char) :
    scanText (Text.escapeChar c ++ rest) = (scanText rest).map fun r => (c :: r.1, r.2) := by
  unfold Text.escapeChar
  split
  · next h => subst h; rfl
  · next hquote =>
    split
    · next h => subst h; rfl
    · next hbackslash =>
      split
      · next h => subst h; rfl
      · split
        · next h => subst h; rfl
        · split
          · next h => subst h; rfl
          · exact scanText_plain hquote hbackslash rest

lemma scanText_quoted (cs rest : List Char) :
    scanText (cs.flatMap Text.escapeChar ++ '"' :: rest) = some (cs, rest) := by
  induction cs with
  | nil => rfl
  | cons c cs ih =>
    rw [List.flatMap_cons, List.append_assoc, scanText_escapeChar, ih, Option.map_some]

lemma scanBytes_plain {c : Char} (hquote : c ≠ '"') (hbackslash : c ≠ '\\') (rest : List Char) :
    scanBytes (c :: rest) = (scanBytes rest).map fun r => (UInt8.ofNat c.toNat :: r.1, r.2) := by
  rw [scanBytes.eq_def]
  split
  · next heq => cases heq
  · next heq => exact absurd (List.cons.inj heq).1 hquote
  · next heq => exact absurd (List.cons.inj heq).1 hbackslash
  · next heq => exact absurd (List.cons.inj heq).1 hbackslash
  · next heq =>
    obtain ⟨rfl, rfl⟩ := List.cons.inj heq
    rfl

lemma toNat_ofNat_ascii : ∀ n < 128, (Char.ofNat n).toNat = n := by
  decide

lemma scanBytes_escapeByte (b : UInt8) (rest : List Char) :
    scanBytes (Text.escapeByte b ++ rest) = (scanBytes rest).map fun r => (b :: r.1, r.2) := by
  unfold Text.escapeByte
  split
  · next h => subst h; rfl
  · next hquote =>
    split
    · next h => subst h; rfl
    · next hbackslash =>
      split
      · next hprintable =>
        have hascii : b.toNat < 128 := by
          have hle : b.toNat ≤ 126 := UInt8.le_iff_toNat_le.1 hprintable.2
          omega
        have hvalue := toNat_ofNat_ascii b.toNat hascii
        have hne {c : Char} {d : UInt8} (hd : c.toNat = d.toNat) (h : b ≠ d) :
            Char.ofNat b.toNat ≠ c := by
          rintro rfl
          exact h (UInt8.toNat_inj.1 (hvalue.symm.trans hd))
        rw [List.singleton_append, scanBytes_plain (hne rfl hquote) (hne rfl hbackslash), hvalue,
          UInt8.ofNat_toNat]
      · have hlt : b.toNat < 256 := b.toNat_lt
        have hhigh := Json.hexValue?_hexDigit (b.toNat / 16) (by omega)
        have hlow := Json.hexValue?_hexDigit (b.toNat % 16) (by omega)
        change scanBytes ('\\' :: 'x' :: _ :: _ :: rest) = _
        rw [scanBytes]
        simp only [hhigh, hlow, Nat.div_add_mod, UInt8.ofNat_toNat]

lemma scanBytes_quoted (bs : List UInt8) (rest : List Char) :
    scanBytes (bs.flatMap Text.escapeByte ++ '"' :: rest) = some (bs, rest) := by
  induction bs with
  | nil => rfl
  | cons b bs ih =>
    rw [List.flatMap_cons, List.append_assoc, scanBytes_escapeByte, ih, Option.map_some]

/-! ### The first lexeme of a text -/

def punctuation? : Char → Option Lexeme
  | '(' => some .openParen
  | ')' => some .closeParen
  | '[' => some .openBracket
  | ']' => some .closeBracket
  | '\x7b' => some .openBrace
  | '\x7d' => some .closeBrace
  | '.' => some .dot
  | '?' => some .mark
  | '!' => some (.sign '!')
  | '-' => some (.sign '-')
  | _ => none

/-- A number that the text starts with. -/
def nextNumber (text : List Char) : Lexeme × List Char :=
  match text.dropWhile Char.isDigit with
  | 'u' :: rest => (.unsigned (digitsValue (text.takeWhile Char.isDigit)), rest)
  | rest => (.number (digitsValue (text.takeWhile Char.isDigit)), rest)

/-- The first lexeme of a text, and what follows it. -/
def next? : List Char → Option (Lexeme × List Char)
  | [] => none
  | '"' :: cs => (scanText cs).map fun (s, rest) => (.text (String.ofList s), rest)
  | 'b' :: '"' :: cs => (scanBytes cs).map fun (b, rest) => (.bytes b, rest)
  | ' ' :: cs =>
    some (.operator (String.ofList (cs.takeWhile (· ≠ ' '))), (cs.dropWhile (· ≠ ' ')).drop 1)
  | ',' :: ' ' :: cs => some (.comma, cs)
  | ':' :: ' ' :: cs => some (.colon, cs)
  | c :: cs =>
    match punctuation? c with
    | some t => some (t, cs)
    | none =>
      if c.isDigit then some (nextNumber (c :: cs))
      else if isNameStart c then
        some (.word (String.ofList ((c :: cs).takeWhile isNameChar)),
          (c :: cs).dropWhile isNameChar)
      else none

/-- No name, number or quoted literal goes on in the text. -/
def EndsName : List Char → Prop
  | [] => True
  | c :: _ => isNameChar c = false ∧ c ≠ '"'

/-- A name with only those characters that names have. -/
def IsName (name : String) : Prop :=
  ∃ c cs, name.toList = c :: cs ∧ isNameStart c = true ∧ ∀ d ∈ cs, isNameChar d = true

/-- Written out before a text that does not extend it, the lexeme is read as itself. -/
def WellSpelled : Lexeme → Prop
  | .word name => IsName name
  | .operator symbol => ∀ c ∈ symbol.toList, c ≠ ' '
  | .sign c => c = '!' ∨ c = '-'
  | _ => True

/-- Only names and numbers need an end that can be seen. -/
def StandsBefore (t : Lexeme) (rest : List Char) : Prop :=
  match t with
  | .word _ => EndsName rest
  | .number _ => EndsName rest
  | _ => True

lemma isNameChar_of_isNameStart {c : Char} (h : isNameStart c = true) : isNameChar c = true := by
  rw [isNameStart, Bool.or_eq_true] at h
  rw [isNameChar, Char.isAlphanum, Bool.or_eq_true, Bool.or_eq_true]
  tauto

lemma isDigit_of_isNameStart {c : Char} (h : isNameStart c = true) : c.isDigit = false := by
  rw [Bool.eq_false_iff]
  intro hdigit
  delta isNameStart Char.isAlpha Char.isUpper Char.isLower Char.isDigit at h hdigit
  simp only [Bool.or_eq_true, Bool.and_eq_true, decide_eq_true_eq] at h hdigit
  rcases h with (hupper | hlower) | rfl
  · grind
  · grind
  · exact absurd hdigit (by decide)

lemma isNameChar_of_isDigit {c : Char} (h : c.isDigit = true) : isNameChar c = true := by
  simp [isNameChar, Char.isAlphanum, h]

lemma EndsName.head? {rest : List Char} (h : EndsName rest) {p : Char → Bool}
    (hp : ∀ c, p c = true → isNameChar c = true) : ∀ c ∈ rest.head?, p c = false := by
  intro c hc
  cases rest with
  | nil => cases hc
  | cons d rest =>
    obtain rfl := Option.some.inj hc
    obtain ⟨hd, -⟩ : isNameChar d = false ∧ d ≠ '"' := h
    rw [Bool.eq_false_iff]
    intro hpd
    rw [hp d hpd] at hd
    cases hd

/-- A character of names starts a name or a number. -/
lemma next?_nameChar {c : Char} {cs : List Char} (hc : isNameChar c = true)
    (hquote : cs.head? ≠ some '"') :
    next? (c :: cs) =
      if c.isDigit then some (nextNumber (c :: cs))
      else if isNameStart c then
        some (.word (String.ofList ((c :: cs).takeWhile isNameChar)),
          (c :: cs).dropWhile isNameChar)
      else none := by
  have hne {d : Char} (hd : isNameChar d = false) : c ≠ d := by
    rintro rfl
    simp [hc] at hd
  have hpunctuation : punctuation? c = none := by
    unfold punctuation?
    split
    case h_11 => rfl
    all_goals exact absurd hc (by decide)
  rw [next?.eq_def]
  split
  · next heq => cases heq
  · next heq => exact absurd (List.cons.inj heq).1 (hne (by decide))
  · next heq =>
    obtain ⟨rfl, rfl⟩ := List.cons.inj heq
    exact absurd rfl hquote
  · next heq => exact absurd (List.cons.inj heq).1 (hne (by decide))
  · next heq => exact absurd (List.cons.inj heq).1 (hne (by decide))
  · next heq => exact absurd (List.cons.inj heq).1 (hne (by decide))
  · next heq =>
    obtain ⟨rfl, rfl⟩ := List.cons.inj heq
    simp only [hpunctuation]

lemma head?_append_ne_quote {cs rest : List Char} (hcs : ∀ c ∈ cs, isNameChar c = true)
    (hrest : rest.head? ≠ some '"') : (cs ++ rest).head? ≠ some '"' := by
  cases cs with
  | nil => exact hrest
  | cons c cs =>
    intro hc
    obtain rfl := Option.some.inj hc
    exact absurd (hcs '"' List.mem_cons_self) (by decide)

lemma EndsName.head?_ne_quote {rest : List Char} (h : EndsName rest) :
    rest.head? ≠ some '"' := by
  cases rest with
  | nil => exact nofun
  | cons c rest => exact fun hc => h.2 (Option.some.inj hc)

lemma next?_word {name : String} (hname : IsName name) {rest : List Char} (hrest : EndsName rest) :
    next? (name.toList ++ rest) = some (.word name, rest) := by
  obtain ⟨c, cs, hlist, hstart, hcs⟩ := hname
  have hall : ∀ d ∈ c :: cs, isNameChar d = true :=
    List.forall_mem_cons.2 ⟨isNameChar_of_isNameStart hstart, hcs⟩
  obtain ⟨htake, hdrop⟩ := span_append hall (hrest.head? fun _ h => h)
  rw [hlist, List.cons_append, next?_nameChar (isNameChar_of_isNameStart hstart)
    (head?_append_ne_quote hcs hrest.head?_ne_quote),
    isDigit_of_isNameStart hstart, hstart]
  rw [List.cons_append] at htake hdrop
  simp only [Bool.false_eq_true, if_false, if_true, htake, hdrop, ← hlist, String.ofList_toList]

lemma nextNumber_number {rest : List Char} (hrest : EndsName rest) (n : Nat) :
    nextNumber (Nat.toDigits 10 n ++ rest) = (.number n, rest) := by
  obtain ⟨htake, hdrop⟩ :=
    span_append (isDigit_toDigits n) (hrest.head? fun _ => isNameChar_of_isDigit)
  rw [nextNumber, htake, hdrop, digitsValue_toDigits]
  split
  · exact absurd hrest.1 (by decide)
  · rfl

lemma nextNumber_unsigned (rest : List Char) (n : Nat) :
    nextNumber (Nat.toDigits 10 n ++ 'u' :: rest) = (.unsigned n, rest) := by
  have hletter : ∀ c ∈ ('u' :: rest).head?, c.isDigit = false := by
    intro c hc
    obtain rfl := Option.some.inj hc
    decide
  obtain ⟨htake, hdrop⟩ := span_append (isDigit_toDigits n) hletter
  rw [nextNumber, htake, hdrop, digitsValue_toDigits]
  rfl

/-- Digits before anything but a quote start a number. -/
lemma next?_digits {rest : List Char} (hrest : rest.head? ≠ some '"') (n : Nat) :
    next? (Nat.toDigits 10 n ++ rest) = some (nextNumber (Nat.toDigits 10 n ++ rest)) := by
  have hdigits := isDigit_toDigits n
  cases hn : Nat.toDigits 10 n with
  | nil => exact absurd hn Nat.toDigits_ne_nil
  | cons c cs =>
    rw [hn] at hdigits
    obtain ⟨hc, hcs⟩ := List.forall_mem_cons.1 hdigits
    rw [List.cons_append, next?_nameChar (isNameChar_of_isDigit hc)
      (head?_append_ne_quote (fun d hd => isNameChar_of_isDigit (hcs d hd)) hrest), if_pos hc]

lemma next?_operator {symbol : String} (h : ∀ c ∈ symbol.toList, c ≠ ' ') (rest : List Char) :
    next? (' ' :: (symbol.toList ++ ' ' :: rest)) = some (.operator symbol, rest) := by
  have hblank : ∀ c ∈ (' ' :: rest).head?, decide (c ≠ ' ') = false := by
    intro c hc
    obtain rfl := Option.some.inj hc
    decide
  obtain ⟨htake, hdrop⟩ := span_append (fun c hc => decide_eq_true (h c hc)) hblank
  rw [next?, htake, hdrop, String.ofList_toList, List.drop_one, List.tail_cons]

lemma next?_spell {t : Lexeme} (ht : t.WellSpelled) {rest : List Char}
    (hrest : t.StandsBefore rest) : next? (t.spell ++ rest) = some (t, rest) := by
  cases t with
  | word name => exact next?_word ht hrest
  | number n => rw [spell, next?_digits (EndsName.head?_ne_quote hrest), nextNumber_number hrest]
  | unsigned n =>
    rw [spell, List.append_assoc, List.singleton_append, next?_digits (by simp),
      nextNumber_unsigned]
  | text s =>
    change next? ('"' :: (s.toList.flatMap Text.escapeChar ++ ['"']) ++ rest) = _
    rw [List.cons_append, List.append_assoc, List.singleton_append, next?, scanText_quoted]
    simp
  | bytes b =>
    change next? ('b' :: '"' :: (b.flatMap Text.escapeByte ++ ['"']) ++ rest) = _
    rw [List.cons_append, List.cons_append, List.append_assoc, List.singleton_append, next?,
      scanBytes_quoted]
    simp
  | operator symbol =>
    change next? (' ' :: (symbol.toList ++ [' ']) ++ rest) = _
    rw [List.cons_append, List.append_assoc, List.singleton_append]
    exact next?_operator ht rest
  | sign c => rcases ht with rfl | rfl <;> rfl
  | _ => rfl

end Lexeme

/-! ### Sequences of lexemes -/

/-- The text consists of these lexemes. -/
inductive Spells : List Lexeme → List Char → Prop
  | nil : Spells [] []
  | cons {t : Lexeme} {ts : List Lexeme} {text : List Char} (ht : t.WellSpelled)
      (hnext : t.StandsBefore text) (h : Spells ts text) : Spells (t :: ts) (t.spell ++ text)

namespace Spells

open Lexeme

variable {t : Lexeme} {ts us : List Lexeme} {text : List Char}

lemma next?_eq (h : Spells (t :: ts) text) :
    ∃ rest, next? text = some (t, rest) ∧ Spells ts rest := by
  cases h with
  | @cons _ _ rest ht hnext hrest => exact ⟨rest, next?_spell ht hnext, hrest⟩

/-- A text has its lexemes in one way only. -/
theorem unique (h : Spells ts text) (h' : Spells us text) : ts = us := by
  induction ts generalizing us text with
  | nil =>
    cases h
    cases us with
    | nil => rfl
    | cons u us =>
      obtain ⟨rest, hnext, -⟩ := h'.next?_eq
      cases hnext
  | cons t ts ih =>
    obtain ⟨rest, hnext, hrest⟩ := h.next?_eq
    cases us with
    | nil =>
      cases h'
      cases hnext
    | cons u us =>
      obtain ⟨rest', hnext', hrest'⟩ := h'.next?_eq
      rw [hnext] at hnext'
      obtain ⟨rfl, rfl⟩ := Prod.mk.inj (Option.some.inj hnext')
      rw [ih hrest hrest']

end Spells

end CelEdit
