import CelEdit.Json.Value
import CelEdit.Proofs.Numerals

/-!
# JSON texts

What is written for a JSON value is read as that value, whether it is written without blanks or with
one line per item. Tokens are found again because each of them ends before the next one can start,
and the machine with a stack finds the containers.
-/

namespace CelEdit.Json

/-! ### Strings -/

/-- Written out, the unit is read as itself. -/
def StringUnit.WellSpelled : StringUnit → Prop
  | .plain c => c ≠ '"' ∧ c ≠ '\\' ∧ 0x20 ≤ c.toNat
  | .escaped letter => (unescape? letter).isSome
  | .code unit => unit < 0x10000

lemma hexValue?_hexDigit : ∀ d < 16, hexValue? (Text.hexDigit d) = some d := by decide

lemma scanString_spell {u : StringUnit} (hu : u.WellSpelled) (rest : List Char) :
    scanString (u.spell ++ rest) = (scanString rest).map fun r => (u :: r.1, r.2) := by
  cases u with
  | plain c =>
    obtain ⟨hquote, hbackslash, hcontrol⟩ := hu
    change scanString (c :: rest) = _
    rw [scanString.eq_def]
    split
    · next heq => cases heq
    · next heq => exact absurd (List.cons.inj heq).1 hquote
    · next heq => exact absurd (List.cons.inj heq).1 hbackslash
    · next heq => exact absurd (List.cons.inj heq).1 hbackslash
    · next heq =>
      obtain ⟨rfl, rfl⟩ := List.cons.inj heq
      rw [if_neg (by omega)]
  | escaped letter =>
    change scanString ('\\' :: letter :: rest) = _
    have hletter : letter ≠ 'u' := by
      rintro rfl
      cases hu
    rw [scanString.eq_def]
    split
    · next heq => cases heq
    · next heq => exact absurd (List.cons.inj heq).1 (by decide)
    · next heq => exact absurd (List.cons.inj (List.cons.inj heq).2).1 hletter
    · next heq =>
      obtain ⟨rfl, rfl⟩ := List.cons.inj (List.cons.inj heq).2
      exact if_pos hu
    · next hnot heq =>
      obtain ⟨rfl, rfl⟩ := List.cons.inj heq
      exact (hnot letter rest rfl rfl).elim
  | code unit =>
    have hdigit (n : Nat) : hexValue? (Text.hexDigit (n % 16)) = some (n % 16) :=
      hexValue?_hexDigit _ (Nat.mod_lt n (by omega))
    have hvalue : 4096 * (unit / 4096 % 16) + 256 * (unit / 256 % 16) + 16 * (unit / 16 % 16) +
        unit % 16 = unit := by
      have hlt : unit < 0x10000 := hu
      omega
    change scanString ('\\' :: 'u' :: _ :: _ :: _ :: _ :: rest) = _
    rw [scanString]
    simp only [hdigit, hvalue]

lemma scanString_units {units : List StringUnit} (h : ∀ u ∈ units, u.WellSpelled)
    (rest : List Char) :
    scanString (units.flatMap StringUnit.spell ++ '"' :: rest) = some (units, rest) := by
  induction units with
  | nil => rfl
  | cons u units ih =>
    rw [List.flatMap_cons, List.append_assoc, scanString_spell (h u List.mem_cons_self),
      ih (fun u hu => h u (List.mem_cons_of_mem _ hu))]
    rfl

/-- The unit that writes a character stands for it. -/
lemma encodeChar_cases (c : Char) :
    (∃ letter, encodeChar c = .escaped letter ∧ unescape? letter = some c) ∨
      encodeChar c = .code c.toNat ∧ c.toNat < 0x20 ∨
      encodeChar c = .plain c ∧ c ≠ '"' ∧ c ≠ '\\' ∧ 0x20 ≤ c.toNat := by
  unfold encodeChar
  split
  · exact .inl ⟨_, rfl, rfl⟩
  · exact .inl ⟨_, rfl, rfl⟩
  · exact .inl ⟨_, rfl, rfl⟩
  · exact .inl ⟨_, rfl, rfl⟩
  · exact .inl ⟨_, rfl, rfl⟩
  · exact .inl ⟨_, rfl, rfl⟩
  · exact .inl ⟨_, rfl, rfl⟩
  · next hquote hbackslash _ _ _ _ _ =>
    by_cases hcontrol : c.toNat < 0x20
    · exact .inr (.inl ⟨if_pos hcontrol, hcontrol⟩)
    · exact .inr (.inr ⟨if_neg hcontrol, hquote, hbackslash, by omega⟩)

lemma wellSpelled_encodeChar (c : Char) : (encodeChar c).WellSpelled := by
  rcases encodeChar_cases c with ⟨letter, hc, hletter⟩ | ⟨hc, hcontrol⟩ | ⟨hc, hplain⟩
  · rw [hc]
    exact Option.isSome_iff_exists.2 ⟨c, hletter⟩
  · rw [hc]
    change c.toNat < 0x10000
    omega
  · rw [hc]
    exact hplain

lemma wellSpelled_encodeString (s : String) : ∀ u ∈ encodeString s, u.WellSpelled := by
  intro u hu
  obtain ⟨c, -, rfl⟩ := List.mem_map.1 hu
  exact wellSpelled_encodeChar c

lemma decodeUnits_code {unit : Nat} (h : unit < 0x20) (rest : List StringUnit) :
    decodeUnits (.code unit :: rest) = (decodeUnits rest).map (Char.ofNat unit :: ·) := by
  have hhigh : isHighSurrogate unit = false := by simp [isHighSurrogate]; omega
  have hlow : isLowSurrogate unit = false := by simp [isLowSurrogate]; omega
  rw [decodeUnits.eq_def]
  split
  · next heq => cases heq
  · next heq => cases heq
  · next heq => cases heq
  · next high low tail heq =>
    obtain ⟨hunit, rfl⟩ := List.cons.inj heq
    obtain rfl := StringUnit.code.inj hunit
    simp [hhigh, hlow]
  · next heq =>
    obtain ⟨hunit, rfl⟩ := List.cons.inj heq
    obtain rfl := StringUnit.code.inj hunit
    simp [hhigh, hlow]

lemma decodeString_encodeString (s : String) : decodeString (encodeString s) = some s := by
  have hunits (cs : List Char) : decodeUnits (cs.map encodeChar) = some cs := by
    induction cs with
    | nil => rfl
    | cons c cs ih =>
      rw [List.map_cons]
      rcases encodeChar_cases c with ⟨letter, hc, hletter⟩ | ⟨hc, hcontrol⟩ | ⟨hc, -⟩
      · rw [hc, decodeUnits, hletter, ih]
        rfl
      · rw [hc, decodeUnits_code hcontrol, ih, Char.ofNat_toNat]
        rfl
      · rw [hc, decodeUnits, ih]
        rfl
  rw [decodeString, encodeString, hunits, Option.map_some, String.ofList_toList]

/-! ### Tokens -/

/-- The text does not go on with a character of a number. -/
def EndsNumber : List Char → Prop
  | [] => True
  | c :: _ => isNumberChar c = false

/-- Written out before a text that does not extend it, the token is read as itself. -/
def Token.WellSpelled : Token → Prop
  | .number n => Numeral.parse? n.spell = some n ∧ ∀ c ∈ n.spell, isNumberChar c = true
  | .string units => ∀ u ∈ units, u.WellSpelled
  | _ => True

/-- Only a number needs an end that can be seen. -/
def Token.StandsBefore (t : Token) (rest : List Char) : Prop :=
  match t with
  | .number _ => EndsNumber rest
  | _ => True

lemma isNumberChar_ne {c d : Char} (hc : isNumberChar c = true) (hd : isNumberChar d = false) :
    c ≠ d := by
  rintro rfl
  simp [hc] at hd

lemma punctuation?_eq_none {c : Char} (hc : isNumberChar c = true) : punctuation? c = none := by
  unfold punctuation?
  split
  case h_7 => rfl
  all_goals exact absurd hc (by decide)

lemma EndsNumber.head? {rest : List Char} (h : EndsNumber rest) :
    ∀ c ∈ rest.head?, isNumberChar c = false := by
  intro c hc
  cases rest with
  | nil => cases hc
  | cons d rest =>
    obtain rfl := Option.some.inj hc
    exact h

lemma Token.WellSpelled.number_eq_cons {n : Numeral} (h : (Token.number n).WellSpelled) :
    ∃ c cs, n.spell = c :: cs := by
  cases hn : n.spell with
  | nil =>
    have hparse := h.1
    rw [hn] at hparse
    cases hparse
  | cons c cs => exact ⟨c, cs, rfl⟩

lemma nextToken?_number {n : Numeral} (h : (Token.number n).WellSpelled) {rest : List Char}
    (hrest : EndsNumber rest) : nextToken? (n.spell ++ rest) = some (.number n, rest) := by
  obtain ⟨c, cs, hn⟩ := h.number_eq_cons
  obtain ⟨hparse, hchars⟩ := h
  rw [hn] at hparse hchars ⊢
  have hc : isNumberChar c = true := hchars c List.mem_cons_self
  obtain ⟨htake, hdrop⟩ :=
    span_append (fun d hd => hchars d (List.mem_cons_of_mem _ hd)) hrest.head?
  rw [List.cons_append, nextToken?.eq_def]
  split
  · next heq => exact absurd (List.cons.inj heq).1 (isNumberChar_ne hc (by decide))
  · next heq => exact absurd (List.cons.inj heq).1 (isNumberChar_ne hc (by decide))
  · next heq => exact absurd (List.cons.inj heq).1 (isNumberChar_ne hc (by decide))
  · next heq => exact absurd (List.cons.inj heq).1 (isNumberChar_ne hc (by decide))
  · next heq =>
    obtain ⟨rfl, rfl⟩ := List.cons.inj heq
    simp only [punctuation?_eq_none hc, hc, if_true, htake, hdrop, hparse, Option.map_some]
  · next heq => cases heq

lemma nextToken?_spell {t : Token} (ht : t.WellSpelled) {rest : List Char}
    (hrest : t.StandsBefore rest) : nextToken? (t.spell ++ rest) = some (t, rest) := by
  cases t with
  | number n => exact nextToken?_number ht hrest
  | string units =>
    change nextToken? ('"' :: (units.flatMap StringUnit.spell ++ ['"']) ++ rest) = _
    rw [List.cons_append, List.append_assoc]
    change (scanString (units.flatMap StringUnit.spell ++ '"' :: rest)).map _ = _
    rw [scanString_units ht]
    rfl
  | bool b => cases b <;> rfl
  | _ => rfl

lemma Token.WellSpelled.spell_eq_cons {t : Token} (ht : t.WellSpelled) :
    ∃ c cs, t.spell = c :: cs ∧ isBlank c = false := by
  cases t with
  | number n =>
    obtain ⟨c, cs, hn⟩ := ht.number_eq_cons
    have hc : isNumberChar c = true := ht.2 c (hn ▸ List.mem_cons_self)
    refine ⟨c, cs, hn, ?_⟩
    simp [isBlank, isNumberChar_ne hc (show isNumberChar ' ' = false by decide),
      isNumberChar_ne hc (show isNumberChar '\t' = false by decide),
      isNumberChar_ne hc (show isNumberChar '\n' = false by decide),
      isNumberChar_ne hc (show isNumberChar '\r' = false by decide)]
  | bool b => cases b <;> exact ⟨_, _, rfl, by decide⟩
  | _ => exact ⟨_, _, rfl, by decide⟩

lemma tokenize_spell {t : Token} (ht : t.WellSpelled) {rest : List Char}
    (hrest : t.StandsBefore rest) :
    tokenize (t.spell ++ rest) = (tokenize rest).map (t :: ·) := by
  obtain ⟨c, cs, hspell, hblank⟩ := ht.spell_eq_cons
  have hnext : nextToken? (c :: (cs ++ rest)) = some (t, rest) := by
    rw [← List.cons_append, ← hspell]
    exact nextToken?_spell ht hrest
  rw [hspell, List.cons_append, tokenize]
  simp only [hblank, Bool.false_eq_true, if_false]
  split
  · next token tail heq =>
    rw [hnext] at heq
    cases heq
    rfl
  · next heq =>
    rw [hnext] at heq
    cases heq

/-- The text consists of these tokens and of blanks between them. -/
inductive Spells : List Token → List Char → Prop
  | nil : Spells [] []
  | blank {c : Char} {ts : List Token} {text : List Char} (hc : isBlank c = true)
      (h : Spells ts text) : Spells ts (c :: text)
  | token {t : Token} {ts : List Token} {text : List Char} (ht : t.WellSpelled)
      (hnext : t.StandsBefore text) (h : Spells ts text) : Spells (t :: ts) (t.spell ++ text)

namespace Spells

variable {ts : List Token} {text : List Char}

lemma tokenize_eq (h : Spells ts text) : tokenize text = some ts := by
  induction h with
  | nil => rw [tokenize]
  | blank hc _ ih => rw [tokenize, if_pos hc, ih]
  | token ht hnext _ ih => rw [tokenize_spell ht hnext, ih, Option.map_some]

lemma blanks {gap : List Char} (hgap : ∀ c ∈ gap, isBlank c = true) (h : Spells ts text) :
    Spells ts (gap ++ text) := by
  induction gap with
  | nil => exact h
  | cons c gap ih =>
    exact .blank (hgap c List.mem_cons_self) (ih fun d hd => hgap d (List.mem_cons_of_mem _ hd))

end Spells

lemma isBlank_nil : ∀ c ∈ ([] : List Char), isBlank c = true := by
  simp

lemma isBlank_space : ∀ c ∈ [' '], isBlank c = true :=
  List.all_eq_true.1 rfl

lemma isBlank_newLine (depth : Nat) : ∀ c ∈ newLine depth, isBlank c = true := by
  intro c hc
  rcases List.mem_cons.1 hc with rfl | hspace
  · decide
  · rw [List.eq_of_mem_replicate hspace]
    decide

/-! ### Values -/

/-- What holds of a container when it holds of all that it contains holds of every value. -/
theorem induct {P : Json → Prop} (null : P .null) (bool : ∀ b, P (.bool b))
    (number : ∀ n, P (.number n)) (string : ∀ units, P (.string units))
    (array : ∀ items, (∀ item ∈ items, P item) → P (.array items))
    (object : ∀ members, (∀ m ∈ members, P m.2) → P (.object members)) (v : Json) : P v :=
  @Json.rec P (fun items => ∀ item ∈ items, P item) (fun members => ∀ m ∈ members, P m.2)
    (fun m => P m.2) null bool number string array object
    (fun _ h => absurd h List.not_mem_nil)
    (fun _ _ hitem hitems => List.forall_mem_cons.2 ⟨hitem, hitems⟩)
    (fun _ h => absurd h List.not_mem_nil)
    (fun _ _ hmember hmembers => List.forall_mem_cons.2 ⟨hmember, hmembers⟩)
    (fun _ _ hv => hv) v

/-- Every token of the value can be written so that it is read as itself. -/
def WellSpelled (v : Json) : Prop := ∀ t ∈ v.tokens, t.WellSpelled

lemma forall_mem_itemTokens {items : List Json} :
    (∀ t ∈ itemTokens items, t.WellSpelled) ↔ ∀ item ∈ items, item.WellSpelled := by
  induction items with
  | nil => simp [itemTokens, Token.WellSpelled]
  | cons item items ih =>
    simp only [itemTokens, List.cons_append, List.forall_mem_cons, List.forall_mem_append, ih]
    exact and_iff_right trivial

lemma forall_mem_memberTokens {members : List (List StringUnit × Json)} :
    (∀ t ∈ memberTokens members, t.WellSpelled) ↔
      ∀ m ∈ members, (∀ u ∈ m.1, u.WellSpelled) ∧ m.2.WellSpelled := by
  induction members with
  | nil => simp [memberTokens, Token.WellSpelled]
  | cons m members ih =>
    obtain ⟨key, v⟩ := m
    simp only [memberTokens, List.cons_append, List.forall_mem_cons, List.forall_mem_append, ih]
    exact ⟨fun ⟨_, hkey, _, hv, hmembers⟩ => ⟨⟨hkey, hv⟩, hmembers⟩,
      fun ⟨⟨hkey, hv⟩, hmembers⟩ => ⟨trivial, hkey, trivial, hv, hmembers⟩⟩

lemma wellSpelled_array {items : List Json} :
    (Json.array items).WellSpelled ↔ ∀ item ∈ items, item.WellSpelled := by
  cases items with
  | nil => simp [WellSpelled, tokens, Token.WellSpelled]
  | cons item items =>
    simp only [WellSpelled, tokens, List.cons_append, List.forall_mem_cons, List.forall_mem_append,
      forall_mem_itemTokens]
    exact and_iff_right trivial

lemma wellSpelled_object {members : List (List StringUnit × Json)} :
    (Json.object members).WellSpelled ↔
      ∀ m ∈ members, (∀ u ∈ m.1, u.WellSpelled) ∧ m.2.WellSpelled := by
  cases members with
  | nil => simp [WellSpelled, tokens, Token.WellSpelled]
  | cons m members =>
    obtain ⟨key, v⟩ := m
    simp only [WellSpelled, tokens, List.cons_append, List.forall_mem_cons, List.forall_mem_append,
      forall_mem_memberTokens]
    exact ⟨fun ⟨_, hkey, _, hv, hmembers⟩ => ⟨⟨hkey, hv⟩, hmembers⟩,
      fun ⟨⟨hkey, hv⟩, hmembers⟩ => ⟨trivial, hkey, trivial, hv, hmembers⟩⟩

/-- The text can stand for the value's tokens wherever a number would be seen to end. -/
def SpelledBy (v : Json) (text : List Char) : Prop :=
  ∀ (ts : List Token) (rest : List Char), Spells ts rest → EndsNumber rest →
    Spells (v.tokens ++ ts) (text ++ rest)

namespace SpelledBy

variable {v : Json} {text gap space rest : List Char} {ts : List Token}

lemma of_token {t : Token} (hv : v.WellSpelled) (ht : v.tokens = [t]) : v.SpelledBy t.spell := by
  intro ts rest h hrest
  rw [ht]
  refine .token (hv t (ht ▸ List.mem_cons_self)) ?_ h
  cases t with
  | number n => exact hrest
  | _ => trivial

/-- Blanks, an item and what follows it. -/
lemma item (hv : v.SpelledBy text) (hgap : ∀ c ∈ gap, isBlank c = true) (h : Spells ts rest)
    (hrest : EndsNumber rest) : Spells (v.tokens ++ ts) (gap ++ (text ++ rest)) :=
  (hv ts rest h hrest).blanks hgap

/-- Blanks, a key, blanks again and the member's value. -/
lemma member (hv : v.SpelledBy text) (hgap : ∀ c ∈ gap, isBlank c = true)
    (hspace : ∀ c ∈ space, isBlank c = true) {key : List StringUnit}
    (hkey : ∀ u ∈ key, u.WellSpelled) (h : Spells ts rest) (hrest : EndsNumber rest) :
    Spells (.string key :: .colon :: (v.tokens ++ ts))
      (gap ++ (spellString key ++ ':' :: (space ++ (text ++ rest)))) := by
  have hvalue : Spells (.colon :: (v.tokens ++ ts)) (':' :: (space ++ (text ++ rest))) :=
    .token (t := .colon) trivial trivial (hv.item hspace h hrest)
  exact (Spells.token (t := .string key) hkey trivial hvalue).blanks hgap

end SpelledBy

/-- The text can stand for further items and the end of an array. -/
def ItemsSpelledBy (items : List Json) (text : List Char) : Prop :=
  ∀ (ts : List Token) (rest : List Char), Spells ts rest →
    Spells (itemTokens items ++ ts) (text ++ rest) ∧ EndsNumber (text ++ rest)

/-- The text can stand for further members and the end of an object. -/
def MembersSpelledBy (members : List (List StringUnit × Json)) (text : List Char) : Prop :=
  ∀ (ts : List Token) (rest : List Char), Spells ts rest →
    Spells (memberTokens members ++ ts) (text ++ rest) ∧ EndsNumber (text ++ rest)

lemma endsNumber_blanks {gap : List Char} (hgap : ∀ c ∈ gap, isBlank c = true) {c : Char}
    (hc : isNumberChar c = false) (rest : List Char) : EndsNumber (gap ++ c :: rest) := by
  cases gap with
  | nil => exact hc
  | cons d gap =>
    have hd : isBlank d = true := hgap d List.mem_cons_self
    change isNumberChar d = false
    simp only [isBlank, Bool.or_eq_true, decide_eq_true_eq] at hd
    rcases hd with ((rfl | rfl) | rfl) | rfl <;> decide

section Layout

variable {gap space text tail : List Char} (hgap : ∀ c ∈ gap, isBlank c = true)
  (hspace : ∀ c ∈ space, isBlank c = true)

include hgap

lemma ItemsSpelledBy.nil : ItemsSpelledBy [] (gap ++ [']']) := by
  intro ts rest h
  rw [List.append_assoc]
  exact ⟨(Spells.token (t := .closeBracket) trivial trivial h).blanks hgap,
    endsNumber_blanks hgap (by decide) rest⟩

lemma ItemsSpelledBy.cons {item : Json} {items : List Json} (hitem : item.SpelledBy text)
    (hitems : ItemsSpelledBy items tail) :
    ItemsSpelledBy (item :: items) (',' :: gap ++ text ++ tail) := by
  intro ts rest h
  obtain ⟨hspells, hends⟩ := hitems ts rest h
  have hnext := Spells.token (t := .comma) trivial trivial (hitem.item hgap hspells hends)
  exact ⟨by simpa [itemTokens, Token.spell] using hnext, rfl⟩

lemma SpelledBy.array {item : Json} {items : List Json} (hitem : item.SpelledBy text)
    (hitems : ItemsSpelledBy items tail) :
    (Json.array (item :: items)).SpelledBy ('[' :: gap ++ text ++ tail) := by
  intro ts rest h _
  obtain ⟨hspells, hends⟩ := hitems ts rest h
  have hfirst := Spells.token (t := .openBracket) trivial trivial (hitem.item hgap hspells hends)
  simpa [tokens, Token.spell] using hfirst

lemma MembersSpelledBy.nil : MembersSpelledBy [] (gap ++ ['\x7d']) := by
  intro ts rest h
  rw [List.append_assoc]
  exact ⟨(Spells.token (t := .closeBrace) trivial trivial h).blanks hgap,
    endsNumber_blanks hgap (by decide) rest⟩

include hspace

lemma MembersSpelledBy.cons {key : List StringUnit} {v : Json}
    {members : List (List StringUnit × Json)} (hkey : ∀ u ∈ key, u.WellSpelled)
    (hv : v.SpelledBy text) (hmembers : MembersSpelledBy members tail) :
    MembersSpelledBy ((key, v) :: members)
      (',' :: gap ++ spellString key ++ ':' :: space ++ text ++ tail) := by
  intro ts rest h
  obtain ⟨hspells, hends⟩ := hmembers ts rest h
  have hnext := Spells.token (t := .comma) trivial trivial
    (hv.member hgap hspace hkey hspells hends)
  exact ⟨by simpa [memberTokens, Token.spell] using hnext, rfl⟩

lemma SpelledBy.object {key : List StringUnit} {v : Json}
    {members : List (List StringUnit × Json)} (hkey : ∀ u ∈ key, u.WellSpelled)
    (hv : v.SpelledBy text) (hmembers : MembersSpelledBy members tail) :
    (Json.object ((key, v) :: members)).SpelledBy
      ('\x7b' :: gap ++ spellString key ++ ':' :: space ++ text ++ tail) := by
  intro ts rest h _
  obtain ⟨hspells, hends⟩ := hmembers ts rest h
  have hfirst := Spells.token (t := .openBrace) trivial trivial
    (hv.member hgap hspace hkey hspells hends)
  simpa [tokens, Token.spell] using hfirst

end Layout

lemma spelledBy_brackets : (Json.array []).SpelledBy ['[', ']'] := by
  intro ts rest h _
  exact .token (t := .openBracket) trivial trivial (.token (t := .closeBracket) trivial trivial h)

lemma spelledBy_braces : (Json.object []).SpelledBy ['\x7b', '\x7d'] := by
  intro ts rest h _
  exact .token (t := .openBrace) trivial trivial (.token (t := .closeBrace) trivial trivial h)

lemma itemsSpelledBy_compact {items : List Json}
    (hitems : ∀ item ∈ items, item.SpelledBy item.compact) :
    ItemsSpelledBy items ((itemTokens items).flatMap Token.spell) := by
  induction items with
  | nil => exact ItemsSpelledBy.nil isBlank_nil
  | cons item items ih =>
    obtain ⟨hitem, hitems⟩ := List.forall_mem_cons.1 hitems
    simpa [itemTokens, compact, Token.spell] using
      ItemsSpelledBy.cons isBlank_nil hitem (ih hitems)

lemma membersSpelledBy_compact {members : List (List StringUnit × Json)}
    (hkeys : ∀ m ∈ members, ∀ u ∈ m.1, u.WellSpelled)
    (hmembers : ∀ m ∈ members, m.2.SpelledBy m.2.compact) :
    MembersSpelledBy members ((memberTokens members).flatMap Token.spell) := by
  induction members with
  | nil => exact MembersSpelledBy.nil isBlank_nil
  | cons m members ih =>
    obtain ⟨hkey, hkeys⟩ := List.forall_mem_cons.1 hkeys
    obtain ⟨hv, hmembers⟩ := List.forall_mem_cons.1 hmembers
    simpa [memberTokens, compact, Token.spell] using
      MembersSpelledBy.cons isBlank_nil isBlank_nil hkey hv
        (ih hkeys hmembers)

lemma spelledBy_compact (v : Json) (hv : v.WellSpelled) : v.SpelledBy v.compact := by
  induction v using Json.induct with
  | null | bool _ | number _ | string _ =>
    simpa [compact, tokens] using SpelledBy.of_token hv rfl
  | array items ih =>
    rw [wellSpelled_array] at hv
    cases items with
    | nil => exact spelledBy_brackets
    | cons item items =>
      obtain ⟨hitem, hitems⟩ := List.forall_mem_cons.1 fun item h => ih item h (hv item h)
      simpa [tokens, compact, Token.spell] using
        SpelledBy.array isBlank_nil hitem (itemsSpelledBy_compact hitems)
  | object members ih =>
    rw [wellSpelled_object] at hv
    cases members with
    | nil => exact spelledBy_braces
    | cons m members =>
      obtain ⟨hkey, hkeys⟩ := List.forall_mem_cons.1 fun m h => (hv m h).1
      obtain ⟨hm, hmembers⟩ := List.forall_mem_cons.1 fun m h => ih m h (hv m h).2
      simpa [tokens, compact, Token.spell] using
        SpelledBy.object isBlank_nil isBlank_nil hkey hm
          (membersSpelledBy_compact hkeys hmembers)

lemma itemsSpelledBy_pretty {items : List Json} {depth : Nat}
    (hitems : ∀ item ∈ items, item.SpelledBy (item.prettyAt (depth + 1))) :
    ItemsSpelledBy items (prettyItems depth items) := by
  induction items with
  | nil => exact ItemsSpelledBy.nil (isBlank_newLine depth)
  | cons item items ih =>
    obtain ⟨hitem, hitems⟩ := List.forall_mem_cons.1 hitems
    rw [prettyItems]
    exact ItemsSpelledBy.cons (isBlank_newLine (depth + 1)) hitem (ih hitems)

lemma membersSpelledBy_pretty {members : List (List StringUnit × Json)} {depth : Nat}
    (hkeys : ∀ m ∈ members, ∀ u ∈ m.1, u.WellSpelled)
    (hmembers : ∀ m ∈ members, m.2.SpelledBy (m.2.prettyAt (depth + 1))) :
    MembersSpelledBy members (prettyMembers depth members) := by
  induction members with
  | nil => exact MembersSpelledBy.nil (isBlank_newLine depth)
  | cons m members ih =>
    obtain ⟨hkey, hkeys⟩ := List.forall_mem_cons.1 hkeys
    obtain ⟨hv, hmembers⟩ := List.forall_mem_cons.1 hmembers
    simpa [prettyMembers] using
      MembersSpelledBy.cons (isBlank_newLine (depth + 1)) isBlank_space hkey hv
        (ih hkeys hmembers)

lemma spelledBy_prettyAt (v : Json) (hv : v.WellSpelled) (depth : Nat) :
    v.SpelledBy (v.prettyAt depth) := by
  induction v using Json.induct generalizing depth with
  | null | bool _ | number _ | string _ =>
    rw [prettyAt]
    exact SpelledBy.of_token hv rfl
  | array items ih =>
    rw [wellSpelled_array] at hv
    cases items with
    | nil =>
      rw [prettyAt]
      exact spelledBy_brackets
    | cons item items =>
      obtain ⟨hitem, hitems⟩ :=
        List.forall_mem_cons.1 fun item h => ih item h (hv item h) (depth + 1)
      rw [prettyAt]
      exact SpelledBy.array (isBlank_newLine (depth + 1)) hitem (itemsSpelledBy_pretty hitems)
  | object members ih =>
    rw [wellSpelled_object] at hv
    cases members with
    | nil =>
      rw [prettyAt]
      exact spelledBy_braces
    | cons m members =>
      obtain ⟨hkey, hkeys⟩ := List.forall_mem_cons.1 fun m h => (hv m h).1
      obtain ⟨hm, hmembers⟩ := List.forall_mem_cons.1 fun m h => ih m h (hv m h).2 (depth + 1)
      simpa [prettyAt] using
        SpelledBy.object (isBlank_newLine (depth + 1)) isBlank_space hkey hm
          (membersSpelledBy_pretty hkeys hmembers)

/-! ### The machine -/

/-- From where a value is expected, reading its tokens completes it. -/
def Completes (v : Json) : Prop :=
  ∀ (stack : List Frame) (rest : List Token),
    (v.tokens ++ rest).foldlM State.step (.value stack) =
      rest.foldlM State.step (.complete v stack)

lemma foldlM_cons_of_step {s s' : State} {t : Token} (h : s.step t = some s') (ts : List Token) :
    (t :: ts).foldlM State.step s = ts.foldlM State.step s' := by
  rw [List.foldlM_cons, h]
  rfl

/-- A value does not start with what closes an array. -/
lemma foldlM_firstItem (v : Json) (stack : List Frame) (rest : List Token) :
    (v.tokens ++ rest).foldlM State.step (.firstItem stack) =
      (v.tokens ++ rest).foldlM State.step (.value (.array [] :: stack)) := by
  obtain ⟨t, ts, hv, ht⟩ : ∃ t ts, v.tokens = t :: ts ∧ t ≠ .closeBracket := by
    cases v with
    | array items => cases items <;> exact ⟨_, _, rfl, nofun⟩
    | object members => cases members <;> exact ⟨_, _, rfl, nofun⟩
    | _ => exact ⟨_, _, rfl, nofun⟩
  rw [hv, List.cons_append, List.foldlM_cons, List.foldlM_cons]
  congr 1
  cases t with
  | closeBracket => exact absurd rfl ht
  | _ => rfl

lemma foldlM_itemTokens {items : List Json} (hitems : ∀ item ∈ items, item.Completes) (v : Json)
    (done : List Json) (stack : List Frame) (rest : List Token) :
    (itemTokens items ++ rest).foldlM State.step (.complete v (.array done :: stack)) =
      rest.foldlM State.step (.complete (.array ((v :: done).reverse ++ items)) stack) := by
  induction items generalizing v done with
  | nil =>
    rw [itemTokens, List.append_nil]
    rfl
  | cons item items ih =>
    obtain ⟨hitem, hitems⟩ := List.forall_mem_cons.1 hitems
    simp only [itemTokens, List.cons_append, List.append_assoc]
    rw [foldlM_cons_of_step rfl, hitem, ih hitems, List.reverse_cons, List.append_assoc]
    rfl

lemma foldlM_memberTokens {members : List (List StringUnit × Json)}
    (hmembers : ∀ m ∈ members, m.2.Completes) (key : List StringUnit) (v : Json)
    (done : List (List StringUnit × Json)) (stack : List Frame) (rest : List Token) :
    (memberTokens members ++ rest).foldlM State.step (.complete v (.member done key :: stack)) =
      rest.foldlM State.step
        (.complete (.object (((key, v) :: done).reverse ++ members)) stack) := by
  induction members generalizing key v done with
  | nil =>
    rw [memberTokens, List.append_nil]
    rfl
  | cons m members ih =>
    obtain ⟨hm, hmembers⟩ := List.forall_mem_cons.1 hmembers
    simp only [memberTokens, List.cons_append, List.append_assoc]
    rw [foldlM_cons_of_step rfl, foldlM_cons_of_step rfl, foldlM_cons_of_step rfl, hm, ih hmembers,
      List.reverse_cons, List.append_assoc]
    rfl

lemma completes (v : Json) : v.Completes := by
  induction v using Json.induct with
  | null | bool _ | number _ | string _ => exact fun _ _ => rfl
  | array items ih =>
    intro stack rest
    cases items with
    | nil => rfl
    | cons item items =>
      obtain ⟨hitem, hitems⟩ := List.forall_mem_cons.1 ih
      simp only [tokens, List.cons_append, List.append_assoc]
      rw [foldlM_cons_of_step rfl, foldlM_firstItem, hitem, foldlM_itemTokens hitems]
      rfl
  | object members ih =>
    intro stack rest
    cases members with
    | nil => rfl
    | cons m members =>
      obtain ⟨hm, hmembers⟩ := List.forall_mem_cons.1 ih
      simp only [tokens, List.cons_append, List.append_assoc]
      rw [foldlM_cons_of_step rfl, foldlM_cons_of_step rfl, foldlM_cons_of_step rfl, hm,
        foldlM_memberTokens hmembers]
      rfl

lemma ofTokens?_tokens (v : Json) : ofTokens? v.tokens = some v := by
  have hrun := v.completes [] []
  rw [List.append_nil] at hrun
  rw [ofTokens?, hrun]
  rfl

lemma parse?_of_spelledBy {v : Json} {text : List Char} (h : v.SpelledBy text) :
    parse? text = some v := by
  have hspells : Spells v.tokens text := by
    simpa using h [] [] .nil trivial
  rw [parse?, hspells.tokenize_eq, Option.bind_some, ofTokens?_tokens]

theorem parse?_compact {v : Json} (hv : v.WellSpelled) : parse? v.compact = some v :=
  parse?_of_spelledBy (spelledBy_compact v hv)

theorem parse?_pretty {v : Json} (hv : v.WellSpelled) : parse? v.pretty = some v :=
  parse?_of_spelledBy (spelledBy_prettyAt v hv 0)

end CelEdit.Json
