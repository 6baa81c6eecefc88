import CelEdit.Proofs.Lexemes
import CelEdit.Proofs.Renderings

/-!
# Texts of plain expressions

An expression is plain when its names are names and its operators have their operands. The text of a
plain expression without macro calls consists of the lexemes of the expression: those of its
operands, in parentheses where an operand binds too loosely, and the signs between them.
-/

namespace CelEdit

/-! ### Plain expressions -/

/-- Words that are not free to be names. -/
def reservedWords : List String := ["true", "false", "null", "in", "has"]

def isPlainName (name : String) : Bool :=
  match name.toList with
  | [] => false
  | c :: cs => isNameStart c && cs.all isNameChar && name ∉ reservedWords

def Constant.isPlain : Constant → Bool
  | .int i => 0 ≤ i.toInt
  | .double _ => false
  | _ => true

namespace Kind

/-- What a node of a plain expression says about itself. -/
def isPlain : Kind Expr → Bool
  | .notSet => false
  | .constant c => c.isPlain
  | .ident i => isPlainName i.name
  | .select s => isPlainName s.field
  | .call ⟨some _, function, _⟩ => isPlainName function
  | .call ⟨none, function, args⟩ =>
    match Operator.ofFunction? function with
    | some op =>
      args.length = op.arity &&
        (op ≠ .optionalSelect ||
          (args[1]?.bind (fun e => Unparse.fieldName? e.kind)).any isPlainName)
    | none => isPlainName function
  | .list l => l.optionalIndices.toList.all (fun i => i.toNat < l.elements.length)
  | .struct s => isPlainName s.messageName && s.entries.all (fun e => isPlainName e.fieldKey)
  | .map _ => true
  | .comprehension _ => false

end Kind

/-- Every node is one that has a text of its own: names are plain, operators have their operands,
numbers need no sign, and only elements of a list are optional. -/
def Expr.Plain (e : Expr) : Prop := ∀ x ∈ e.preorder, x.kind.isPlain = true

instance (e : Expr) : Decidable e.Plain :=
  inferInstanceAs (Decidable (∀ x ∈ e.preorder, x.kind.isPlain = true))

lemma isName_of_all {name : String} {c : Char} {cs : List Char} (hlist : name.toList = c :: cs)
    (h : (isNameStart c && cs.all isNameChar) = true) : Lexeme.IsName name := by
  rw [Bool.and_eq_true] at h
  exact ⟨c, cs, hlist, h.1, List.all_eq_true.1 h.2⟩

lemma isName_of_isPlainName {name : String} (h : isPlainName name = true) : Lexeme.IsName name := by
  unfold isPlainName at h
  split at h
  · cases h
  · next c cs hlist =>
    rw [Bool.and_eq_true] at h
    exact isName_of_all hlist h.1

lemma not_mem_reservedWords {name : String} (h : isPlainName name = true) :
    name ∉ reservedWords := by
  unfold isPlainName at h
  split at h
  · cases h
  · rw [Bool.and_eq_true] at h
    exact of_decide_eq_true h.2

/-! ### Operators and their symbols -/

namespace Operator

/-- The function that an operator is written for. -/
def function : Operator → String
  | .conditional => "_?_:_"
  | .binary "in" _ => "@in"
  | .binary symbol _ => "_" ++ symbol ++ "_"
  | .unary sign => String.ofList [sign, '_']
  | .index => "_[_]"
  | .optionalIndex => "_[?_]"
  | .optionalSelect => "_?._"

/-- The operator between operands that a symbol starts. -/
def ofSymbol? : String → Option Operator
  | "?" => some .conditional
  | "||" => some (.binary "||" 7)
  | "&&" => some (.binary "&&" 6)
  | "==" => some (.binary "==" 5)
  | "!=" => some (.binary "!=" 5)
  | "<" => some (.binary "<" 5)
  | "<=" => some (.binary "<=" 5)
  | ">" => some (.binary ">" 5)
  | ">=" => some (.binary ">=" 5)
  | "in" => some (.binary "in" 5)
  | "+" => some (.binary "+" 4)
  | "-" => some (.binary "-" 4)
  | "*" => some (.binary "*" 3)
  | "/" => some (.binary "/" 3)
  | "%" => some (.binary "%" 3)
  | _ => none

/-- Binary operators are known by their symbols and bind looser than signs. -/
def isKnown : Operator → Bool
  | .binary symbol level =>
    ofSymbol? symbol = some (.binary symbol level) && 3 ≤ level && level ≤ 7 &&
      symbol.toList.all (· ≠ ' ')
  | .unary sign => sign = '!' || sign = '-'
  | _ => true

lemma ofFunction?_eq_some {name : String} {op : Operator} (h : ofFunction? name = some op) :
    op.function = name ∧ op.isKnown = true := by
  unfold ofFunction? at h
  split at h
  case h_21 => cases h
  all_goals
    cases h
    decide

lemma isKnown_binary {symbol : String} {level : Nat} (h : (binary symbol level).isKnown = true) :
    ofSymbol? symbol = some (.binary symbol level) ∧ 3 ≤ level ∧ level ≤ 7 ∧
      ∀ c ∈ symbol.toList, c ≠ ' ' := by
  simpa [isKnown, and_assoc] using h

end Operator

/-! ### Lexemes of an expression -/

def Constant.lexeme : Constant → Lexeme
  | .null => .word "null"
  | .bool true => .word "true"
  | .bool false => .word "false"
  | .int i => .number i.toInt.toNat
  | .uint u => .unsigned u.toNat
  | .double _ => .number 0
  | .string s => .text s
  | .bytes b => .bytes b

namespace Expr

open Unparse

/-- A child and its lexemes as an operand. -/
def operandLexemes (limit : Nat) (c : Expr × List Lexeme) : List Lexeme :=
  if looserThan limit c.1 then .openParen :: (c.2 ++ [.closeParen]) else c.2

/-- Items with commas between them, inside of a pair of brackets. -/
def enclosed (left right : Lexeme) (items : List (List Lexeme)) : List Lexeme :=
  left :: ([.comma].intercalate items ++ [right])

def marked (optional : Bool) (item : List Lexeme) : List Lexeme :=
  if optional then .mark :: item else item

def operatorLexemes (op : Operator) (args : List (Expr × List Lexeme)) : List Lexeme :=
  match op, args with
  | .conditional, [condition, yes, no] =>
    operandLexemes 7 condition ++ .operator "?" :: (operandLexemes 8 yes ++
      .operator ":" :: operandLexemes 8 no)
  | .binary symbol level, [left, right] =>
    operandLexemes level left ++ .operator symbol :: operandLexemes (level - 1) right
  | .unary sign, [arg] => .sign sign :: operandLexemes 2 arg
  | .index, [arg, position] =>
    operandLexemes 1 arg ++ .openBracket :: (position.2 ++ [.closeBracket])
  | .optionalIndex, [arg, position] =>
    operandLexemes 1 arg ++ .openBracket :: .mark :: (position.2 ++ [.closeBracket])
  | .optionalSelect, [arg, field] =>
    operandLexemes 1 arg ++ [.dot, .mark, .word ((fieldName? field.1.kind).getD "")]
  | _, _ => []

def nodeLexemes : Kind (Expr × List Lexeme) → List Lexeme
  | .notSet => []
  | .constant c => [c.lexeme]
  | .ident i => [.word i.name]
  | .select s =>
    let selected := operandLexemes 1 s.operand ++ [.dot, .word s.field]
    if s.testOnly then .word "has" :: .openParen :: (selected ++ [.closeParen]) else selected
  | .call ⟨some target, function, args⟩ =>
    operandLexemes 1 target ++
      .dot :: .word function :: enclosed .openParen .closeParen (args.map Prod.snd)
  | .call ⟨none, function, args⟩ =>
    match Operator.ofFunction? function with
    | some op => operatorLexemes op args
    | none => .word function :: enclosed .openParen .closeParen (args.map Prod.snd)
  | .list l =>
    enclosed .openBracket .closeBracket
      (l.elements.mapIdx (fun i c => marked (l.optionalIndices.contains i) c.2))
  | .struct s =>
    .word s.messageName :: enclosed .openBrace .closeBrace
      (s.entries.map (fun e => marked e.optionalEntry (.word e.fieldKey :: .colon :: e.value.2)))
  | .map m =>
    enclosed .openBrace .closeBrace
      (m.entries.map (fun e => marked e.optionalEntry (e.key.2 ++ .colon :: e.value.2)))
  | .comprehension _ => []

/-- The lexemes of an expression's text. A node that has no text has none. -/
def lexemes : Expr → List Lexeme := fold fun _ k => nodeLexemes k

lemma lexemes_mk (id : NodeId) (k : Kind Expr) :
    lexemes ⟨id, k⟩ = nodeLexemes (k.mapChildren (fun c => (c, c.lexemes))) := by
  conv_lhs => unfold lexemes
  rw [fold_eq]
  rfl

end Expr

/-! ### Texts that spell lexemes -/

/-- The text can stand for the lexemes before anything that ends a name. -/
def Spelling (ts : List Lexeme) (text : List Char) : Prop :=
  ∀ (us : List Lexeme) (rest : List Char), Spells us rest → Lexeme.EndsName rest →
    Spells (ts ++ us) (text ++ rest)

/-- The lexeme can be told from whatever stands around it. -/
structure Lexeme.Delimits (t : Lexeme) : Prop where
  spelled : t.WellSpelled
  before : ∀ rest, t.StandsBefore rest
  ends : ∀ rest, EndsName (t.spell ++ rest)

namespace Spelling

open Lexeme

variable {ts us : List Lexeme} {a b : List Char} {t : Lexeme}

lemma nil : Spelling [] [] := fun _ _ h _ => h

lemma single (ht : t.WellSpelled) : Spelling [t] t.spell := by
  intro us rest h hrest
  apply Spells.cons ht _ h
  cases t with
  | word | number => exact hrest
  | _ => trivial

lemma append (hts : Spelling ts a) (hus : Spelling us b) (hends : ∀ rest, EndsName (b ++ rest)) :
    Spelling (ts ++ us) (a ++ b) := by
  intro vs rest h hrest
  rw [List.append_assoc, List.append_assoc]
  exact hts _ _ (hus vs rest h hrest) (hends rest)

lemma join (hts : Spelling ts a) (ht : t.Delimits) (hus : Spelling us b) :
    Spelling (ts ++ t :: us) (a ++ (t.spell ++ b)) := by
  apply hts.append
  · intro vs rest h hrest
    rw [List.append_assoc]
    exact .cons ht.spelled (ht.before _) (hus vs rest h hrest)
  · intro rest
    rw [List.append_assoc]
    exact ht.ends _

end Spelling

namespace Lexeme

/-- One of the lexemes that are always written the same. -/
def isPunctuation : Lexeme → Bool
  | .word _ | .number _ | .unsigned _ | .text _ | .bytes _ | .operator _ | .sign _ => false
  | _ => true

lemma delimits_punctuation {t : Lexeme} (ht : t.isPunctuation = true) : t.Delimits := by
  cases t with
  | word | number | unsigned | text | bytes | operator | sign => cases ht
  | _ => exact ⟨trivial, fun _ => trivial, fun _ => ⟨by decide, by decide⟩⟩

lemma delimits_operator {s : String} (h : ∀ c ∈ s.toList, c ≠ ' ') : (operator s).Delimits :=
  ⟨h, fun _ => trivial, fun _ => ⟨by decide, by decide⟩⟩

lemma delimits_sign {c : Char} (h : c = '!' ∨ c = '-') : (sign c).Delimits := by
  refine ⟨h, fun _ => trivial, fun _ => ?_⟩
  rcases h with rfl | rfl <;> exact ⟨by decide, by decide⟩

end Lexeme

namespace Spelling

open Lexeme CelEdit.Expr

lemma parenthesized {ts : List Lexeme} {text : List Char} (h : Spelling ts text) :
    Spelling (.openParen :: (ts ++ [.closeParen])) ('(' :: text ++ [')']) := by
  have hclosed := h.join (delimits_punctuation (t := .closeParen) rfl) nil
  simpa [spell] using nil.join (delimits_punctuation (t := .openParen) rfl) hclosed

lemma intercalated {α : Type} {items : List α} {f : α → List Lexeme} {g : α → List Char}
    (h : ∀ x ∈ items, Spelling (f x) (g x)) :
    Spelling ([.comma].intercalate (items.map f)) (Unparse.commaSeparated (items.map g)) := by
  induction items with
  | nil => exact nil
  | cons x items ih =>
    obtain ⟨hx, hitems⟩ := List.forall_mem_cons.1 h
    cases items with
    | nil => simpa [Unparse.commaSeparated, List.intercalate] using hx
    | cons y items =>
      have hjoin := hx.join (delimits_punctuation (t := .comma) rfl) (ih hitems)
      simpa [Unparse.commaSeparated, List.intercalate, spell] using hjoin

lemma enclosed {α : Type} {items : List α} {f : α → List Lexeme} {g : α → List Char}
    {left right : Lexeme} (hleft : left.isPunctuation = true) (hright : right.isPunctuation = true)
    (h : ∀ x ∈ items, Spelling (f x) (g x)) :
    Spelling (Expr.enclosed left right (items.map f))
      (left.spell ++ (Unparse.commaSeparated (items.map g) ++ right.spell)) := by
  have hclosed := (intercalated h).join (delimits_punctuation hright) nil
  simpa [Expr.enclosed] using nil.join (delimits_punctuation hleft) hclosed

lemma marked {ts : List Lexeme} {text : List Char} (h : Spelling ts text) (optional : Bool) :
    Spelling (Expr.marked optional ts) (Unparse.optionalMark optional ++ text) := by
  cases optional with
  | false => exact h
  | true =>
    simpa [Expr.marked, Unparse.optionalMark, spell] using
      nil.join (delimits_punctuation (t := .mark) rfl) h

end Spelling

/-! ### The rendering of a plain expression -/

namespace Unparse

open CelEdit.Expr Lexeme

/-- A child as it is rendered without macro calls. -/
def bare (c : Expr) : Child := (c, fun _ => render .empty [] c)

/-- The text of an expression without macro calls. -/
def bareText (e : Expr) : List Char := (render .empty [] e).toOption.getD []

def operandText (limit : Nat) (e : Expr) : List Char :=
  if looserThan limit e then '(' :: bareText e ++ [')'] else bareText e

/-- The expression has a text, and the text consists of its lexemes. -/
structure Written (e : Expr) : Prop where
  render : render .empty [] e = .ok (bareText e)
  spelling : Spelling e.lexemes (bareText e)

lemma Written.of_ok {e : Expr} {text : List Char} (h : Unparse.render .empty [] e = .ok text)
    (hspelling : Spelling e.lexemes text) : Written e := by
  have htext : bareText e = text := by
    rw [bareText, h]
    rfl
  exact ⟨by rw [htext, h], by rwa [htext]⟩

lemma render_bare (id : NodeId) (k : Kind Expr) :
    render .empty [] ⟨id, k⟩ = nodeText (fun _ => false) id (k.mapChildren bare) := by
  have hnone (i : NodeId) : macroCall? .empty [] i = none := by
    rw [macroCall?]
    split <;> rfl
  rw [render_mk]
  simp only [hnone, Option.isSome_none]
  rfl

section Operands

variable {e : Expr} (h : Written e)

include h

lemma Written.text : (bare e).text = .ok (bareText e) := h.render

lemma Written.operand (limit : Nat) :
    operand (fun _ => false) limit (bare e) = .ok (operandText limit e) := by
  rw [Unparse.operand, h.text]
  change (if looserThan limit e then _ else _) = _
  rw [operandText]
  split <;> rfl

lemma Written.spelling_operand (limit : Nat) :
    Spelling (operandLexemes limit (e, e.lexemes)) (operandText limit e) := by
  rw [operandLexemes, operandText]
  split
  · exact h.spelling.parenthesized
  · exact h.spelling

end Operands

lemma mapM_ok {α : Type} {as : List α} {f : α → Rendering} {g : α → List Char}
    (h : ∀ a ∈ as, f a = .ok (g a)) : as.mapM f = .ok (as.map g) :=
  mapM_eq_ok.2 (List.forall₂_map_right_iff.2 (List.forall₂_same.2 h))

lemma mapM_text {cs : List Expr} (h : ∀ c ∈ cs, Written c) :
    (cs.map bare).mapM Child.text = .ok (cs.map bareText) := by
  rw [List.mapM_map]
  exact mapM_ok fun c hc => (h c hc).text

lemma callText_bare (function : String) {args : List Expr} (h : ∀ c ∈ args, Written c) :
    callText function (args.map bare) =
      .ok (function.toList ++ '(' :: commaSeparated (args.map bareText) ++ [')']) := by
  rw [callText, mapM_text h]
  rfl

lemma spelling_call {function : String} (hname : IsName function) {args : List Expr}
    (h : ∀ c ∈ args, Written c) :
    Spelling (.word function :: enclosed .openParen .closeParen (args.map lexemes))
      (function.toList ++ '(' :: commaSeparated (args.map bareText) ++ [')']) := by
  have hargs : Spelling (enclosed .openParen .closeParen (args.map lexemes))
      ('(' :: (commaSeparated (args.map bareText) ++ [')'])) :=
    Spelling.enclosed rfl rfl fun c hc => (h c hc).spelling
  have hword := Spelling.single (t := .word function) hname
  simpa [spell] using hword.append hargs fun _ => ⟨by decide, by decide⟩

lemma spelling_constant {c : Constant} (hc : c.isPlain = true) : Spelling [c.lexeme] c.source := by
  cases c with
  | null => exact .single (t := .word "null") (isName_of_all (c := 'n') rfl rfl)
  | bool b =>
    cases b with
    | true => exact .single (t := .word "true") (isName_of_all (c := 't') rfl rfl)
    | false => exact .single (t := .word "false") (isName_of_all (c := 'f') rfl rfl)
  | int i =>
    have hi : 0 ≤ i.toInt := of_decide_eq_true hc
    have hdigits : (Numeral.ofInt i.toInt).spell = Nat.toDigits 10 i.toInt.toNat := by
      have hsign : decide (i.toInt < 0) = false := decide_eq_false (by omega)
      have habs : i.toInt.natAbs = i.toInt.toNat := by omega
      rw [Numeral.spell_ofInt, hsign, habs]
      rfl
    rw [Constant.source, hdigits]
    exact .single (t := .number i.toInt.toNat) trivial
  | uint u =>
    rw [Constant.source, Numeral.spell_ofNat]
    exact .single (t := .unsigned u.toNat) trivial
  | double d => cases hc
  | string s => exact .single (t := .text s) trivial
  | bytes b => exact .single (t := .bytes b) trivial

/-- An operator with its operands. -/
lemma operatorText_bare (function : String) {op : Operator} {args : List Expr}
    (hop : op.isKnown = true) (harity : args.length = op.arity)
    (hfield : op = .optionalSelect →
      (args[1]?.bind (fun e => fieldName? e.kind)).any isPlainName = true)
    (h : ∀ c ∈ args, Written c) :
    ∃ text, operatorText (fun _ => false) function op (args.map bare) = .ok text ∧
      Spelling (operatorLexemes op (args.map (fun c => (c, c.lexemes)))) text := by
  cases op with
  | conditional =>
    obtain ⟨condition, yes, no, rfl⟩ := List.length_eq_three.1 harity
    simp only [List.forall_mem_cons] at h
    obtain ⟨hcondition, hyes, hno, -⟩ := h
    refine ⟨operandText 7 condition ++ " ? ".toList ++ operandText 8 yes ++ " : ".toList ++
      operandText 8 no, ?_, ?_⟩
    · simp only [List.map_cons, List.map_nil, operatorText, hcondition.operand, hyes.operand,
        hno.operand]
      rfl
    · have hcolon := (hyes.spelling_operand 8).join (delimits_operator (s := ":") (by simp))
        (hno.spelling_operand 8)
      have hmark := (hcondition.spelling_operand 7).join
        (delimits_operator (s := "?") (by simp)) hcolon
      simpa [operatorLexemes, spell] using hmark
  | binary symbol level =>
    obtain ⟨left, right, rfl⟩ := List.length_eq_two.1 harity
    simp only [List.forall_mem_cons] at h
    obtain ⟨hleft, hright, -⟩ := h
    refine ⟨operandText level left ++ ' ' :: symbol.toList ++ ' ' :: operandText (level - 1) right,
      ?_, ?_⟩
    · simp only [List.map_cons, List.map_nil, operatorText, hleft.operand, hright.operand]
      rfl
    · have hsymbol := delimits_operator (Operator.isKnown_binary hop).2.2.2
      simpa [operatorLexemes, spell] using
        (hleft.spelling_operand level).join hsymbol (hright.spelling_operand (level - 1))
  | unary sign =>
    obtain ⟨arg, rfl⟩ := List.length_eq_one_iff.1 harity
    have harg := h arg List.mem_cons_self
    refine ⟨sign :: operandText 2 arg, ?_, ?_⟩
    · simp only [List.map_cons, List.map_nil, operatorText, harg.operand]
      rfl
    · have hsign : sign = '!' ∨ sign = '-' := by simpa [Operator.isKnown] using hop
      simpa [operatorLexemes, spell] using
        Spelling.nil.join (delimits_sign hsign) (harg.spelling_operand 2)
  | index =>
    obtain ⟨arg, position, rfl⟩ := List.length_eq_two.1 harity
    simp only [List.forall_mem_cons] at h
    obtain ⟨harg, hposition, -⟩ := h
    refine ⟨operandText 1 arg ++ '[' :: bareText position ++ [']'], ?_, ?_⟩
    · simp only [List.map_cons, List.map_nil, operatorText, harg.operand, hposition.text]
      rfl
    · have hclosed := hposition.spelling.join (delimits_punctuation (t := .closeBracket) rfl) .nil
      simpa [operatorLexemes, spell] using (harg.spelling_operand 1).join
        (delimits_punctuation (t := .openBracket) rfl) hclosed
  | optionalIndex =>
    obtain ⟨arg, position, rfl⟩ := List.length_eq_two.1 harity
    simp only [List.forall_mem_cons] at h
    obtain ⟨harg, hposition, -⟩ := h
    refine ⟨operandText 1 arg ++ '[' :: '?' :: bareText position ++ [']'], ?_, ?_⟩
    · simp only [List.map_cons, List.map_nil, operatorText, harg.operand, hposition.text]
      rfl
    · have hclosed := hposition.spelling.join (delimits_punctuation (t := .closeBracket) rfl) .nil
      have hmark := Spelling.nil.join (delimits_punctuation (t := .mark) rfl) hclosed
      simpa [operatorLexemes, spell] using (harg.spelling_operand 1).join
        (delimits_punctuation (t := .openBracket) rfl) hmark
  | optionalSelect =>
    obtain ⟨arg, field, rfl⟩ := List.length_eq_two.1 harity
    have harg := h arg List.mem_cons_self
    obtain ⟨name, hname, hplain⟩ : ∃ name, fieldName? field.kind = some name ∧
        isPlainName name = true := by
      simpa [Option.any_eq_true] using hfield rfl
    refine ⟨operandText 1 arg ++ '.' :: '?' :: name.toList, ?_, ?_⟩
    · have hfieldText : fieldText (bare field) = .ok name.toList := by
        rw [fieldText, show fieldName? (bare field).1.kind = some name from hname]
        rfl
      rw [List.map_cons, List.map_cons, List.map_nil, operatorText_optionalSelect, harg.operand,
        hfieldText]
      rfl
    · have hword := Spelling.single (t := .word name) (isName_of_isPlainName hplain)
      have hmark := Spelling.nil.join (delimits_punctuation (t := .mark) rfl) hword
      simpa [operatorLexemes, spell, hname] using (harg.spelling_operand 1).join
        (delimits_punctuation (t := .dot) rfl) hmark

lemma Written.select {id : NodeId} {s : Select Expr} (hname : isPlainName s.field = true)
    (h : Written s.operand) : Written ⟨id, .select s⟩ := by
  have hfield := Spelling.single (t := .word s.field) (isName_of_isPlainName hname)
  have hselected := (h.spelling_operand 1).join (delimits_punctuation (t := .dot) rfl) hfield
  have hrender : Unparse.render .empty [] ⟨id, .select s⟩ =
      .ok (if s.testOnly then "has(".toList ++ (operandText 1 s.operand ++ '.' :: s.field.toList) ++
        [')'] else operandText 1 s.operand ++ '.' :: s.field.toList) := by
    rw [render_bare]
    simp only [Kind.mapChildren, nodeText, h.operand]
    rfl
  apply Written.of_ok hrender
  rw [lexemes_mk, Kind.mapChildren, nodeLexemes]
  cases s.testOnly with
  | false => simpa [spell] using hselected
  | true =>
    have hhas := Spelling.single (t := .word "has") (isName_of_all (c := 'h') rfl rfl)
    simpa [spell] using hhas.append hselected.parenthesized fun _ => ⟨by decide, by decide⟩

lemma Written.call {id : NodeId} {c : Call Expr} (hc : (Kind.call c).isPlain = true)
    (h : ∀ x ∈ (Kind.call c).children, Written x) : Written ⟨id, .call c⟩ := by
  obtain ⟨target, function, args⟩ := c
  have hargs : ∀ x ∈ args, Written x := fun x hx => h x (List.mem_append_right _ hx)
  have hmap : (args.map (fun x => (x, x.lexemes))).map Prod.snd = args.map lexemes := by
    rw [List.map_map]
    rfl
  cases target with
  | some target =>
    have htarget := h target List.mem_cons_self
    have hname : IsName function := isName_of_isPlainName hc
    have hrender : Unparse.render .empty [] ⟨id, .call ⟨some target, function, args⟩⟩ =
        .ok (operandText 1 target ++ '.' ::
          (function.toList ++ '(' :: commaSeparated (args.map bareText) ++ [')'])) := by
      rw [render_bare]
      simp only [Kind.mapChildren, Option.map_some, nodeText, htarget.operand,
        callText_bare function hargs]
      rfl
    apply Written.of_ok hrender
    simp only [lexemes_mk, Kind.mapChildren, Option.map_some, nodeLexemes, hmap]
    exact (htarget.spelling_operand 1).join (delimits_punctuation (t := .dot) rfl)
      (spelling_call hname hargs)
  | none =>
    cases hop : Operator.ofFunction? function with
    | some op =>
      simp only [Kind.isPlain, hop, Bool.and_eq_true, decide_eq_true_eq] at hc
      obtain ⟨text, htext, hspelling⟩ := operatorText_bare function
        (Operator.ofFunction?_eq_some hop).2 hc.1
        (fun hselect => by simpa [hselect] using hc.2) hargs
      have hrender : Unparse.render .empty [] ⟨id, .call ⟨none, function, args⟩⟩ = .ok text := by
        rw [render_bare, Kind.mapChildren, Option.map_none, nodeText_operator hop, htext]
      apply Written.of_ok hrender
      simpa only [lexemes_mk, Kind.mapChildren, Option.map_none, nodeLexemes, hop] using hspelling
    | none =>
      have hname : IsName function := by
        simp only [Kind.isPlain, hop] at hc
        exact isName_of_isPlainName hc
      have hrender : Unparse.render .empty [] ⟨id, .call ⟨none, function, args⟩⟩ =
          .ok (function.toList ++ '(' :: commaSeparated (args.map bareText) ++ [')']) := by
        rw [render_bare, Kind.mapChildren, Option.map_none, nodeText_function hop,
          callText_bare function hargs]
      apply Written.of_ok hrender
      simpa only [lexemes_mk, Kind.mapChildren, Option.map_none, nodeLexemes, hop, hmap] using
        spelling_call hname hargs

lemma Written.list {id : NodeId} {l : ListLiteral Expr} (h : ∀ x ∈ l.elements, Written x) :
    Written ⟨id, .list l⟩ := by
  have hrender : Unparse.render .empty [] ⟨id, .list l⟩ =
      .ok ('[' :: commaSeparated (l.elements.zipIdx.map (fun p =>
        optionalMark (l.optionalIndices.contains p.2) ++ bareText p.1)) ++ [']']) := by
    have htexts := mapIdx_map l.elements bareText fun i text =>
      optionalMark (l.optionalIndices.contains i) ++ text
    rw [render_bare, ← htexts]
    simp only [Kind.mapChildren, nodeText, mapM_text h]
    rfl
  apply Written.of_ok hrender
  simp only [lexemes_mk, Kind.mapChildren, nodeLexemes, mapIdx_map]
  apply Spelling.enclosed rfl rfl
  intro p hp
  have helement := h p.1 (List.fst_mem_of_mem_zipIdx hp)
  exact helement.spelling.marked _

lemma Written.struct {id : NodeId} {s : StructLiteral Expr} (hs : (Kind.struct s).isPlain = true)
    (h : ∀ e ∈ s.entries, Written e.value) : Written ⟨id, .struct s⟩ := by
  rw [Kind.isPlain, Bool.and_eq_true, List.all_eq_true] at hs
  have hentries : (s.entries.map (fun e => StructEntry.mk e.id e.fieldKey (bare e.value)
      e.optionalEntry)).mapM (fun e => do
        let value ← e.value.text
        pure (optionalMark e.optionalEntry ++ e.fieldKey.toList ++ ':' :: ' ' :: value)) =
      .ok (s.entries.map (fun e => optionalMark e.optionalEntry ++
        (e.fieldKey.toList ++ ':' :: ' ' :: bareText e.value))) := by
    rw [List.mapM_map]
    apply mapM_ok
    intro e he
    simp only [Function.comp_apply, (h e he).text, ← List.append_assoc]
    rfl
  have hrender : Unparse.render .empty [] ⟨id, .struct s⟩ =
      .ok (s.messageName.toList ++ '\x7b' :: commaSeparated (s.entries.map (fun e =>
        optionalMark e.optionalEntry ++ (e.fieldKey.toList ++ ':' :: ' ' :: bareText e.value))) ++
          ['\x7d']) := by
    rw [render_bare]
    simp only [Kind.mapChildren, nodeText, hentries]
    rfl
  apply Written.of_ok hrender
  rw [List.append_assoc]
  simp only [lexemes_mk, Kind.mapChildren, nodeLexemes, List.map_map]
  have hmessage := Spelling.single (t := .word s.messageName) (isName_of_isPlainName hs.1)
  refine hmessage.append (Spelling.enclosed rfl rfl ?_) fun _ => ⟨by decide, by decide⟩
  intro e he
  have hkey := Spelling.single (t := .word e.fieldKey) (isName_of_isPlainName (hs.2 e he))
  have hentry := hkey.join (delimits_punctuation (t := .colon) rfl) (h e he).spelling
  exact hentry.marked _

lemma Written.map {id : NodeId} {m : MapLiteral Expr} (hkeys : ∀ e ∈ m.entries, Written e.key)
    (hvalues : ∀ e ∈ m.entries, Written e.value) : Written ⟨id, .map m⟩ := by
  have hentries : (m.entries.map (fun e => MapEntry.mk e.id (bare e.key) (bare e.value)
      e.optionalEntry)).mapM (fun e => do
        let key ← e.key.text
        let value ← e.value.text
        pure (optionalMark e.optionalEntry ++ key ++ ':' :: ' ' :: value)) =
      .ok (m.entries.map (fun e => optionalMark e.optionalEntry ++
        (bareText e.key ++ ':' :: ' ' :: bareText e.value))) := by
    rw [List.mapM_map]
    apply mapM_ok
    intro e he
    simp only [Function.comp_apply, (hkeys e he).text, (hvalues e he).text, ← List.append_assoc]
    rfl
  have hrender : Unparse.render .empty [] ⟨id, .map m⟩ =
      .ok ('\x7b' :: (commaSeparated (m.entries.map (fun e => optionalMark e.optionalEntry ++
        (bareText e.key ++ ':' :: ' ' :: bareText e.value))) ++ ['\x7d'])) := by
    rw [render_bare]
    simp only [Kind.mapChildren, nodeText, hentries]
    rfl
  apply Written.of_ok hrender
  simp only [lexemes_mk, Kind.mapChildren, nodeLexemes, List.map_map]
  apply Spelling.enclosed rfl rfl
  intro e he
  have hentry := (hkeys e he).spelling.join (delimits_punctuation (t := .colon) rfl)
    (hvalues e he).spelling
  exact hentry.marked _

/-- A plain expression has a text, and the text consists of its lexemes. -/
theorem written {e : Expr} (he : e.Plain) : Written e := by
  induction e using Expr.induct with
  | node id k ih =>
    have hk : k.isPlain = true := he _ (self_mem_preorder _)
    have hchildren : ∀ c ∈ k.children, Written c := fun c hc =>
      ih c hc fun x hx => he x (mem_preorder_trans hx (mem_preorder_of_mem_children hc))
    cases k with
    | notSet => cases hk
    | constant c =>
      apply Written.of_ok (render_bare id _)
      rw [lexemes_mk]
      exact spelling_constant hk
    | ident i =>
      apply Written.of_ok (render_bare id _)
      rw [lexemes_mk]
      exact .single (t := .word i.name) (isName_of_isPlainName hk)
    | select s => exact .select hk (hchildren s.operand List.mem_cons_self)
    | call c => exact .call hk hchildren
    | list l => exact .list hchildren
    | struct s => exact .struct hk fun e he => hchildren e.value (List.mem_map_of_mem he)
    | map m =>
      have hentry : ∀ e ∈ m.entries, ∀ c ∈ [e.key, e.value], Written c := fun e he c hc =>
        hchildren c (List.mem_flatMap.2 ⟨e, he, hc⟩)
      exact .map (fun e he => hentry e he _ (by simp)) fun e he => hentry e he _ (by simp)
    | comprehension c => cases hk

end Unparse

end CelEdit
