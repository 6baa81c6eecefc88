import CelEdit.Proofs.PlainTexts

/-!
# A reader of plain texts

The reader takes the lexemes of a plain expression: it reads the head of a phrase and then extends
it, as long as what follows binds no looser than the limit allows. It runs on fuel, and all
statements are about what it settles on.
-/

namespace CelEdit

/-! ### The reader -/

/-- The level of what a phrase is extended with when this lexeme follows it: nine where the phrase
has ended, and zero for what follows no phrase. -/
def Lexeme.followLevel : Lexeme → Nat
  | .dot => 1
  | .openBracket => 1
  | .operator symbol => ((Operator.ofSymbol? symbol).map Operator.level).getD 9
  | .comma => 9
  | .colon => 9
  | .closeParen => 9
  | .closeBracket => 9
  | .closeBrace => 9
  | _ => 0

/-- The positions that are marked. -/
def IndexSet.ofFlags (flags : List Bool) : IndexSet :=
  .ofList (((List.range flags.length).filter (fun i => flags[i]?.getD false)).map UInt64.ofNat)

/-- Reads what the lexemes start with, and returns those that follow. -/
abbrev Phrase (α : Type) := List Lexeme → Option (α × List Lexeme)

namespace Phrase

variable {α : Type}

/-- Whether a phrase does not go on within the limit. -/
def stops (limit : Nat) : List Lexeme → Bool
  | [] => true
  | t :: _ => limit < t.followLevel

/-- An item with a lexeme after it. -/
def closed (close : Lexeme) (item : Phrase α) : Phrase α := fun ts =>
  (item ts).bind fun (a, rest) =>
    match rest with
    | [] => none
    | t :: rest => if t = close then some (a, rest) else none

def withMark (item : Phrase α) : Phrase (Bool × α)
  | .mark :: ts => (item ts).map fun (a, rest) => ((true, a), rest)
  | ts => (item ts).map fun (a, rest) => ((false, a), rest)

/-- At least one item, with commas between them. -/
def someItems (item : Phrase α) (close : Lexeme) : Nat → Phrase (List α)
  | 0, _ => none
  | n + 1, ts => (item ts).bind fun (a, rest) =>
    match rest with
    | [] => none
    | .comma :: rest => (someItems item close n rest).map fun (as, rest) => (a :: as, rest)
    | t :: rest => if t = close then some ([a], rest) else none

def items (item : Phrase α) (close : Lexeme) (n : Nat) : Phrase (List α)
  | [] => none
  | t :: ts => if t = close then some ([], ts) else someItems item close n (t :: ts)

def operatorCall (op : Operator) (args : List Expr) : Expr :=
  ⟨.unset, .call ⟨none, op.function, args⟩⟩

/-- A word on its own. -/
def wordExpr : String → Expr
  | "null" => ⟨.unset, .constant .null⟩
  | "true" => ⟨.unset, .constant (.bool true)⟩
  | "false" => ⟨.unset, .constant (.bool false)⟩
  | name => ⟨.unset, .ident ⟨name⟩⟩

section Parts

variable (read : Nat → Phrase Expr) (n : Nat)

def structEntry : Phrase (String × Expr)
  | .word key :: .colon :: ts => (read 8 ts).map fun (value, rest) => ((key, value), rest)
  | _ => none

def mapEntry : Phrase (Expr × Expr) := fun ts =>
  (closed .colon (read 8) ts).bind fun (key, rest) =>
    (read 8 rest).map fun (value, rest) => ((key, value), rest)

/-- The part of a phrase that no operator extends to the left. -/
def head : Phrase Expr
  | .word "has" :: .openParen :: ts =>
    (closed .closeParen (read 8) ts).bind fun (e, rest) =>
      match e.kind with
      | .select s => some (⟨.unset, .select { s with testOnly := true }⟩, rest)
      | _ => none
  | .word name :: .openParen :: ts =>
    (items (read 8) .closeParen n ts).map fun (args, rest) =>
      (⟨.unset, .call ⟨none, name, args⟩⟩, rest)
  | .word name :: .openBrace :: ts =>
    (items (withMark (structEntry read)) .closeBrace n ts).map fun (entries, rest) =>
      (⟨.unset, .struct ⟨name, entries.map (fun e => ⟨.unset, e.2.1, e.2.2, e.1⟩)⟩⟩, rest)
  | .word name :: ts => some (wordExpr name, ts)
  | .number v :: ts => some (⟨.unset, .constant (.int (Int64.ofInt v))⟩, ts)
  | .unsigned v :: ts => some (⟨.unset, .constant (.uint (UInt64.ofNat v))⟩, ts)
  | .text s :: ts => some (⟨.unset, .constant (.string s)⟩, ts)
  | .bytes b :: ts => some (⟨.unset, .constant (.bytes b)⟩, ts)
  | .openParen :: ts => closed .closeParen (read 8) ts
  | .openBracket :: ts =>
    (items (withMark (read 8)) .closeBracket n ts).map fun (elements, rest) =>
      (⟨.unset, .list ⟨elements.map Prod.snd, .ofFlags (elements.map Prod.fst)⟩⟩, rest)
  | .openBrace :: ts =>
    (items (withMark (mapEntry read)) .closeBrace n ts).map fun (entries, rest) =>
      (⟨.unset, .map ⟨entries.map (fun e => ⟨.unset, e.2.1, e.2.2, e.1⟩)⟩⟩, rest)
  | .sign c :: ts => (read 2 ts).map fun (e, rest) => (operatorCall (.unary c) [e], rest)
  | _ => none

/-- What a phrase is extended with. -/
def suffix (e : Expr) : Phrase Expr
  | .dot :: .mark :: .word name :: ts =>
    some (operatorCall .optionalSelect [e, ⟨.unset, .constant (.string name)⟩], ts)
  | .dot :: .word name :: .openParen :: ts =>
    (items (read 8) .closeParen n ts).map fun (args, rest) =>
      (⟨.unset, .call ⟨some e, name, args⟩⟩, rest)
  | .dot :: .word name :: ts => some (⟨.unset, .select ⟨e, name, false⟩⟩, ts)
  | .openBracket :: .mark :: ts =>
    (closed .closeBracket (read 8) ts).map fun (i, rest) =>
      (operatorCall .optionalIndex [e, i], rest)
  | .openBracket :: ts =>
    (closed .closeBracket (read 8) ts).map fun (i, rest) => (operatorCall .index [e, i], rest)
  | .operator symbol :: ts =>
    match Operator.ofSymbol? symbol with
    | some .conditional =>
      (closed (.operator ":") (read 8) ts).bind fun (yes, rest) =>
        (read 8 rest).map fun (no, rest) => (operatorCall .conditional [e, yes, no], rest)
    | some op =>
      (read (op.level - 1) ts).map fun (right, rest) => (operatorCall op [e, right], rest)
    | none => none
  | _ => none

end Parts

mutual

/-- Reads a phrase whose operators bind no looser than the limit. -/
def read : Nat → (limit : Nat) → Phrase Expr
  | 0, _, _ => none
  | n + 1, limit, ts => (head (read n) n ts).bind fun (e, rest) => extend n limit e rest

/-- Extends a phrase as far as the limit allows. -/
def extend : Nat → (limit : Nat) → Expr → Phrase Expr
  | 0, _, _, _ => none
  | n + 1, limit, e, ts =>
    if stops limit ts then some (e, ts)
    else (suffix (read n) n e ts).bind fun (e, rest) => extend n limit e rest

end

/-! ### Settling -/

/-- With enough fuel the answer is always this. -/
def Settles (f : Nat → Option α) (a : α) : Prop := ∃ least, ∀ n, least ≤ n → f n = some a

namespace Settles

variable {β : Type} {f : Nat → Option α} {a : α} {b : β}

lemma of_eq (h : ∀ n, f n = some a) : Settles f a := ⟨0, fun n _ => h n⟩

lemma bind {g : Nat → α → Option β} (hf : Settles f a) (hg : Settles (fun n => g n a) b) :
    Settles (fun n => (f n).bind (g n)) b := by
  obtain ⟨k, hk⟩ := hf
  obtain ⟨l, hl⟩ := hg
  refine ⟨max k l, fun n hn => ?_⟩
  have hvalue : g n a = some b := hl n (by omega)
  change (f n).bind (g n) = some b
  rw [hk n (by omega), Option.bind_some, hvalue]

lemma map (hf : Settles f a) (g : α → β) : Settles (fun n => (f n).map g) (g a) := by
  obtain ⟨k, hk⟩ := hf
  refine ⟨k, fun n hn => ?_⟩
  change (f n).map g = some (g a)
  rw [hk n hn, Option.map_some]

lemma succ {g : Nat → Option α} (hg : Settles g a) (h : ∀ n, f (n + 1) = g n) : Settles f a := by
  obtain ⟨k, hk⟩ := hg
  refine ⟨k + 1, fun n hn => ?_⟩
  obtain ⟨m, rfl⟩ : ∃ m, n = m + 1 := ⟨n - 1, by omega⟩
  rw [h, hk m (by omega)]

/-- What is read does not start with a lexeme that the reader refuses. -/
lemma ne_cons {item : Nat → Phrase α} {ts : List Lexeme} {x : α × List Lexeme}
    (h : Settles (fun n => item n ts) x) {t : Lexeme} (hreject : ∀ n us, item n (t :: us) = none)
    (us : List Lexeme) : ts ≠ t :: us := by
  rintro rfl
  obtain ⟨k, hk⟩ := h
  have hsome : item k (t :: us) = some x := hk k le_rfl
  rw [hreject] at hsome
  cases hsome

end Settles

variable {e : Expr} {ts rest : List Lexeme} {t : Lexeme} {limit : Nat} {r : Expr × List Lexeme}

lemma settles_read (hhead : Settles (fun n => head (read n) n ts) (e, rest))
    (hextend : Settles (fun n => extend n limit e rest) r) :
    Settles (fun n => read n limit ts) r := by
  apply (hhead.bind (g := fun n x => extend n limit x.1 x.2) hextend).succ
  intro n
  rw [read]

lemma settles_stop (h : stops limit ts = true) :
    Settles (fun n => extend n limit e ts) (e, ts) := by
  have hstop : Settles (fun _ => some (e, ts)) (e, ts) := .of_eq fun _ => rfl
  apply hstop.succ
  intro n
  rw [extend, if_pos h]

lemma settles_extend {e' : Expr} (h : stops limit ts = false)
    (hsuffix : Settles (fun n => suffix (read n) n e ts) (e', rest))
    (hextend : Settles (fun n => extend n limit e' rest) r) :
    Settles (fun n => extend n limit e ts) r := by
  apply (hsuffix.bind (g := fun n x => extend n limit x.1 x.2) hextend).succ
  intro n
  rw [extend, h]
  rfl

lemma settles_closed {item : Nat → Phrase α} {a : α}
    (h : Settles (fun n => item n ts) (a, t :: rest)) :
    Settles (fun n => closed t (item n) ts) (a, rest) := by
  apply h.bind (.of_eq fun n => ?_)
  simp

/-- What no head starts with is not read. -/
lemma read_eq_none (h : ∀ n, head (read n) n ts = none) (n : Nat) : read n limit ts = none := by
  cases n with
  | zero => rw [read]
  | succ n => rw [read, h, Option.bind_none]

lemma settles_withMark {item : Nat → Phrase α} {a : α} {us : List Lexeme}
    (hreject : ∀ n us, item n (.mark :: us) = none)
    (h : Settles (fun n => item n (us ++ rest)) (a, rest)) (optional : Bool) :
    Settles (fun n => withMark (item n) (Expr.marked optional us ++ rest))
      ((optional, a), rest) := by
  cases optional with
  | true => exact h.map fun x => ((true, x.1), x.2)
  | false =>
    have hplain (n : Nat) : withMark (item n) (us ++ rest) =
        (item n (us ++ rest)).map fun x => ((false, x.1), x.2) := by
      rw [withMark.eq_def]
      split
      · next vs heq => exact absurd heq (h.ne_cons hreject vs)
      · rfl
    change Settles (fun n => withMark (item n) (us ++ rest)) _
    simp only [hplain]
    exact h.map fun x => ((false, x.1), x.2)

section Items

variable {β : Type} {item : Nat → Phrase α} {close : Lexeme} {f : β → List Lexeme} {g : β → α}

lemma someItems_last {item : Phrase α} (hclose : close ≠ .comma) {a : α}
    (h : item ts = some (a, close :: rest)) (n : Nat) :
    someItems item close (n + 1) ts = some ([a], rest) := by
  rw [someItems, h, Option.bind_some]
  cases close with
  | comma => exact absurd rfl hclose
  | _ => exact if_pos rfl

lemma someItems_comma {item : Phrase α} {a : α} (h : item ts = some (a, .comma :: rest)) (n : Nat) :
    someItems item close (n + 1) ts =
      (someItems item close n rest).map fun x => (a :: x.1, x.2) := by
  rw [someItems, h, Option.bind_some]

/-- Items are read one after the other, with fuel for each of them. -/
lemma someItems_eq (hclose : close ≠ .comma) {b : β} {bs : List β}
    (hitem : ∀ x ∈ b :: bs, ∀ t rest, t = .comma ∨ t = close →
      Settles (fun n => item n (f x ++ t :: rest)) (g x, t :: rest)) (rest : List Lexeme) :
    ∃ least, ∀ n m, least ≤ n → bs.length < m →
      someItems (item n) close m ([.comma].intercalate ((b :: bs).map f) ++ close :: rest) =
        some ((b :: bs).map g, rest) := by
  induction bs generalizing b with
  | nil =>
    obtain ⟨k, hk⟩ := hitem b List.mem_cons_self close rest (.inr rfl)
    refine ⟨k, fun n m hn hm => ?_⟩
    obtain ⟨m, rfl⟩ : ∃ l, m = l + 1 := ⟨m - 1, by omega⟩
    have hlist : [Lexeme.comma].intercalate ([b].map f) = f b := by simp [List.intercalate]
    rw [hlist]
    exact someItems_last hclose (hk n hn) m
  | cons c bs ih =>
    obtain ⟨l, hl⟩ := ih fun x hx => hitem x (List.mem_cons_of_mem _ hx)
    obtain ⟨k, hk⟩ := hitem b List.mem_cons_self .comma
      ([.comma].intercalate ((c :: bs).map f) ++ close :: rest) (.inl rfl)
    refine ⟨max k l, fun n m hn hm => ?_⟩
    obtain ⟨m, rfl⟩ : ∃ l, m = l + 1 := ⟨m - 1, by omega⟩
    have hlist : [Lexeme.comma].intercalate ((b :: c :: bs).map f) ++ close :: rest =
        f b ++ .comma :: ([.comma].intercalate ((c :: bs).map f) ++ close :: rest) := by
      simp [List.intercalate]
    rw [List.length_cons] at hm
    rw [hlist, someItems_comma (hk n (by omega)), hl n m (by omega) (by omega)]
    rfl

lemma settles_items (hclose : close ≠ .comma) (hreject : ∀ n ts, item n (close :: ts) = none)
    {bs : List β} (hitem : ∀ x ∈ bs, ∀ t rest, t = .comma ∨ t = close →
      Settles (fun n => item n (f x ++ t :: rest)) (g x, t :: rest)) (rest : List Lexeme) :
    Settles (fun n => items (item n) close n ([.comma].intercalate (bs.map f) ++ close :: rest))
      (bs.map g, rest) := by
  cases bs with
  | nil => exact .of_eq fun n => if_pos rfl
  | cons b bs =>
    obtain ⟨k, hk⟩ := someItems_eq hclose hitem rest
    refine ⟨max k (bs.length + 1), fun n hn => ?_⟩
    have hsome := hk n n (by omega) (by omega)
    change items (item n) close n _ = _
    cases hlist : [Lexeme.comma].intercalate ((b :: bs).map f) ++ close :: rest with
    | nil => simp at hlist
    | cons t ts =>
      rw [hlist] at hsome
      have ht : t ≠ close := by
        rintro rfl
        obtain ⟨m, rfl⟩ : ∃ l, n = l + 1 := ⟨n - 1, by omega⟩
        rw [someItems, hreject] at hsome
        cases hsome
      rw [items, if_neg ht, hsome]

lemma settles_markedItems (hclose : close ≠ .comma ∧ close ≠ .mark)
    (hreject : ∀ n t ts, t = .mark ∨ t = close → item n (t :: ts) = none) {optional : β → Bool}
    {bs : List β} (hitem : ∀ x ∈ bs, ∀ t rest, t = .comma ∨ t = close →
      Settles (fun n => item n (f x ++ t :: rest)) (g x, t :: rest)) (rest : List Lexeme) :
    Settles (fun n => items (withMark (item n)) close n
      ([.comma].intercalate (bs.map (fun x => Expr.marked (optional x) (f x))) ++ close :: rest))
      (bs.map (fun x => (optional x, g x)), rest) := by
  apply settles_items hclose.1
  · intro n ts
    have hnone := hreject n close ts (.inr rfl)
    rw [withMark.eq_def]
    split
    · next heq => exact absurd (List.cons.inj heq).1 hclose.2
    · rw [hnone, Option.map_none]
  · intro x hx t rest ht
    exact settles_withMark (fun n us => hreject n .mark us (.inl rfl)) (hitem x hx t rest ht) _

end Items

end Phrase

end CelEdit
