import CelEdit.Proofs.PhraseReader
import Mathlib.Data.List.Sort

/-!
# Reading plain texts back

A plain expression is read back from its lexemes as itself without its ids. The limit of a place and
the level of an operand decide about parentheses in the same way as they decide where the reader
stops. So the text of a plain expression determines it.
-/

namespace CelEdit

lemma IndexSet.ofFlags_contains (s : IndexSet) {n : Nat} (h : ∀ i ∈ s.toList, i.toNat < n) :
    IndexSet.ofFlags ((List.range n).map s.contains) = s := by
  have hflags : (List.range n).filter (fun i => ((List.range n).map s.contains)[i]?.getD false) =
      (List.range n).filter s.contains := by
    apply List.filter_congr
    intro i hi
    simp [List.getElem?_range (List.mem_range.1 hi)]
  have hsorted : (s.toList.map UInt64.toNat).Pairwise (· < ·) := by
    rw [List.pairwise_map]
    exact s.sorted.imp fun hlt => UInt64.lt_iff_toNat_lt.1 hlt
  have hindices : (List.range n).filter s.contains = s.toList.map UInt64.toNat := by
    apply List.Pairwise.eq_of_mem_iff (List.pairwise_lt_range.filter _) hsorted
    intro i
    simp only [List.mem_filter, List.mem_range, IndexSet.contains, List.any_eq_true,
      decide_eq_true_eq, List.mem_map]
    constructor
    · exact fun hi => hi.2
    · rintro ⟨j, hj, rfl⟩
      exact ⟨h j hj, j, hj, rfl⟩
  rw [ofFlags, List.length_map, List.length_range, hflags, hindices, List.map_map]
  simp [Function.comp_def, IndexSet.ofList_toList]

/-! ### Levels of expressions -/

namespace Operator

/-- The limit at which the last operand is read. -/
def tail : Operator → Nat
  | .conditional => 8
  | .binary _ level => level - 1
  | .unary _ => 2
  | _ => 0

end Operator

namespace Expr

open Unparse

/-- The operator that a node is written with. -/
def operator? (e : Expr) : Option Operator :=
  match e.kind with
  | .call ⟨none, function, _⟩ => Operator.ofFunction? function
  | _ => none

def level (e : Expr) : Nat := (e.operator?.map Operator.level).getD 1

def tail (e : Expr) : Nat := (e.operator?.map Operator.tail).getD 0

variable {e : Expr} {m : Nat}

lemma isKnown_operator {op : Operator} (h : e.operator? = some op) : op.isKnown = true := by
  unfold operator? at h
  split at h
  · exact (Operator.ofFunction?_eq_some h).2
  · cases h

lemma looserThan_eq (hm : 1 ≤ m) : looserThan m e = decide (m < e.level) := by
  obtain ⟨id, k⟩ := e
  have hone : decide (m < 1) = false := decide_eq_false (by omega)
  cases k with
  | call c =>
    obtain ⟨target, function, args⟩ := c
    cases target with
    | some target => exact hone.symm
    | none =>
      rcases Option.eq_none_or_eq_some (Operator.ofFunction? function) with hop | ⟨op, hop⟩
      · simp only [looserThan, level, operator?, hop, Option.map_none, Option.getD_none, hone]
      · simp [looserThan, level, operator?, hop]
  | _ => exact hone.symm

/-- An expression that binds as tight as the limit ends with operands below the limit. -/
lemma level_cases (e : Expr) :
    e.tail ≤ e.level ∧ e.level ≤ 8 ∧ ∀ m, e.level ≤ m → m ≤ 7 → m ≠ 2 → e.tail < m := by
  unfold tail level
  cases hop : e.operator? with
  | none => exact ⟨by decide, by decide, fun m hm _ _ => hm⟩
  | some op =>
    have hknown := isKnown_operator hop
    cases op with
    | binary symbol level =>
      obtain ⟨-, hlow, hhigh, -⟩ := Operator.isKnown_binary hknown
      simp only [Option.map_some, Option.getD_some, Operator.level, Operator.tail]
      exact ⟨by omega, by omega, fun m _ _ _ => by omega⟩
    | _ =>
      simp only [Option.map_some, Option.getD_some, Operator.level, Operator.tail]
      exact ⟨by omega, by omega, fun m _ _ _ => by omega⟩

end Expr

namespace Phrase

open CelEdit.Expr

lemma stops_mono {m limit : Nat} (hm : m ≤ limit) {ts : List Lexeme} (h : stops limit ts = true) :
    stops m ts = true := by
  cases ts with
  | nil => rfl
  | cons t ts =>
    have hlt : limit < t.followLevel := of_decide_eq_true h
    exact decide_eq_true (by omega)

/-- Before what does not extend its last operand, the expression is read and then extended. -/
def Readable (e : Expr) : Prop :=
  ∀ (limit : Nat) (rest : List Lexeme) (r : Expr × List Lexeme), e.level ≤ limit →
    stops e.tail rest = true → Settles (fun n => extend n limit e.eraseIds rest) r →
    Settles (fun n => read n limit (e.lexemes ++ rest)) r

namespace Readable

variable {e : Expr} {m limit : Nat} {rest : List Lexeme} {r : Expr × List Lexeme}

/-- Where the phrase has ended, the whole expression has been read. -/
lemma whole (h : Readable e) (rest : List Lexeme) (hrest : stops 8 rest = true) :
    Settles (fun n => read n 8 (e.lexemes ++ rest)) (e.eraseIds, rest) := by
  obtain ⟨htail, hlevel, -⟩ := e.level_cases
  exact h 8 rest _ hlevel (stops_mono (by omega) hrest) (settles_stop hrest)

lemma operand (h : Readable e) (hm : 1 ≤ m) (hlimit : m ≤ limit)
    (hrest : e.level ≤ m → stops e.tail rest = true)
    (hextend : Settles (fun n => extend n limit e.eraseIds rest) r) :
    Settles (fun n => read n limit (operandLexemes m (e, e.lexemes) ++ rest)) r := by
  rw [operandLexemes, looserThan_eq hm]
  by_cases hlevel : m < e.level
  · have hinner := h.whole (.closeParen :: rest) rfl
    have hhead : Settles
        (fun n => head (read n) n (.openParen :: (e.lexemes ++ .closeParen :: rest)))
        (e.eraseIds, rest) := settles_closed hinner
    simpa [hlevel] using settles_read hhead hextend
  · simpa [hlevel] using h limit rest r (by omega) (hrest (by omega)) hextend

/-- An operand to the right of its operator. -/
lemma right (h : Readable e) (hm : 1 ≤ m) (hrest : stops m rest = true) :
    Settles (fun n => read n m (operandLexemes m (e, e.lexemes) ++ rest)) (e.eraseIds, rest) := by
  obtain ⟨htail, -, -⟩ := e.level_cases
  exact h.operand hm le_rfl (fun hlevel => stops_mono (by omega) hrest) (settles_stop hrest)

/-- What starts with no operand is read as a head. -/
lemma of_head (h : ∀ rest, stops e.tail rest = true →
    Settles (fun n => head (read n) n (e.lexemes ++ rest)) (e.eraseIds, rest)) : Readable e :=
  fun _ rest _ _ hrest hextend => settles_read (h rest hrest) hextend

/-- What starts with an operand extends it. -/
lemma of_suffix {x : Expr} {t : Lexeme} {us : List Lexeme} (hx : Readable x)
    (hlexemes : e.lexemes = operandLexemes m (x, x.lexemes) ++ t :: us)
    (hm : 1 ≤ m ∧ m ≤ 7 ∧ m ≠ 2) (hfollow : m ≤ t.followLevel) (hlevel : t.followLevel ≤ e.level)
    (hsuffix : ∀ rest, stops e.tail rest = true →
      Settles (fun n => suffix (read n) n x.eraseIds (t :: (us ++ rest))) (e.eraseIds, rest)) :
    Readable e := by
  intro limit rest r hlimit hrest hextend
  rw [hlexemes, List.append_assoc, List.cons_append]
  apply hx.operand hm.1 (by omega)
  · intro hxm
    have htail := x.level_cases.2.2 m hxm hm.2.1 hm.2.2
    exact decide_eq_true (by omega)
  · have hgoes : stops limit (t :: (us ++ rest)) = false := decide_eq_false (by omega)
    exact settles_extend hgoes (hsuffix rest hrest) hextend

end Readable

section Heads

variable {n : Nat} {read : Nat → Phrase Expr} {name : String} {rest : List Lexeme}

lemma head_word (hrest : stops 0 rest = true) :
    head read n (.word name :: rest) = some (wordExpr name, rest) := by
  cases rest with
  | nil => simp [head]
  | cons t rest =>
    cases t with
    | openParen | openBrace => cases hrest
    | _ => simp [head]

lemma head_call (hname : name ≠ "has") :
    head read n (.word name :: .openParen :: rest) =
      (items (read 8) .closeParen n rest).map fun x =>
        (⟨.unset, .call ⟨none, name, x.1⟩⟩, x.2) := by
  simp [head]

lemma head_struct :
    head read n (.word name :: .openBrace :: rest) =
      (items (withMark (structEntry read)) .closeBrace n rest).map fun x =>
        (⟨.unset, .struct ⟨name, x.1.map (fun e => ⟨.unset, e.2.1, e.2.2, e.1⟩)⟩⟩, x.2) := by
  simp [head]

lemma suffix_select {e : Expr} (hrest : stops 0 rest = true) :
    suffix read n e (.dot :: .word name :: rest) =
      some (⟨.unset, .select ⟨e, name, false⟩⟩, rest) := by
  cases rest with
  | nil => simp [suffix]
  | cons t rest =>
    cases t with
    | openParen => cases hrest
    | _ => simp [suffix]

lemma suffix_index {e : Expr} (hrest : ∀ us, rest ≠ .mark :: us) :
    suffix read n e (.openBracket :: rest) =
      (closed .closeBracket (read 8) rest).map fun x => (operatorCall .index [e, x.1], x.2) := by
  cases rest with
  | nil => simp [suffix]
  | cons t rest =>
    cases t with
    | mark => exact absurd rfl (hrest rest)
    | _ => simp [suffix]

end Heads

/-- No expression starts with a lexeme that closes something or marks an item. -/
lemma read_reject {t : Lexeme}
    (ht : t = .mark ∨ t = .closeParen ∨ t = .closeBracket ∨ t = .closeBrace) (n limit : Nat)
    (ts : List Lexeme) : read n limit (t :: ts) = none := by
  apply read_eq_none
  intro n
  rcases ht with rfl | rfl | rfl | rfl <;> simp [head]

lemma Readable.item {e : Expr} (h : Readable e) {t close : Lexeme} (ht : t = .comma ∨ t = close)
    (hclose : close.followLevel = 9) (rest : List Lexeme) :
    Settles (fun n => read n 8 (e.lexemes ++ t :: rest)) (e.eraseIds, t :: rest) := by
  apply h.whole (t :: rest)
  rcases ht with rfl | rfl
  · rfl
  · exact decide_eq_true (by omega)

lemma settles_args {args : List Expr} (h : ∀ c ∈ args, Readable c) (rest : List Lexeme) :
    Settles (fun n => items (read n 8) .closeParen n
      ([.comma].intercalate (args.map lexemes) ++ .closeParen :: rest))
      (args.map eraseIds, rest) :=
  settles_items (by decide) (fun n ts => read_reject (by simp) n 8 ts)
    (fun c hc _ rest ht => (h c hc).item ht rfl rest) rest

lemma wordExpr_of_not_reserved {name : String} (h : name ∉ reservedWords) :
    wordExpr name = ⟨.unset, .ident ⟨name⟩⟩ := by
  unfold wordExpr
  split
  · exact absurd (by decide) h
  · exact absurd (by decide) h
  · exact absurd (by decide) h
  · rfl

lemma eraseIds_of_fieldName {e : Expr} {name : String} (h : Unparse.fieldName? e.kind = some name) :
    e.eraseIds = ⟨.unset, .constant (.string name)⟩ := by
  obtain ⟨id, k⟩ := e
  cases k with
  | constant c =>
    cases c with
    | string s =>
      obtain rfl := Option.some.inj h
      rw [eraseIds_mk]
      rfl
    | _ => cases h
  | _ => cases h

namespace Readable

variable {id : NodeId}

lemma constant {c : Constant} (hc : c.isPlain = true) : Readable ⟨id, .constant c⟩ := by
  apply of_head
  intro rest hrest
  rw [lexemes_mk, eraseIds_mk]
  apply Settles.of_eq
  intro n
  cases c with
  | null => exact head_word hrest
  | bool b => cases b <;> exact head_word hrest
  | int i =>
    have hi : (i.toInt.toNat : Int) = i.toInt := Int.toNat_of_nonneg (of_decide_eq_true hc)
    change some (Expr.mk NodeId.unset (.constant (.int (Int64.ofInt i.toInt.toNat))), rest) = _
    rw [hi, Int64.ofInt_toInt]
    rfl
  | uint u =>
    change some (Expr.mk NodeId.unset (.constant (.uint (UInt64.ofNat u.toNat))), rest) = _
    rw [UInt64.ofNat_toNat]
    rfl
  | double d => cases hc
  | string s => rfl
  | bytes b => rfl

lemma ident {i : Ident} (hi : isPlainName i.name = true) : Readable ⟨id, .ident i⟩ := by
  apply of_head
  intro rest hrest
  rw [lexemes_mk, eraseIds_mk]
  apply Settles.of_eq
  intro n
  change head (read n) n (.word i.name :: rest) = some (⟨.unset, .ident i⟩, rest)
  rw [head_word hrest, wordExpr_of_not_reserved (not_mem_reservedWords hi)]

lemma select {s : Select Expr} (h : Readable s.operand) : Readable ⟨id, .select s⟩ := by
  obtain ⟨operand, field, testOnly⟩ := s
  have hselect : Readable ⟨id, .select ⟨operand, field, false⟩⟩ := by
    apply of_suffix (m := 1) (t := .dot) h (lexemes_mk ..) (by decide) le_rfl le_rfl
    intro rest hrest
    rw [eraseIds_mk]
    exact .of_eq fun n => suffix_select hrest
  cases testOnly with
  | false => exact hselect
  | true =>
    apply of_head
    intro rest _
    have hinner := settles_closed (hselect.whole (.closeParen :: rest) rfl)
    have hlexemes : lexemes ⟨id, .select ⟨operand, field, true⟩⟩ ++ rest =
        .word "has" :: .openParen ::
          (lexemes ⟨id, .select ⟨operand, field, false⟩⟩ ++ .closeParen :: rest) := by
      simp [lexemes_mk, Kind.mapChildren, nodeLexemes]
    rw [hlexemes]
    rw [eraseIds_mk] at hinner ⊢
    exact hinner.bind (.of_eq fun _ => rfl)

lemma call {target : Option Expr} {function : String} {args : List Expr}
    (hname : function ∉ reservedWords) (hop : target = none → Operator.ofFunction? function = none)
    (htarget : ∀ c ∈ target, Readable c) (hargs : ∀ c ∈ args, Readable c) :
    Readable ⟨id, .call ⟨target, function, args⟩⟩ := by
  have hmap : (args.map (fun x => (x, x.lexemes))).map Prod.snd = args.map lexemes := by
    rw [List.map_map]
    rfl
  cases target with
  | some target =>
    have hlexemes : lexemes ⟨id, .call ⟨some target, function, args⟩⟩ =
        operandLexemes 1 (target, target.lexemes) ++
          .dot :: .word function :: enclosed .openParen .closeParen (args.map lexemes) := by
      simp only [lexemes_mk, Kind.mapChildren, Option.map_some, nodeLexemes, hmap]
    apply of_suffix (htarget target rfl) hlexemes (by decide) le_rfl le_rfl
    intro rest _
    have hargs := (settles_args hargs rest).map fun x =>
      (Expr.mk .unset (.call ⟨some target.eraseIds, function, x.1⟩), x.2)
    rw [eraseIds_mk]
    simp only [enclosed, List.cons_append, List.append_assoc]
    exact hargs
  | none =>
    have hlexemes : lexemes ⟨id, .call ⟨none, function, args⟩⟩ =
        .word function :: enclosed .openParen .closeParen (args.map lexemes) := by
      simp only [lexemes_mk, Kind.mapChildren, Option.map_none, nodeLexemes, hop rfl, hmap]
    apply of_head
    intro rest _
    have hargs := (settles_args hargs rest).map fun x =>
      (Expr.mk .unset (.call ⟨none, function, x.1⟩), x.2)
    have hhas : function ≠ "has" := fun h => hname (by simp [h, reservedWords])
    rw [hlexemes, eraseIds_mk]
    simp only [enclosed, List.cons_append, List.append_assoc, head_call hhas]
    exact hargs

lemma operator {function : String} {op : Operator} {args : List Expr}
    (hop : Operator.ofFunction? function = some op) (harity : args.length = op.arity)
    (hfield : op = .optionalSelect → (args[1]?.bind (fun e => Unparse.fieldName? e.kind)).isSome)
    (h : ∀ c ∈ args, Readable c) : Readable ⟨id, .call ⟨none, function, args⟩⟩ := by
  obtain ⟨hfunction, hknown⟩ := Operator.ofFunction?_eq_some hop
  have hlevel : level ⟨id, .call ⟨none, function, args⟩⟩ = op.level := by
    simp only [level, operator?, hop, Option.map_some, Option.getD_some]
  have htail : tail ⟨id, .call ⟨none, function, args⟩⟩ = op.tail := by
    simp only [tail, operator?, hop, Option.map_some, Option.getD_some]
  have herase : eraseIds ⟨id, .call ⟨none, function, args⟩⟩ =
      operatorCall op (args.map eraseIds) := by
    rw [eraseIds_mk, operatorCall, hfunction]
    rfl
  have hlexemes : lexemes ⟨id, .call ⟨none, function, args⟩⟩ =
      operatorLexemes op (args.map (fun c => (c, c.lexemes))) := by
    simp only [lexemes_mk, Kind.mapChildren, Option.map_none, nodeLexemes, hop]
  cases op with
  | conditional =>
    obtain ⟨condition, yes, no, rfl⟩ := List.length_eq_three.1 harity
    simp only [List.forall_mem_cons] at h
    obtain ⟨hcondition, hyes, hno, -⟩ := h
    apply of_suffix (m := 7) (t := .operator "?") hcondition hlexemes (by decide) (by decide)
      hlevel.ge
    intro rest hrest
    rw [htail] at hrest
    rw [herase]
    have hyes := settles_closed (hyes.right (m := 8) (by omega)
      (show stops 8 (.operator ":" :: (operandLexemes 8 (no, no.lexemes) ++ rest)) = true by rfl))
    have hno := (hno.right (m := 8) (by omega) hrest).map fun x =>
      (operatorCall .conditional [condition.eraseIds, yes.eraseIds, x.1], x.2)
    simpa [suffix, Operator.ofSymbol?] using hyes.bind hno
  | binary symbol level =>
    obtain ⟨left, right, rfl⟩ := List.length_eq_two.1 harity
    simp only [List.forall_mem_cons] at h
    obtain ⟨hleft, hright, -⟩ := h
    obtain ⟨hsymbol, hlow, hhigh, -⟩ := Operator.isKnown_binary hknown
    have hfollow : (Lexeme.operator symbol).followLevel = level := by
      simp [Lexeme.followLevel, hsymbol, Operator.level]
    apply of_suffix (m := level) (t := .operator symbol) hleft hlexemes (by omega) hfollow.ge
      (by rw [hfollow, hlevel]; rfl)
    intro rest hrest
    rw [htail] at hrest
    rw [herase]
    have hright := (hright.right (m := level - 1) (by omega) hrest).map fun x =>
      (operatorCall (.binary symbol level) [left.eraseIds, x.1], x.2)
    simpa [suffix, hsymbol, Operator.level] using hright
  | unary sign =>
    obtain ⟨arg, rfl⟩ := List.length_eq_one_iff.1 harity
    have harg := h arg List.mem_cons_self
    apply of_head
    intro rest hrest
    rw [htail] at hrest
    rw [herase, hlexemes]
    exact (harg.right (m := 2) (by omega) hrest).map fun x =>
      (operatorCall (.unary sign) [x.1], x.2)
  | index =>
    obtain ⟨arg, position, rfl⟩ := List.length_eq_two.1 harity
    simp only [List.forall_mem_cons] at h
    obtain ⟨harg, hposition, -⟩ := h
    apply of_suffix (m := 1) (t := .openBracket) harg hlexemes (by decide) le_rfl hlevel.ge
    intro rest _
    rw [herase]
    have hread := hposition.whole (.closeBracket :: rest) rfl
    have hposition := (settles_closed hread).map fun x =>
      (operatorCall .index [arg.eraseIds, x.1], x.2)
    have hmark := hread.ne_cons (t := .mark) fun n us => read_reject (by simp) n 8 us
    simpa [suffix_index hmark] using hposition
  | optionalIndex =>
    obtain ⟨arg, position, rfl⟩ := List.length_eq_two.1 harity
    simp only [List.forall_mem_cons] at h
    obtain ⟨harg, hposition, -⟩ := h
    apply of_suffix (m := 1) (t := .openBracket) harg hlexemes (by decide) le_rfl hlevel.ge
    intro rest _
    rw [herase]
    have hposition := (settles_closed (hposition.whole (.closeBracket :: rest) rfl)).map fun x =>
      (operatorCall .optionalIndex [arg.eraseIds, x.1], x.2)
    simpa [suffix] using hposition
  | optionalSelect =>
    obtain ⟨arg, field, rfl⟩ := List.length_eq_two.1 harity
    have harg := h arg List.mem_cons_self
    obtain ⟨name, hname⟩ : ∃ name, Unparse.fieldName? field.kind = some name := by
      simpa [Option.isSome_iff_exists] using hfield rfl
    apply of_suffix (m := 1) (t := .dot) harg hlexemes (by decide) le_rfl hlevel.ge
    intro rest _
    apply Settles.of_eq
    intro n
    rw [herase, List.map_cons, List.map_cons, List.map_nil, eraseIds_of_fieldName hname]
    simp [suffix, hname]

lemma list {l : ListLiteral Expr}
    (hl : ∀ i ∈ l.optionalIndices.toList, i.toNat < l.elements.length)
    (h : ∀ c ∈ l.elements, Readable c) : Readable ⟨id, .list l⟩ := by
  apply of_head
  intro rest _
  have hitems : Settles (fun n => items (withMark (read n 8)) .closeBracket n
      ([.comma].intercalate (l.elements.zipIdx.map (fun p =>
        marked (l.optionalIndices.contains p.2) p.1.lexemes)) ++ .closeBracket :: rest))
      (l.elements.zipIdx.map (fun p => (l.optionalIndices.contains p.2, p.1.eraseIds)), rest) := by
    apply settles_markedItems (by decide)
    · intro n t ts ht
      exact read_reject (by tauto) n 8 ts
    · intro p hp t rest ht
      exact (h p.1 (List.fst_mem_of_mem_zipIdx hp)).item ht rfl rest
  have hlexemes : lexemes ⟨id, .list l⟩ ++ rest = .openBracket ::
      ([.comma].intercalate (l.elements.zipIdx.map (fun p =>
        marked (l.optionalIndices.contains p.2) p.1.lexemes)) ++ .closeBracket :: rest) := by
    simp only [lexemes_mk, Kind.mapChildren, nodeLexemes, enclosed, mapIdx_map]
    simp
  have helements : (l.elements.zipIdx.map (fun p =>
      (l.optionalIndices.contains p.2, p.1.eraseIds))).map Prod.snd = l.elements.map eraseIds := by
    rw [List.map_map]
    conv_rhs => rw [← List.zipIdx_map_fst 0 l.elements, List.map_map]
    rfl
  have hflags : (l.elements.zipIdx.map (fun p =>
      (l.optionalIndices.contains p.2, p.1.eraseIds))).map Prod.fst =
      (List.range l.elements.length).map l.optionalIndices.contains := by
    rw [List.map_map, List.range_eq_range', ← List.zipIdx_map_snd 0 l.elements, List.map_map]
    rfl
  have hlist := hitems.map fun x =>
    (Expr.mk .unset (.list ⟨x.1.map Prod.snd, .ofFlags (x.1.map Prod.fst)⟩), x.2)
  rw [helements, hflags, IndexSet.ofFlags_contains _ hl] at hlist
  rw [hlexemes, eraseIds_mk]
  exact hlist

lemma struct {s : StructLiteral Expr} (h : ∀ e ∈ s.entries, Readable e.value) :
    Readable ⟨id, .struct s⟩ := by
  apply of_head
  intro rest _
  have hentries : Settles (fun n => items (withMark (structEntry (read n))) .closeBrace n
      ([.comma].intercalate (s.entries.map (fun e =>
        marked e.optionalEntry (.word e.fieldKey :: .colon :: e.value.lexemes))) ++
          .closeBrace :: rest))
      (s.entries.map (fun e => (e.optionalEntry, e.fieldKey, e.value.eraseIds)), rest) := by
    apply settles_markedItems (by decide)
    · intro n t ts ht
      rcases ht with rfl | rfl <;> rfl
    · intro e he t rest ht
      exact ((h e he).item ht rfl rest).map fun x => ((e.fieldKey, x.1), x.2)
  have hlexemes : lexemes ⟨id, .struct s⟩ ++ rest = .word s.messageName :: .openBrace ::
      ([.comma].intercalate (s.entries.map (fun e =>
        marked e.optionalEntry (.word e.fieldKey :: .colon :: e.value.lexemes))) ++
          .closeBrace :: rest) := by
    simp [lexemes_mk, Kind.mapChildren, nodeLexemes, enclosed, Function.comp_def]
  rw [hlexemes, eraseIds_mk]
  have hstruct := hentries.map fun x => (Expr.mk .unset (.struct ⟨s.messageName,
    x.1.map (fun e => ⟨.unset, e.2.1, e.2.2, e.1⟩)⟩), x.2)
  rw [List.map_map] at hstruct
  simp only [head_struct, Kind.mapChildren, Kind.mapEntryIds_struct, List.map_map]
  exact hstruct

lemma map {m : MapLiteral Expr} (hkeys : ∀ e ∈ m.entries, Readable e.key)
    (hvalues : ∀ e ∈ m.entries, Readable e.value) : Readable ⟨id, .map m⟩ := by
  apply of_head
  intro rest _
  have hentries : Settles (fun n => items (withMark (mapEntry (read n))) .closeBrace n
      ([.comma].intercalate (m.entries.map (fun e =>
        marked e.optionalEntry (e.key.lexemes ++ .colon :: e.value.lexemes))) ++
          .closeBrace :: rest))
      (m.entries.map (fun e => (e.optionalEntry, e.key.eraseIds, e.value.eraseIds)), rest) := by
    apply settles_markedItems (by decide)
    · intro n t ts ht
      rw [mapEntry, closed, read_reject (by tauto)]
      rfl
    · intro e he t rest ht
      have hkey := settles_closed
        ((hkeys e he).whole (.colon :: (e.value.lexemes ++ t :: rest)) rfl)
      have hvalue := ((hvalues e he).item ht rfl rest).map fun x => ((e.key.eraseIds, x.1), x.2)
      rw [List.append_assoc, List.cons_append]
      exact hkey.bind hvalue
  have hlexemes : lexemes ⟨id, .map m⟩ ++ rest = .openBrace ::
      ([.comma].intercalate (m.entries.map (fun e =>
        marked e.optionalEntry (e.key.lexemes ++ .colon :: e.value.lexemes))) ++
          .closeBrace :: rest) := by
    simp [lexemes_mk, Kind.mapChildren, nodeLexemes, enclosed, Function.comp_def]
  have hmap := hentries.map fun x => (Expr.mk .unset (.map
    ⟨x.1.map (fun e => ⟨.unset, e.2.1, e.2.2, e.1⟩)⟩), x.2)
  rw [List.map_map] at hmap
  rw [hlexemes, eraseIds_mk, Kind.mapChildren, Kind.mapEntryIds_map, List.map_map]
  exact hmap

end Readable

/-- Every plain expression is read back from its lexemes. -/
theorem readable {e : Expr} (he : e.Plain) : Readable e := by
  induction e using Expr.induct with
  | node id k ih =>
    have hk : k.isPlain = true := he _ (self_mem_preorder _)
    have hchildren : ∀ c ∈ k.children, Readable c := fun c hc =>
      ih c hc fun x hx => he x (mem_preorder_trans hx (mem_preorder_of_mem_children hc))
    cases k with
    | notSet => cases hk
    | constant c => exact .constant hk
    | ident i => exact .ident hk
    | select s => exact .select (hchildren s.operand List.mem_cons_self)
    | call c =>
      obtain ⟨target, function, args⟩ := c
      have hargs : ∀ c ∈ args, Readable c := fun c hc => hchildren c (List.mem_append_right _ hc)
      cases target with
      | some target =>
        have htarget : ∀ c ∈ some target, Readable c := fun c hc =>
          hchildren c (List.mem_append_left _ (Option.mem_toList.2 hc))
        exact .call (not_mem_reservedWords hk) (fun h => absurd h (Option.some_ne_none _)) htarget
          hargs
      | none =>
        rcases Option.eq_none_or_eq_some (Operator.ofFunction? function) with hop | ⟨op, hop⟩
        · simp only [Kind.isPlain, hop] at hk
          exact .call (not_mem_reservedWords hk) (fun _ => hop)
            (fun _ hc => absurd hc (Option.not_mem_none _)) hargs
        · simp only [Kind.isPlain, hop, Bool.and_eq_true, decide_eq_true_eq] at hk
          apply Readable.operator hop hk.1 _ hargs
          rintro rfl
          have hfield := hk.2
          simp only [ne_eq, not_true_eq_false, decide_false, Bool.false_or,
            Option.any_eq_true] at hfield
          exact Option.isSome_iff_exists.2 ⟨_, hfield.choose_spec.1⟩
    | list l =>
      simp only [Kind.isPlain, List.all_eq_true, decide_eq_true_eq] at hk
      exact .list hk hchildren
    | struct s => exact .struct fun e he => hchildren e.value (List.mem_map_of_mem he)
    | map m =>
      have hentry : ∀ e ∈ m.entries, ∀ c ∈ [e.key, e.value], Readable c := fun e he c hc =>
        hchildren c (List.mem_flatMap.2 ⟨e, he, hc⟩)
      exact .map (fun e he => hentry e he _ (by simp)) fun e he => hentry e he _ (by simp)
    | comprehension c => cases hk

/-- The lexemes of a plain expression determine it up to ids. -/
lemma eraseIds_eq_of_lexemes {e e' : Expr} (he : e.Plain) (he' : e'.Plain)
    (h : e.lexemes = e'.lexemes) : e.eraseIds = e'.eraseIds := by
  obtain ⟨k, hk⟩ := (readable he).whole [] rfl
  obtain ⟨l, hl⟩ := (readable he').whole [] rfl
  have hread : read (max k l) 8 (e.lexemes ++ []) = some (e.eraseIds, []) := hk _ (by omega)
  have hread' : read (max k l) 8 (e'.lexemes ++ []) = some (e'.eraseIds, []) := hl _ (by omega)
  rw [h, hread'] at hread
  exact (Prod.mk.inj (Option.some.inj hread)).1.symm

end Phrase

namespace Expr

open Unparse

/-- Without macro calls no id shows in a text. -/
def idFreeSimulation : Simulation True .empty .empty where
  Related _ _ := True
  Hole := NoHole
  Linked _ _ := True
  hole _ here := here.elim
  step _ _ := .inl ⟨by rw [macroCall?, IdMap.get?_empty, ite_self],
    by rw [macroCall?, IdMap.get?_empty, ite_self]⟩

lemma bareText_congr {e e' : Expr} (hwritten : Written e) (hwritten' : Written e')
    (h : e.eraseIds = e'.eraseIds) : bareText e = bareText e' := by
  have halike : Alike (fun _ _ => True) NoHole e e' := .of_relabels (relabels_of_eraseIds h.symm)
  have hfollows : Follows True (render .empty [] e) (render .empty [] e') :=
    idFreeSimulation.follows trivial halike
  obtain ⟨text, htext, hsame⟩ := hfollows _ hwritten.render
  rw [hwritten'.render] at htext
  rw [Except.ok.inj htext, hsame trivial]

lemma bareText_injective {e e' : Expr} (he : e.Plain) (he' : e'.Plain)
    (h : bareText e = bareText e') : e.eraseIds = e'.eraseIds := by
  have hspells : Spells (e.lexemes ++ []) (bareText e ++ []) :=
    (written he).spelling [] [] .nil trivial
  have hspells' : Spells (e'.lexemes ++ []) (bareText e' ++ []) :=
    (written he').spelling [] [] .nil trivial
  rw [h] at hspells
  have hlexemes := hspells.unique hspells'
  rw [List.append_nil, List.append_nil] at hlexemes
  exact Phrase.eraseIds_eq_of_lexemes he he' hlexemes

/-- A plain expression has a text, and the expressions with the same text are those that differ in
their ids only. -/
theorem plain_unparse_injective {e e' : Expr} (he : e.Plain) (he' : e'.Plain) :
    (∃ text, e.unparse .empty = .ok text) ∧
      (e.unparse .empty = e'.unparse .empty ↔ e.eraseIds = e'.eraseIds) := by
  have htext : e.unparse .empty = .ok (String.ofList (bareText e)) := by
    rw [Expr.unparse, (written he).render]
    rfl
  have htext' : e'.unparse .empty = .ok (String.ofList (bareText e')) := by
    rw [Expr.unparse, (written he').render]
    rfl
  refine ⟨⟨_, htext⟩, ?_⟩
  rw [htext, htext']
  constructor
  · intro h
    exact bareText_injective he he' (String.ofList_injective (Except.ok.inj h))
  · intro h
    rw [bareText_congr (written he) (written he') h]

/-- Parentheses stand only where they are needed, around operands of several kinds. -/
theorem plain_unparse_injective_nested :
    let name (i : UInt64) (s : String) : Expr := ⟨⟨i⟩, .ident ⟨s⟩⟩
    let op (i : UInt64) (f : String) (args : List Expr) : Expr := ⟨⟨i⟩, .call ⟨none, f, args⟩⟩
    let tree (i : UInt64) : Expr :=
      let either := op i "_||_" [name i "p", name i "q"]
      let choice := op i "_?_:_" [either,
        op (i + 1) "_-_" [name i "a", op i "_-_" [name i "b", name i "c"]],
        op (i + 2) "-_" [op i "_*_" [name i "a", ⟨⟨i⟩, .constant (.int 2)⟩]]]
      let item := op i "_[_]" [op i "!_" [name i "r"], choice]
      ⟨⟨i + 3⟩, .map ⟨[⟨⟨i + 4⟩, choice,
        ⟨⟨i⟩, .list ⟨[item, ⟨⟨i⟩, .select ⟨either, "f", true⟩⟩], .ofList [1]⟩⟩, true⟩]⟩⟩
    let choice := "p || q ? a - (b - c) : -(a * 2)"
    let text := "\x7b?" ++ choice ++ ": [(!r)[" ++ choice ++ "], ?has((p || q).f)]\x7d"
    (tree 1).Plain ∧ (tree 8).Plain ∧ (tree 1).unparse .empty = .ok text ∧
      (tree 8).unparse .empty = .ok text ∧ (tree 1).eraseIds = (tree 8).eraseIds := by
  intro name op tree choice text
  have hplain : (tree 1).Plain := by decide +kernel
  have hplain' : (tree 8).Plain := by decide +kernel
  have htext : (tree 1).unparse .empty = .ok text := except_toOption_eq_some.1 (by decide +kernel)
  have htext' : (tree 8).unparse .empty = .ok text := except_toOption_eq_some.1 (by decide +kernel)
  exact ⟨hplain, hplain', htext, htext',
    (plain_unparse_injective hplain hplain').2.1 (htext.trans htext'.symm)⟩

end Expr

end CelEdit
