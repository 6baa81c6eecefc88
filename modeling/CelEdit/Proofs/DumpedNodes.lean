import CelEdit.Proofs.DumpLines
import CelEdit.Proofs.Literals

/-!
# Nodes in a dump

The first line of a node shows its kind and its id, and the lines after it follow the kind: fields and
blocks with fixed labels, where what is missing can be told from the label that comes next. So a node
is known from its lines, if its children are known from theirs and no selected field looks as if it
had the mark of a presence test.
-/

namespace CelEdit

/-- The field that a node selects. -/
def Kind.selected {α : Type} : Kind α → List String
  | .select s => [s.field]
  | _ => []

namespace Dump

/-! ### Numbers and headers -/

/-- What a presence test has after its field. -/
def presenceMark : String := "~presence_test"

def header (tag : KindTag) (id : NodeId) : String := tag.display ++ " [" ++ number id.toNat ++ "]"

lemma toList_number (n : Nat) : (number n).toList = Nat.toDigits 10 n := String.toList_ofList

/-- The digits of a number end where something else follows. -/
lemma toDigits_append_inj {m n : Nat} {a b : List Char} (ha : ∀ c ∈ a.head?, c.isDigit = false)
    (hb : ∀ c ∈ b.head?, c.isDigit = false)
    (h : Nat.toDigits 10 m ++ a = Nat.toDigits 10 n ++ b) : m = n ∧ a = b := by
  obtain ⟨hdigits, hrest⟩ :=
    span_append_inj (isDigit_toDigits m) (isDigit_toDigits n) ha hb h
  refine ⟨?_, hrest⟩
  rw [← digitsValue_toDigits m, hdigits, digitsValue_toDigits]

lemma number_inj {m n : Nat} (h : number m = number n) : m = n :=
  (toDigits_append_inj (a := []) (b := []) (by simp) (by simp)
    (by rw [String.ofList_injective h])).1

lemma bracketed_inj {a : String} {id id' : NodeId}
    (h : a ++ number id.toNat ++ "]" = a ++ number id'.toNat ++ "]") : id = id' :=
  NodeId.toNat_inj.1 (number_inj ((String.append_right_inj _).1 ((String.append_left_inj _).1 h)))

def tags : List KindTag :=
  [.notSet, .constant, .ident, .select, .call, .list, .struct, .map, .comprehension]

lemma display_inj {tag tag' : KindTag} (h : tag.display = tag'.display) : tag = tag' := by
  have hfind (tag : KindTag) : tags.find? (fun t => t.display = tag.display) = some tag := by
    cases tag <;> decide
  rw [← Option.some_inj, ← hfind tag, h, hfind tag']

lemma blank_not_mem_display (tag : KindTag) :
    ∀ c ∈ tag.display.toList, decide (c ≠ ' ') = true := by
  cases tag <;> exact List.all_eq_true.1 rfl

/-- Kind and id can be told from the line that starts with them. -/
lemma header_append_inj {tag tag' : KindTag} {id id' : NodeId} {a b : String}
    (h : header tag id ++ a = header tag' id' ++ b) : tag = tag' ∧ id = id' := by
  have htext (tag : KindTag) (id : NodeId) (a : String) : (header tag id ++ a).toList =
      tag.display.toList ++ ' ' :: '[' :: (Nat.toDigits 10 id.toNat ++ ']' :: a.toList) := by
    simp [header, String.toList_append, toList_number]
  have hlist := congrArg String.toList h
  rw [htext, htext] at hlist
  have hblank (rest : List Char) : ∀ c ∈ (' ' :: rest).head?, decide (c ≠ ' ') = false := by simp
  have hbracket (rest : List Char) : ∀ c ∈ (']' :: rest).head?, c.isDigit = false := by simp
  obtain ⟨htag, hrest⟩ := span_append_inj (blank_not_mem_display tag) (blank_not_mem_display tag')
    (hblank _) (hblank _) hlist
  obtain ⟨hid, -⟩ := toDigits_append_inj (hbracket _) (hbracket _)
    (List.cons.inj (List.cons.inj hrest).2).2
  exact ⟨display_inj (String.toList_inj.1 htag), NodeId.toNat_inj.1 hid⟩

/-- Numbers with commas between them. -/
def listed (ns : List Nat) : List Char := [',', ' '].intercalate (ns.map (Nat.toDigits 10))

lemma listed_cons (n : Nat) (ns : List Nat) :
    listed (n :: ns) = Nat.toDigits 10 n ++ if ns = [] then [] else ',' :: ' ' :: listed ns := by
  cases ns with
  | nil => simp [listed]
  | cons m ns =>
    rw [listed, List.map_cons, List.map_cons, List.intercalate_cons_cons, List.append_assoc,
      if_neg (List.cons_ne_nil m ns)]
    rfl

lemma listed_cons_ne_nil (n : Nat) (ns : List Nat) : listed (n :: ns) ≠ [] := by
  rw [listed_cons]
  exact List.append_ne_nil_of_left_ne_nil Nat.toDigits_ne_nil _

lemma listed_inj {ms ns : List Nat} (h : listed ms = listed ns) : ms = ns := by
  have hhead (ns : List Nat) :
      ∀ c ∈ (if ns = [] then [] else ',' :: ' ' :: listed ns).head?, c.isDigit = false := by
    split <;> simp
  induction ms generalizing ns with
  | nil =>
    cases ns with
    | nil => rfl
    | cons n ns => exact absurd h.symm (listed_cons_ne_nil n ns)
  | cons m ms ih =>
    cases ns with
    | nil => exact absurd h (listed_cons_ne_nil m ms)
    | cons n ns =>
      rw [listed_cons, listed_cons] at h
      obtain ⟨rfl, hrest⟩ := toDigits_append_inj (hhead ms) (hhead ns) h
      by_cases hms : ms = []
      · by_cases hns : ns = []
        · rw [hms, hns]
        · rw [if_pos hms, if_neg hns] at hrest
          cases hrest
      · by_cases hns : ns = []
        · rw [if_neg hms, if_pos hns] at hrest
          cases hrest
        · rw [if_neg hms, if_neg hns] at hrest
          rw [ih (List.cons.inj (List.cons.inj hrest).2).2]

/-! ### The lines of a node -/

def targetLines : Option (List DumpLine) → List DumpLine
  | none => []
  | some t => labelled "target" t

def argumentLines (args : List (List DumpLine)) : List DumpLine :=
  if args.isEmpty then [] else labelled "args" args.flatten

def indexLines (indices : IndexSet) : List DumpLine :=
  if indices.isEmpty then []
  else [field "optional_indices"
    ("[" ++ ", ".intercalate (indices.toList.map (fun i => number i.toNat)) ++ "]")]

def structEntryLines (e : StructEntry (List DumpLine)) : List DumpLine :=
  braced ("ENTRY [" ++ number e.id.toNat ++ "]")
    (field "field_key" e.fieldKey :: optionalMark e.optionalEntry ++ labelled "value" e.value)

def mapEntryLines (e : MapEntry (List DumpLine)) : List DumpLine :=
  braced ("MAP_ENTRY [" ++ number e.id.toNat ++ "]")
    (labelled "key" e.key ++ optionalMark e.optionalEntry ++ labelled "value" e.value)

section Equations

variable (id : NodeId)

lemma node_constant (c : Constant) :
    node id (.constant c) =
      [.of (header .constant id ++ (" \x7b value: " ++ String.ofList c.source ++ " \x7d"))] := by
  rw [String.append_assoc, ← String.append_assoc, ← String.append_assoc]
  rfl

lemma node_select (s : Select (List DumpLine)) :
    node id (.select s) = .of (header .select id ++ " \x7b") :: (nested s.operand ++
      [.of ("\x7d." ++ s.field ++ if s.testOnly then presenceMark else "")]) := rfl

lemma node_call (c : Call (List DumpLine)) :
    node id (.call c) = braced (header .call id)
      (targetLines c.target ++ field "function" c.function :: argumentLines c.args) := by
  obtain ⟨target, function, args⟩ := c
  cases target <;> rfl

lemma node_list (l : ListLiteral (List DumpLine)) :
    node id (.list l) = braced (header .list id)
      (labelled "elements" l.elements.flatten ++ indexLines l.optionalIndices) := rfl

lemma node_struct (s : StructLiteral (List DumpLine)) :
    node id (.struct s) = braced (header .struct id)
      (field "name" s.messageName :: labelled "entries" (s.entries.flatMap structEntryLines)) := rfl

lemma node_map (m : MapLiteral (List DumpLine)) :
    node id (.map m) = braced (header .map id) (m.entries.flatMap mapEntryLines) := rfl

lemma node_comprehension (c : Comprehension (List DumpLine)) :
    node id (.comprehension c) = braced (header .comprehension id)
      (field "iter_var" c.iterVar :: (labelled "iter_range" c.iterRange ++
        field "accu_var" c.accuVar :: (labelled "accu_init" c.accuInit ++
          (labelled "loop_condition" c.loopCondition ++
            (labelled "loop_step" c.loopStep ++ labelled "result" c.result))))) := by
  simp only [node, List.cons_append, List.append_assoc]
  rfl

/-- The first line of a node starts with its header. -/
lemma node_eq_cons (k : Kind (List DumpLine)) :
    ∃ a ls, node id k = .of (header k.tag id ++ a) :: ls := by
  cases k with
  | constant c => exact ⟨_, _, node_constant id c⟩
  | _ => exact ⟨_, _, rfl⟩

end Equations

/-! ### From lines to the parts of a node -/

section Parts

variable {xs ys r s : List DumpLine}

/-- A block and a field whose labels start with different characters. -/
lemma labelled_append_ne_field {a b value : String} (h : a.toList.head? ≠ b.toList.head?)
    (ha : a ≠ "") (hb : b ≠ "") : labelled a xs ++ r ≠ field b value :: s := by
  have hhead (a x : String) (ha : a ≠ "") : (a ++ x).toList.head? = a.toList.head? := by
    rw [String.toList_append, List.head?_append_of_ne_nil]
    rwa [ne_eq, String.toList_eq_nil_iff]
  intro heq
  rw [labelled, braced_append, field, String.append_assoc, String.append_assoc] at heq
  have hline := of_inj.1 (List.cons.inj heq).1
  exact h (by rw [← hhead a _ ha, hline, hhead b _ hb])

lemma targetLines_append_inj {t t' : Option (List DumpLine)} {a b : String}
    (h : targetLines t ++ field "function" a :: r = targetLines t' ++ field "function" b :: s) :
    t = t' ∧ a = b ∧ r = s := by
  cases t with
  | none =>
    cases t' with
    | none => exact ⟨rfl, field_cons_inj h⟩
    | some t' => exact absurd h.symm (labelled_append_ne_field (by decide) (by decide) (by decide))
  | some t =>
    cases t' with
    | none => exact absurd h (labelled_append_ne_field (by decide) (by decide) (by decide))
    | some t' =>
      obtain ⟨rfl, hrest⟩ := labelled_append_inj h
      exact ⟨rfl, field_cons_inj hrest⟩

lemma optionalMark_append_inj {o o' : Bool}
    (h : optionalMark o ++ labelled "value" xs = optionalMark o' ++ labelled "value" ys) :
    o = o' ∧ xs = ys := by
  have hmark (xs ys : List DumpLine) :
      labelled "value" xs ≠ field "optional_entry" "true" :: labelled "value" ys := by
    rw [← List.append_nil (labelled "value" xs)]
    exact labelled_append_ne_field (by decide) (by decide) (by decide)
  cases o with
  | false =>
    cases o' with
    | false => exact ⟨rfl, labelled_inj h⟩
    | true => exact absurd h (hmark xs ys)
  | true =>
    cases o' with
    | false => exact absurd h.symm (hmark ys xs)
    | true => exact ⟨rfl, labelled_inj (List.cons.inj h).2⟩

lemma indexLines_inj {is js : IndexSet} (h : indexLines is = indexLines js) : is = js := by
  have htext {is js : List UInt64}
      (h : "[" ++ ", ".intercalate (is.map (fun i => number i.toNat)) ++ "]" =
        "[" ++ ", ".intercalate (js.map (fun i => number i.toNat)) ++ "]") : is = js := by
    have hlist := congrArg String.toList
      ((String.append_right_inj _).1 ((String.append_left_inj _).1 h))
    have hdigits : String.toList ∘ (fun i : UInt64 => number i.toNat) =
        Nat.toDigits 10 ∘ UInt64.toNat := funext fun i => toList_number i.toNat
    rw [String.toList_intercalate, String.toList_intercalate, List.map_map, List.map_map, hdigits,
      ← List.map_map, ← List.map_map] at hlist
    exact List.map_injective_iff.2 (fun i j hij => UInt64.toNat_inj.1 hij) (listed_inj hlist)
  have hempty {is : IndexSet} : is.isEmpty ↔ is.toList = [] := List.isEmpty_iff
  have hset {is js : IndexSet} (h : is.toList = js.toList) : is = js := by
    cases is
    cases js
    cases h
    rfl
  apply hset
  unfold indexLines at h
  by_cases his : is.isEmpty
  · by_cases hjs : js.isEmpty
    · rw [hempty.1 his, hempty.1 hjs]
    · rw [if_pos his, if_neg hjs] at h
      cases h
  · by_cases hjs : js.isEmpty
    · rw [if_neg his, if_pos hjs] at h
      cases h
    · rw [if_neg his, if_neg hjs] at h
      exact htext (field_inj (List.cons.inj h).1)

end Parts

section Layers

variable {α : Type} {f : α → List DumpLine} {id : NodeId} {r s : List DumpLine}

lemma flatten_inj {as bs : List α} (h : ∀ a ∈ as, ∀ b ∈ bs, Separates f a b) (hne : ∀ a, f a ≠ [])
    (heq : (as.map f).flatten = (bs.map f).flatten) : as = bs := by
  rw [← List.flatMap_def, ← List.flatMap_def] at heq
  exact eq_of_flatMap_eq h hne heq

lemma argumentLines_inj {as bs : List α} (h : ∀ a ∈ as, ∀ b ∈ bs, Separates f a b)
    (hne : ∀ a, f a ≠ []) (heq : argumentLines (as.map f) = argumentLines (bs.map f)) : as = bs := by
  cases as with
  | nil =>
    cases bs with
    | nil => rfl
    | cons b bs => cases heq
  | cons a as =>
    cases bs with
    | nil => cases heq
    | cons b bs => exact flatten_inj h hne (labelled_inj heq)

lemma separates_structEntry {e e' : StructEntry α} (h : Separates f e.value e'.value) :
    Separates (fun e => structEntryLines ⟨e.id, e.fieldKey, f e.value, e.optionalEntry⟩) e e' := by
  intro r s heq
  obtain ⟨hid, hcontent, hrest⟩ := braced_append_inj heq
  obtain ⟨hkey, hcontent⟩ := field_cons_inj hcontent
  obtain ⟨hoptional, hvalue⟩ := optionalMark_append_inj hcontent
  obtain ⟨id, key, value, optional⟩ := e
  obtain ⟨id', key', value', optional'⟩ := e'
  obtain rfl : id = id' := bracketed_inj hid
  obtain rfl : key = key' := hkey
  obtain rfl : optional = optional' := hoptional
  obtain rfl : value = value' := h.eq hvalue
  exact ⟨rfl, hrest⟩

lemma separates_mapEntry {e e' : MapEntry α} (hkey : Separates f e.key e'.key)
    (hvalue : Separates f e.value e'.value) :
    Separates (fun e => mapEntryLines ⟨e.id, f e.key, f e.value, e.optionalEntry⟩) e e' := by
  intro r s heq
  obtain ⟨hid, hcontent, hrest⟩ := braced_append_inj heq
  rw [List.append_assoc, List.append_assoc] at hcontent
  obtain ⟨hkeys, hcontent⟩ := labelled_append_inj hcontent
  obtain ⟨hoptional, hvalues⟩ := optionalMark_append_inj hcontent
  obtain ⟨id, key, value, optional⟩ := e
  obtain ⟨id', key', value', optional'⟩ := e'
  obtain rfl : id = id' := bracketed_inj hid
  obtain rfl : optional = optional' := hoptional
  obtain rfl : key = key' := hkey.eq hkeys
  obtain rfl : value = value' := hvalue.eq hvalues
  exact ⟨rfl, hrest⟩

/-- A field and the mark after it, where no field ends like the mark. -/
lemma marked_inj {a b : String} {t u : Bool} (ha : ¬ presenceMark.toList <:+ a.toList)
    (hb : ¬ presenceMark.toList <:+ b.toList)
    (h : (a ++ if t then presenceMark else "") = b ++ if u then presenceMark else "") :
    a = b ∧ t = u := by
  have hsuffix {a b : String} (h : a ++ presenceMark = b ++ "") :
      presenceMark.toList <:+ b.toList := by
    rw [String.append_empty] at h
    rw [← h, String.toList_append]
    exact List.suffix_append _ _
  cases t with
  | false =>
    cases u with
    | false => exact ⟨(String.append_left_inj _).1 h, rfl⟩
    | true => exact absurd (hsuffix h.symm) ha
  | true =>
    cases u with
    | false => exact absurd (hsuffix h) hb
    | true => exact ⟨(String.append_left_inj _).1 h, rfl⟩

/-! ### From the lines of a node to the node -/

lemma constant_append_inj {c c' : Constant} (hc : c.isDouble = false) (hc' : c'.isDouble = false)
    (heq : node id (.constant c) ++ r = node id (.constant c') ++ s) : c = c' ∧ r = s := by
  rw [node_constant, node_constant] at heq
  obtain ⟨hline, hrest⟩ := List.cons.inj heq
  have hvalue := (String.append_right_inj _).1 (of_inj.1 hline)
  have hsource := (String.append_right_inj _).1 ((String.append_left_inj _).1 hvalue)
  exact ⟨(Constant.source_inj hc hc').1 (String.ofList_injective hsource), hrest⟩

lemma ident_append_inj {i i' : Ident} (heq : node id (.ident i) ++ r = node id (.ident i') ++ s) :
    i = i' ∧ r = s := by
  obtain ⟨-, hcontent, hrest⟩ := braced_append_inj heq
  obtain ⟨hname, -⟩ := field_cons_inj hcontent
  cases i
  cases i'
  cases hname
  exact ⟨rfl, hrest⟩

lemma select_append_inj {x x' : Select α} (h : Separates f x.operand x'.operand)
    (hx : ¬ presenceMark.toList <:+ x.field.toList) (hx' : ¬ presenceMark.toList <:+ x'.field.toList)
    (heq : node id ((Kind.select x).mapChildren f) ++ r =
      node id ((Kind.select x').mapChildren f) ++ s) : x = x' ∧ r = s := by
  simp only [Kind.mapChildren, node_select, List.cons_append, List.append_assoc] at heq
  obtain ⟨hoperand, hclosing, hrest⟩ := nested_append_inj (List.cons.inj heq).2
  rw [String.append_assoc, String.append_assoc] at hclosing
  obtain ⟨hfield, htest⟩ := marked_inj hx hx' ((String.append_right_inj _).1 hclosing)
  obtain ⟨operand, field, testOnly⟩ := x
  obtain ⟨operand', field', testOnly'⟩ := x'
  obtain rfl : operand = operand' := h.eq hoperand
  cases hfield
  cases htest
  exact ⟨rfl, hrest⟩

lemma call_append_inj {c c' : Call α}
    (h : ∀ a ∈ (Kind.call c).children, ∀ b ∈ (Kind.call c').children, Separates f a b)
    (hne : ∀ a, f a ≠ [])
    (heq : node id ((Kind.call c).mapChildren f) ++ r = node id ((Kind.call c').mapChildren f) ++ s) :
    c = c' ∧ r = s := by
  obtain ⟨target, function, args⟩ := c
  obtain ⟨target', function', args'⟩ := c'
  simp only [Kind.mapChildren, node_call] at heq
  obtain ⟨-, hcontent, hrest⟩ := braced_append_inj heq
  obtain ⟨htargets, rfl, harguments⟩ := targetLines_append_inj hcontent
  have hargs : ∀ a ∈ args, ∀ b ∈ args', Separates f a b := fun a ha b hb =>
    h a (List.mem_append_right _ ha) b (List.mem_append_right _ hb)
  obtain rfl := argumentLines_inj hargs hne harguments
  refine ⟨?_, hrest⟩
  cases target with
  | none =>
    cases target' with
    | none => rfl
    | some t' => cases htargets
  | some t =>
    cases target' with
    | none => cases htargets
    | some t' =>
      obtain rfl := (h t List.mem_cons_self t' List.mem_cons_self).eq (Option.some.inj htargets)
      rfl

lemma list_append_inj {l l' : ListLiteral α}
    (h : ∀ a ∈ l.elements, ∀ b ∈ l'.elements, Separates f a b) (hne : ∀ a, f a ≠ [])
    (heq : node id ((Kind.list l).mapChildren f) ++ r = node id ((Kind.list l').mapChildren f) ++ s) :
    l = l' ∧ r = s := by
  obtain ⟨elements, optional⟩ := l
  obtain ⟨elements', optional'⟩ := l'
  simp only [Kind.mapChildren, node_list] at heq
  obtain ⟨-, hcontent, hrest⟩ := braced_append_inj heq
  obtain ⟨helements, hindices⟩ := labelled_append_inj hcontent
  obtain rfl := flatten_inj h hne helements
  obtain rfl := indexLines_inj hindices
  exact ⟨rfl, hrest⟩

lemma struct_append_inj {x x' : StructLiteral α}
    (h : ∀ e ∈ x.entries, ∀ e' ∈ x'.entries, Separates f e.value e'.value)
    (heq : node id ((Kind.struct x).mapChildren f) ++ r =
      node id ((Kind.struct x').mapChildren f) ++ s) : x = x' ∧ r = s := by
  obtain ⟨name, entries⟩ := x
  obtain ⟨name', entries'⟩ := x'
  simp only [Kind.mapChildren, node_struct, List.flatMap_map] at heq
  obtain ⟨-, hcontent, hrest⟩ := braced_append_inj heq
  obtain ⟨hname, hcontent⟩ := field_cons_inj hcontent
  have hentries := eq_of_flatMap_eq (fun e he e' he' => separates_structEntry (h e he e' he'))
    (fun e => List.cons_ne_nil _ _) (labelled_inj hcontent)
  refine ⟨?_, hrest⟩
  rw [StructLiteral.mk.injEq]
  exact ⟨hname, hentries⟩

lemma map_append_inj {m m' : MapLiteral α}
    (h : ∀ e ∈ m.entries, ∀ e' ∈ m'.entries,
      Separates f e.key e'.key ∧ Separates f e.value e'.value)
    (heq : node id ((Kind.map m).mapChildren f) ++ r = node id ((Kind.map m').mapChildren f) ++ s) :
    m = m' ∧ r = s := by
  obtain ⟨entries⟩ := m
  obtain ⟨entries'⟩ := m'
  simp only [Kind.mapChildren, node_map, List.flatMap_map] at heq
  obtain ⟨-, hcontent, hrest⟩ := braced_append_inj heq
  obtain rfl := eq_of_flatMap_eq
    (fun e he e' he' => separates_mapEntry (h e he e' he').1 (h e he e' he').2)
    (fun e => List.cons_ne_nil _ _) hcontent
  exact ⟨rfl, hrest⟩

lemma comprehension_append_inj {c c' : Comprehension α} (hrange : Separates f c.iterRange c'.iterRange)
    (hinit : Separates f c.accuInit c'.accuInit)
    (hcondition : Separates f c.loopCondition c'.loopCondition)
    (hstep : Separates f c.loopStep c'.loopStep) (hresult : Separates f c.result c'.result)
    (heq : node id ((Kind.comprehension c).mapChildren f) ++ r =
      node id ((Kind.comprehension c').mapChildren f) ++ s) : c = c' ∧ r = s := by
  simp only [Kind.mapChildren, node_comprehension] at heq
  obtain ⟨-, hcontent, hrest⟩ := braced_append_inj heq
  obtain ⟨hiter, hcontent⟩ := field_cons_inj hcontent
  obtain ⟨hranges, hcontent⟩ := labelled_append_inj hcontent
  obtain ⟨haccu, hcontent⟩ := field_cons_inj hcontent
  obtain ⟨hinits, hcontent⟩ := labelled_append_inj hcontent
  obtain ⟨hconditions, hcontent⟩ := labelled_append_inj hcontent
  obtain ⟨hsteps, hcontent⟩ := labelled_append_inj hcontent
  refine ⟨?_, hrest⟩
  cases c
  cases c'
  rw [Comprehension.mk.injEq]
  exact ⟨hiter, hrange.eq hranges, haccu, hinit.eq hinits, hcondition.eq hconditions,
    hstep.eq hsteps, hresult.eq (labelled_inj hcontent)⟩

/-- What the lines of a node show: its kind and its id, and then the node, if its children can be told
from their lines. -/
theorem node_append_inj {k k' : Kind α} {id' : NodeId}
    (h : ∀ a ∈ k.children, ∀ b ∈ k'.children, Separates f a b) (hne : ∀ a, f a ≠ [])
    (hdouble : k.isDouble = false) (hdouble' : k'.isDouble = false)
    (hfield : ∀ a ∈ k.selected, ¬ presenceMark.toList <:+ a.toList)
    (hfield' : ∀ a ∈ k'.selected, ¬ presenceMark.toList <:+ a.toList)
    (heq : node id (k.mapChildren f) ++ r = node id' (k'.mapChildren f) ++ s) :
    id = id' ∧ k = k' ∧ r = s := by
  obtain ⟨htag, rfl⟩ : k.tag = k'.tag ∧ id = id' := by
    obtain ⟨a, ls, hls⟩ := node_eq_cons id (k.mapChildren f)
    obtain ⟨a', ls', hls'⟩ := node_eq_cons id' (k'.mapChildren f)
    rw [hls, hls'] at heq
    have hheader := header_append_inj (of_inj.1 (List.cons.inj heq).1)
    rwa [Kind.tag_mapChildren, Kind.tag_mapChildren] at hheader
  refine ⟨rfl, ?_⟩
  cases k with
  | notSet =>
    cases k' with
    | notSet => exact ⟨rfl, (List.cons.inj heq).2⟩
    | _ => cases htag
  | constant c =>
    cases k' with
    | constant c' =>
      exact (constant_append_inj hdouble hdouble' heq).imp_left (congrArg Kind.constant)
    | _ => cases htag
  | ident i =>
    cases k' with
    | ident i' => exact (ident_append_inj heq).imp_left (congrArg Kind.ident)
    | _ => cases htag
  | select x =>
    cases k' with
    | select x' =>
      have hoperand := h x.operand List.mem_cons_self x'.operand List.mem_cons_self
      exact (select_append_inj hoperand (hfield _ List.mem_cons_self) (hfield' _ List.mem_cons_self)
        heq).imp_left (congrArg Kind.select)
    | _ => cases htag
  | call c =>
    cases k' with
    | call c' => exact (call_append_inj h hne heq).imp_left (congrArg Kind.call)
    | _ => cases htag
  | list l =>
    cases k' with
    | list l' => exact (list_append_inj h hne heq).imp_left (congrArg Kind.list)
    | _ => cases htag
  | struct x =>
    cases k' with
    | struct x' =>
      have hentries : ∀ e ∈ x.entries, ∀ e' ∈ x'.entries, Separates f e.value e'.value :=
        fun e he e' he' => h _ (List.mem_map_of_mem he) _ (List.mem_map_of_mem he')
      exact (struct_append_inj hentries heq).imp_left (congrArg Kind.struct)
    | _ => cases htag
  | map m =>
    cases k' with
    | map m' =>
      have hpart {e e' : MapEntry α} (he : e ∈ m.entries) (he' : e' ∈ m'.entries) {a b : α}
          (ha : a ∈ [e.key, e.value]) (hb : b ∈ [e'.key, e'.value]) : Separates f a b :=
        h a (List.mem_flatMap.2 ⟨e, he, ha⟩) b (List.mem_flatMap.2 ⟨e', he', hb⟩)
      exact (map_append_inj (fun e he e' he' => ⟨hpart he he' (by simp) (by simp),
        hpart he he' (by simp) (by simp)⟩) heq).imp_left (congrArg Kind.map)
    | _ => cases htag
  | comprehension c =>
    cases k' with
    | comprehension c' =>
      simp only [Kind.children, List.forall_mem_cons] at h
      obtain ⟨⟨hrange, -⟩, ⟨-, hinit, -⟩, ⟨-, -, hcondition, -⟩, ⟨-, -, -, hstep, -⟩,
        ⟨-, -, -, -, hresult, -⟩, -⟩ := h
      exact (comprehension_append_inj hrange hinit hcondition hstep hresult heq).imp_left
        (congrArg Kind.comprehension)
    | _ => cases htag

end Layers

end Dump

end CelEdit
