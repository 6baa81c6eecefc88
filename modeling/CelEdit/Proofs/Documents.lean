import CelEdit.CommandLine.Run
import CelEdit.Proofs.JsonTexts
import CelEdit.Proofs.Tables

/-!
# Documents

A tree and its metadata are read as they were written. Every reader is matched with its writer: the
value that is written has well spelled tokens, and it is read back in any room that its own nesting
fits into.
-/

namespace CelEdit

/-! ### Nesting -/

namespace Json

mutual

/-- How many containers are nested in each other. -/
def depth : Json → Nat
  | .array items => itemsDepth items + 1
  | .object members => membersDepth members + 1
  | _ => 0

def itemsDepth : List Json → Nat
  | [] => 0
  | item :: items => max (depth item) (itemsDepth items)

def membersDepth : List (List StringUnit × Json) → Nat
  | [] => 0
  | (_, v) :: members => max (depth v) (membersDepth members)

end

lemma depth_array_le {items : List Json} {n : Nat} :
    (Json.array items).depth ≤ n + 1 ↔ ∀ item ∈ items, item.depth ≤ n := by
  rw [depth, Nat.add_le_add_iff_right]
  induction items with
  | nil => simp [itemsDepth]
  | cons item items ih => rw [itemsDepth, Nat.max_le, ih, List.forall_mem_cons]

lemma depth_object_le {members : List (List StringUnit × Json)} {n : Nat} :
    (Json.object members).depth ≤ n + 1 ↔ ∀ m ∈ members, m.2.depth ≤ n := by
  rw [depth, Nat.add_le_add_iff_right]
  induction members with
  | nil => simp [membersDepth]
  | cons m members ih => rw [membersDepth, Nat.max_le, ih, List.forall_mem_cons]

lemma depth_record_le {fs : List (String × Json)} {n : Nat} :
    (record fs).depth ≤ n + 1 ↔ ∀ f ∈ fs, f.2.depth ≤ n := by
  rw [record, depth_object_le, List.forall_mem_map]

/-! ### Tokens that are written -/

lemma isNumberChar_of_isDigit {c : Char} (h : c.isDigit = true) : isNumberChar c = true := by
  simp [isNumberChar, h]

@[simp] lemma wellSpelled_ofInt (i : Int) : (Json.number (.ofInt i)).WellSpelled := by
  intro t ht
  obtain rfl := List.mem_singleton.1 ht
  refine ⟨?_, fun c hc => ?_⟩
  · rw [Numeral.spell_ofInt, Numeral.parse?_digits (Numeral.canonicalDigits_toDigits _)]
    rfl
  · rw [Numeral.spell_ofInt, List.mem_append] at hc
    rcases hc with hsign | hdigit
    · split at hsign
      · obtain rfl := List.mem_singleton.1 hsign
        decide
      · cases hsign
    · exact isNumberChar_of_isDigit (isDigit_toDigits _ c hdigit)

@[simp] lemma wellSpelled_nat (n : Nat) : (Json.nat n).WellSpelled := by
  have hnat : Json.nat n = .number (.ofInt n) := by simp [Json.nat, Numeral.ofNat, Numeral.ofInt]
  rw [hnat]
  exact wellSpelled_ofInt n

@[simp] lemma wellSpelled_bool (b : Bool) : (Json.bool b).WellSpelled := by
  intro t ht
  obtain rfl := List.mem_singleton.1 ht
  trivial

@[simp] lemma wellSpelled_null : Json.null.WellSpelled := by
  intro t ht
  obtain rfl := List.mem_singleton.1 ht
  trivial

@[simp] lemma wellSpelled_text (s : String) : (Json.text s).WellSpelled := by
  intro t ht
  obtain rfl := List.mem_singleton.1 ht
  exact wellSpelled_encodeString s

lemma wellSpelled_record {fs : List (String × Json)} :
    (record fs).WellSpelled ↔ ∀ f ∈ fs, f.2.WellSpelled := by
  rw [record, wellSpelled_object, List.forall_mem_map]
  exact ⟨fun h f hf => (h f hf).2, fun h f hf => ⟨wellSpelled_encodeString f.1, h f hf⟩⟩

lemma wellSpelled_digit {c : Char} (h : c.isDigit = true) : (StringUnit.plain c).WellSpelled := by
  have hc : ∀ d : Char, d.isDigit = false → c ≠ d := by
    rintro d hd rfl
    simp [h] at hd
  refine ⟨hc _ (by decide), hc _ (by decide), ?_⟩
  rw [Char.isDigit, Bool.and_eq_true, decide_eq_true_eq, decide_eq_true_eq] at h
  have hlow : '0'.toNat ≤ c.toNat := h.1
  have : '0'.toNat = 48 := rfl
  omega

end Json

/-! ### Readers of what is written -/

namespace Reader

variable {α β γ : Type} {n : Nat}

/-- The value has well spelled tokens, and the reader finds `a` in it, in any room up to `n` that
its nesting fits into. -/
structure Represents (n : Nat) (read : Reader α) (j : Json) (a : α) : Prop where
  spelled : j.WellSpelled
  reads : ∀ room ≤ n, j.depth ≤ room → read room j = some a

section Scalars

variable (room : Nat)

lemma nat_nat {m limit : Nat} (h : m < limit) : nat limit room (.nat m) = some m := by
  simp [nat, Json.nat, Numeral.toNat?_ofNat, h]

@[simp] lemma uint64_nat (u : UInt64) : uint64 room (.nat u.toNat) = some u := by
  rw [uint64, nat_nat room u.toNat_lt_size, Option.map_some, UInt64.ofNat_toNat]

@[simp] lemma uint32_nat (u : UInt32) : uint32 room (.nat u.toNat) = some u := by
  rw [uint32, nat_nat room u.toNat_lt_size, Option.map_some, UInt32.ofNat_toNat]

@[simp] lemma uint8_nat (u : UInt8) : uint8 room (.nat u.toNat) = some u := by
  rw [uint8, nat_nat room u.toNat_lt_size, Option.map_some, UInt8.ofNat_toNat]

@[simp] lemma nodeId_nat (id : NodeId) : nodeId room (.nat id.toNat) = some id := by
  change (uint64 room (.nat id.value.toNat)).map NodeId.mk = _
  rw [uint64_nat, Option.map_some]

@[simp] lemma int64_ofInt (i : Int64) : int64 room (.number (.ofInt i.toInt)) = some i := by
  have hrange : Int64.minValue.toInt ≤ i.toInt ∧ i.toInt ≤ Int64.maxValue.toInt :=
    ⟨i.minValue_le_toInt, i.toInt_le⟩
  simp only [int64, Numeral.toInt?_ofInt, Option.filter_some, hrange, and_self, decide_true,
    if_true, Option.map_some, Int64.ofInt_toInt]

@[simp] lemma bool_bool (b : Bool) : bool room (.bool b) = some b := rfl

@[simp] lemma string_text (s : String) : string room (.text s) = some s :=
  Json.decodeString_encodeString s

end Scalars

/-- What is read in every room is represented. -/
lemma Represents.of_reads {read : Reader α} {j : Json} {a : α} (hj : j.WellSpelled)
    (h : ∀ room, read room j = some a) : Represents n read j a :=
  ⟨hj, fun room _ _ => h room⟩

lemma represents_list {read : Reader α} {write : α → Json} {as : List α}
    (h : ∀ a ∈ as, Represents n read (write a) a) :
    Represents n (list read) (.array (as.map write)) as where
  spelled := by
    rw [Json.wellSpelled_array, List.forall_mem_map]
    exact fun a ha => (h a ha).spelled
  reads := by
    intro room hroom hdepth
    cases room with
    | zero => simp [Json.depth] at hdepth
    | succ room =>
      rw [Json.depth_array_le, List.forall_mem_map] at hdepth
      have hread := mapM_eq_some_map fun a ha => (h a ha).reads room (by omega) (hdepth a ha)
      rw [list, hread, List.map_id']

lemma represents_option {read : Reader α} {write : α → Json} {t : Option α}
    (hnull : ∀ a, write a ≠ .null) (h : ∀ a ∈ t, Represents n read (write a) a) :
    Represents n (option read) ((t.map write).getD .null) t := by
  cases t with
  | none => exact .of_reads Json.wellSpelled_null fun _ => rfl
  | some a =>
    have ha := h a rfl
    refine ⟨ha.spelled, fun room hroom hdepth => ?_⟩
    have hread : read room (write a) = some a := ha.reads room hroom hdepth
    change option read room (write a) = _
    rw [option.eq_def]
    split
    · next hj => exact absurd hj (hnull a)
    · rw [hread, Option.map_some]

lemma plainText?_map (cs : List Char) :
    Json.plainText? (cs.map Json.StringUnit.plain) = some cs := by
  induction cs with
  | nil => rfl
  | cons c cs ih =>
    rw [List.map_cons, Json.plainText?, ih]
    rfl

lemma idKey_digits (id : NodeId) : idKey ((Nat.toDigits 10 id.toNat).map .plain) = some id := by
  have hlt : id.toNat < UInt64.size := id.value.toNat_lt_size
  have hvalue : UInt64.ofNat id.toNat = id.value := UInt64.ofNat_toNat
  rw [idKey, plainText?_map]
  simp only [Option.bind_eq_bind, Option.bind_some, Numeral.canonicalDigits_toDigits,
    digitsValue_toDigits, hlt, and_self, if_true, hvalue]

lemma represents_idMap {read : Reader α} {write : α → Json} {t : IdMap α}
    (h : ∀ e ∈ t.entries, Represents n read (write e.2) e.2) :
    Represents n (idMap read) (.ofIdMap write t) t where
  spelled := by
    rw [Json.ofIdMap, Json.wellSpelled_object, List.forall_mem_map]
    intro e he
    refine ⟨?_, (h e he).spelled⟩
    rw [List.forall_mem_map]
    exact fun c hc => Json.wellSpelled_digit (isDigit_toDigits _ c hc)
  reads := by
    intro room hroom hdepth
    cases room with
    | zero => simp [Json.ofIdMap, Json.depth] at hdepth
    | succ room =>
      rw [Json.ofIdMap, Json.depth_object_le, List.forall_mem_map] at hdepth
      rw [Json.ofIdMap, idMap, mapM_eq_some_map (h := fun e => e)]
      · rw [List.map_id', Option.bind_eq_bind, Option.bind_some, IdMap.ofList_entries]
        rfl
      · intro e he
        have hvalue := (h e he).reads room (by omega) (hdepth e he)
        simp [idKey_digits, hvalue]

/-! ### Records and alternatives -/

lemma filter_name {fs : List (String × Json)} (hnames : (fs.map Prod.fst).Nodup)
    {f : String × Json} (hf : f ∈ fs) : fs.filter (fun m => m.1 = f.1) = [f] := by
  induction fs with
  | nil => cases hf
  | cons m fs ih =>
    obtain ⟨hm, hnames⟩ := List.nodup_cons.1 hnames
    rcases List.mem_cons.1 hf with rfl | hf
    · rw [List.filter_cons_of_pos (by simp), List.filter_eq_nil_iff.2]
      intro g hg
      have hne : g.1 ≠ f.1 := fun heq => hm (heq ▸ List.mem_map_of_mem hg)
      simpa using hne
    · have hne : m.1 ≠ f.1 := fun heq => hm (heq ▸ List.mem_map_of_mem hf)
      rw [List.filter_cons_of_neg (by simpa using hne), ih hnames hf]

lemma fields_record {fs : List (String × Json)} {names : List String}
    (hfs : fs.map Prod.fst = names) (hnames : names.Nodup) (room : Nat) :
    fields names (room + 1) (.record fs) = some (room, fs.map (fun f => some f.2)) := by
  subst hfs
  rw [Json.record, fields, mapM_eq_some_map (h := fun f => f), List.map_id', Option.bind_eq_bind,
    Option.bind_some, mapM_eq_some_map (h := fun f => some f.2)]
  · rfl
  · intro f hf
    rw [filter_name hnames hf]
  · intro f _
    simp [Json.decodeString_encodeString]

lemma represents_record {read : Reader α} {a : α} {fs : List (String × Json)}
    (hspelled : ∀ f ∈ fs, f.2.WellSpelled)
    (hread : ∀ room < n, (∀ f ∈ fs, f.2.depth ≤ room) → read (room + 1) (.record fs) = some a) :
    Represents n read (.record fs) a where
  spelled := Json.wellSpelled_record.2 hspelled
  reads := by
    intro room hroom hdepth
    cases room with
    | zero => simp [Json.record, Json.depth] at hdepth
    | succ room => exact hread room (by omega) (Json.depth_record_le.1 hdepth)

@[simp] lemma alternative_variant (name : String) (j : Json) (room : Nat) :
    alternative (room + 1) (.variant name j) = some (name, some (room, j)) := by
  change (Json.decodeString (Json.encodeString name)).map _ = _
  rw [Json.decodeString_encodeString, Option.map_some]

@[simp] lemma alternative_text (name : String) (room : Nat) :
    alternative room (.text name) = some (name, none) := by
  change (Json.decodeString (Json.encodeString name)).map _ = _
  rw [Json.decodeString_encodeString, Option.map_some]

lemma represents_variant {read : Reader α} {inner : Reader β} {f : β → α} {name : String} {j : Json}
    {b : β} (h : Represents n inner j b)
    (hread : ∀ room, read (room + 1) (.variant name j) = (inner room j).map f) :
    Represents n read (.variant name j) (f b) := by
  apply represents_record
  · simpa using h.spelled
  · intro room hroom hdepth
    have hinner := h.reads room hroom.le (hdepth _ List.mem_cons_self)
    exact (hread room).trans (by rw [hinner, Option.map_some])

end Reader

open Reader

variable {n : Nat}

def Constant.isDouble : Constant → Bool
  | .double _ => true
  | _ => false

lemma Constant.represents {c : Constant} (hc : c.isDouble = false) :
    Represents n Constant.read c.toJson c := by
  cases c with
  | null =>
    exact .of_reads (Json.wellSpelled_text _) fun _ => by
      simp [Constant.read, Constant.toJson, noContent]
  | bool b =>
    have hcontent := Represents.of_reads (n := n) (Json.wellSpelled_bool b) (bool_bool · b)
    exact represents_variant hcontent fun _ => by simp [Constant.read, content]
  | int i =>
    have hcontent := Represents.of_reads (n := n) (Json.wellSpelled_ofInt _) (int64_ofInt · i)
    exact represents_variant hcontent fun _ => by simp [Constant.read, content]
  | uint u =>
    have hcontent := Represents.of_reads (n := n) (Json.wellSpelled_nat _) (uint64_nat · u)
    exact represents_variant hcontent fun _ => by simp [Constant.read, content]
  | double d => cases hc
  | string s =>
    have hcontent := Represents.of_reads (n := n) (Json.wellSpelled_text s) (string_text · s)
    exact represents_variant hcontent fun _ => by simp [Constant.read, content]
  | bytes b =>
    have hcontent := represents_list (n := n) fun x (_ : x ∈ b) =>
      .of_reads (Json.wellSpelled_nat _) (uint8_nat · x)
    exact represents_variant hcontent fun _ => by simp [Constant.read, content]

lemma Ident.represents (i : Ident) : Represents n Ident.read i.toJson i := by
  apply represents_record
  · simp
  · intro room _ _
    simp [Ident.read, fields_record, required]

section Layers

variable {α : Type} {child : Reader α} {write : α → Json}

lemma Select.represents {s : Select α} (h : Represents n child (write s.operand) s.operand) :
    Represents n (Select.read child) (Select.toJson ⟨write s.operand, s.field, s.testOnly⟩) s := by
  apply represents_record
  · simp [h.spelled]
  · intro room hroom hdepth
    simp only [List.forall_mem_cons] at hdepth
    have hoperand := h.reads room hroom.le hdepth.1
    simp [Select.read, fields_record, required, hoperand]

lemma Call.represents {c : Call α} (hnull : ∀ a, write a ≠ .null)
    (htarget : ∀ a ∈ c.target, Represents n child (write a) a)
    (hargs : ∀ a ∈ c.args, Represents n child (write a) a) :
    Represents n (Call.read child)
      (Call.toJson ⟨c.target.map write, c.function, c.args.map write⟩) c := by
  have htarget := represents_option hnull htarget
  have hargs := represents_list hargs
  apply represents_record
  · simp [htarget.spelled, hargs.spelled]
  · intro room hroom hdepth
    simp only [List.forall_mem_cons] at hdepth
    have htarget := htarget.reads room hroom.le hdepth.1
    have hargs := hargs.reads room hroom.le hdepth.2.2.1
    simp [Call.read, fields_record, required, defaulting, htarget, hargs]

lemma ListLiteral.represents {l : ListLiteral α}
    (h : ∀ a ∈ l.elements, Represents n child (write a) a) :
    Represents n (ListLiteral.read child)
      (ListLiteral.toJson ⟨l.elements.map write, l.optionalIndices⟩) l := by
  have helements := represents_list h
  have hindices := represents_list (n := n) fun i (_ : i ∈ l.optionalIndices.toList) =>
    .of_reads (Json.wellSpelled_nat _) (uint64_nat · i)
  apply represents_record
  · simp [helements.spelled, hindices.spelled]
  · intro room hroom hdepth
    simp only [List.forall_mem_cons] at hdepth
    have helements := helements.reads room hroom.le hdepth.1
    have hindices := hindices.reads room hroom.le hdepth.2.1
    simp [ListLiteral.read, fields_record, required, helements, hindices, IndexSet.ofList_toList]

lemma StructEntry.represents {e : StructEntry α} (h : Represents n child (write e.value) e.value) :
    Represents n (StructEntry.read child)
      (StructEntry.toJson ⟨e.id, e.fieldKey, write e.value, e.optionalEntry⟩) e := by
  apply represents_record
  · simp [h.spelled]
  · intro room hroom hdepth
    simp only [List.forall_mem_cons] at hdepth
    have hvalue := h.reads room hroom.le hdepth.2.2.1
    simp [StructEntry.read, fields_record, required, hvalue]

lemma StructLiteral.represents {s : StructLiteral α}
    (h : ∀ e ∈ s.entries, Represents n child (write e.value) e.value) :
    Represents n (StructLiteral.read child)
      (StructLiteral.toJson ⟨s.messageName,
        s.entries.map (fun e => ⟨e.id, e.fieldKey, write e.value, e.optionalEntry⟩)⟩) s := by
  have hentries : Represents n (list (StructEntry.read child)) (.array ((s.entries.map (fun e =>
      ⟨e.id, e.fieldKey, write e.value, e.optionalEntry⟩)).map StructEntry.toJson)) s.entries := by
    rw [List.map_map]
    exact represents_list fun e he => StructEntry.represents (h e he)
  apply represents_record
  · simp [hentries.spelled, -List.map_map]
  · intro room hroom hdepth
    simp only [List.forall_mem_cons] at hdepth
    have hentries := hentries.reads room hroom.le hdepth.2.1
    simp [StructLiteral.read, fields_record, required, hentries, -List.map_map]

lemma MapEntry.represents {e : MapEntry α} (hkey : Represents n child (write e.key) e.key)
    (hvalue : Represents n child (write e.value) e.value) :
    Represents n (MapEntry.read child)
      (MapEntry.toJson ⟨e.id, write e.key, write e.value, e.optionalEntry⟩) e := by
  apply represents_record
  · simp [hkey.spelled, hvalue.spelled]
  · intro room hroom hdepth
    simp only [List.forall_mem_cons] at hdepth
    have hkey := hkey.reads room hroom.le hdepth.2.1
    have hvalue := hvalue.reads room hroom.le hdepth.2.2.1
    simp [MapEntry.read, fields_record, required, hkey, hvalue]

lemma MapLiteral.represents {m : MapLiteral α}
    (hkeys : ∀ e ∈ m.entries, Represents n child (write e.key) e.key)
    (hvalues : ∀ e ∈ m.entries, Represents n child (write e.value) e.value) :
    Represents n (MapLiteral.read child)
      (MapLiteral.toJson
        ⟨m.entries.map (fun e => ⟨e.id, write e.key, write e.value, e.optionalEntry⟩)⟩) m := by
  have hentries : Represents n (list (MapEntry.read child)) (.array ((m.entries.map (fun e =>
      ⟨e.id, write e.key, write e.value, e.optionalEntry⟩)).map MapEntry.toJson)) m.entries := by
    rw [List.map_map]
    exact represents_list fun e he => MapEntry.represents (hkeys e he) (hvalues e he)
  apply represents_record
  · simp [hentries.spelled, -List.map_map]
  · intro room hroom hdepth
    simp only [List.forall_mem_cons] at hdepth
    have hentries := hentries.reads room hroom.le hdepth.1
    simp [MapLiteral.read, fields_record, required, hentries, -List.map_map]

lemma Comprehension.represents {c : Comprehension α}
    (h : ∀ a ∈ (Kind.comprehension c).children, Represents n child (write a) a) :
    Represents n (Comprehension.read child)
      (Comprehension.toJson ⟨c.iterVar, write c.iterRange, c.accuVar, write c.accuInit,
        write c.loopCondition, write c.loopStep, write c.result⟩) c := by
  simp only [Kind.children, List.forall_mem_cons] at h
  obtain ⟨hrange, hinit, hcondition, hstep, hresult, -⟩ := h
  apply represents_record
  · simp [hrange.spelled, hinit.spelled, hcondition.spelled, hstep.spelled, hresult.spelled]
  · intro room hroom hdepth
    simp only [List.forall_mem_cons] at hdepth
    obtain ⟨-, drange, -, dinit, dcondition, dstep, dresult, -⟩ := hdepth
    simp [Comprehension.read, fields_record, required, hrange.reads room hroom.le drange,
      hinit.reads room hroom.le dinit, hcondition.reads room hroom.le dcondition,
      hstep.reads room hroom.le dstep, hresult.reads room hroom.le dresult]

/-- The node is not a floating-point constant. -/
def Kind.isDouble : Kind α → Bool
  | .constant c => c.isDouble
  | _ => false

lemma Kind.represents {k : Kind α} (hk : k.isDouble = false) (hnull : ∀ a, write a ≠ .null)
    (h : ∀ a ∈ k.children, Represents n child (write a) a) :
    Represents n (Kind.read child) (k.mapChildren write).toJson k := by
  cases k with
  | notSet =>
    exact .of_reads (Json.wellSpelled_text _) fun _ => by
      simp [Kind.read, Kind.toJson, Kind.mapChildren, noContent]
  | constant c =>
    exact represents_variant (Constant.represents hk) fun _ => by simp [Kind.read, content]
  | ident i =>
    exact represents_variant (Ident.represents i) fun _ => by simp [Kind.read, content]
  | select s =>
    have hselect := Select.represents (h s.operand List.mem_cons_self)
    exact represents_variant hselect fun _ => by simp [Kind.read, content]
  | call c =>
    have htarget : ∀ a ∈ c.target, Represents n child (write a) a := fun a ha =>
      h a (List.mem_append_left _ (Option.mem_toList.2 ha))
    have hargs : ∀ a ∈ c.args, Represents n child (write a) a := fun a ha =>
      h a (List.mem_append_right _ ha)
    have hcall := Call.represents hnull htarget hargs
    exact represents_variant hcall fun _ => by simp [Kind.read, content]
  | list l =>
    exact represents_variant (ListLiteral.represents h) fun _ => by simp [Kind.read, content]
  | struct s =>
    have hstruct := StructLiteral.represents fun e he => h e.value (List.mem_map_of_mem he)
    exact represents_variant hstruct fun _ => by simp [Kind.read, content]
  | map m =>
    have hentry : ∀ e ∈ m.entries, ∀ a ∈ [e.key, e.value], Represents n child (write a) a :=
      fun e he a ha => h a (List.mem_flatMap.2 ⟨e, he, ha⟩)
    exact represents_variant (MapLiteral.represents (fun e he => hentry e he _ (by simp))
      fun e he => hentry e he _ (by simp)) fun _ => by simp [Kind.read, content]
  | comprehension c =>
    exact represents_variant (Comprehension.represents h) fun _ => by simp [Kind.read, content]

end Layers

namespace Expr

/-- No node of the tree is a floating-point constant. -/
def WithoutDoubles (e : Expr) : Prop := ∀ x ∈ e.preorder, x.kind.isDouble = false

instance (e : Expr) : Decidable e.WithoutDoubles :=
  inferInstanceAs (Decidable (∀ x ∈ e.preorder, x.kind.isDouble = false))

lemma toJson_mk (id : NodeId) (k : Kind Expr) :
    toJson ⟨id, k⟩ =
      .record [("id", .nat id.toNat), ("kind", (k.mapChildren toJson).toJson)] := by
  conv_lhs => unfold toJson
  rw [fold_eq, snd_paired]
  rfl

lemma toJson_ne_null (e : Expr) : e.toJson ≠ .null := by
  obtain ⟨id, k⟩ := e
  rw [toJson_mk]
  exact nofun

/-- Every level of a tree is a container, so that a tree has no more levels than there is room. -/
lemma represents_levels {e : Expr} (he : e.WithoutDoubles) :
    Represents n (readLevels n) e.toJson e := by
  induction e using Expr.induct generalizing n with
  | node id k ih =>
    have hk : k.isDouble = false := he _ (self_mem_preorder _)
    have hchildren (c : Expr) (hc : c ∈ k.children) : c.WithoutDoubles := fun x hx =>
      he x (mem_preorder_trans hx (mem_preorder_of_mem_children hc))
    have hkind (m : Nat) :
        Represents m (Kind.read (readLevels m)) (k.mapChildren toJson).toJson k :=
      Kind.represents hk toJson_ne_null fun c hc => ih c hc (hchildren c hc)
    rw [toJson_mk]
    apply represents_record
    · simp [(hkind n).spelled]
    · intro room hroom hdepth
      simp only [List.forall_mem_cons] at hdepth
      cases n with
      | zero => omega
      | succ levels =>
        have hread := (hkind levels).reads room (by omega) hdepth.2.1
        simp [readLevels, fields_record, required, hread]

lemma represents {e : Expr} (he : e.WithoutDoubles) : Represents n Expr.read e.toJson e where
  spelled := (represents_levels (n := n) he).spelled
  reads room _ hdepth := (represents_levels he).reads room le_rfl hdepth

end Expr

/-! ### Metadata -/

lemma Component.represents (c : Component) : Represents n Component.read c.toJson c := by
  apply Represents.of_reads
  · cases c <;> exact Json.wellSpelled_text _
  · intro room
    cases c <;> simp [Component.read, Component.toJson, noContent]

lemma Version.represents (v : Version) : Represents n Version.read v.toJson v := by
  apply represents_record
  · simp
  · intro room _ _
    simp [Version.read, fields_record, required]

lemma Extension.represents (e : Extension) : Represents n Extension.read e.toJson e := by
  have hversion := Version.represents (n := n) e.version
  have hcomponents := represents_list (n := n) fun c (_ : c ∈ e.affectedComponents) =>
    c.represents
  apply represents_record
  · simp [hversion.spelled, hcomponents.spelled]
  · intro room hroom hdepth
    simp only [List.forall_mem_cons] at hdepth
    have hversion := hversion.reads room hroom.le hdepth.2.1
    have hcomponents := hcomponents.reads room hroom.le hdepth.2.2.1
    simp [Extension.read, fields_record, required, defaulting, hversion, hcomponents]

/-- No recorded macro call holds a floating-point constant. -/
def SourceInfo.WithoutDoubles (s : SourceInfo) : Prop :=
  ∀ e ∈ s.macroCalls.entries, e.2.WithoutDoubles

instance (s : SourceInfo) : Decidable s.WithoutDoubles :=
  inferInstanceAs (Decidable (∀ e ∈ s.macroCalls.entries, e.2.WithoutDoubles))

lemma SourceInfo.represents {s : SourceInfo} (hs : s.WithoutDoubles) :
    Represents n SourceInfo.read s.toJson s := by
  have hoffsets := represents_list (n := n) fun o (_ : o ∈ s.lineOffsets) =>
    .of_reads (Json.wellSpelled_nat _) (uint32_nat · o)
  have hpositions : Represents n (idMap uint32) (.ofIdMap (fun p => .nat p.toNat) s.positions)
      s.positions :=
    represents_idMap fun e _ => .of_reads (Json.wellSpelled_nat _) (uint32_nat · e.2)
  have hcalls := represents_idMap (n := n) fun e he => Expr.represents (hs e he)
  have hextensions := represents_list (n := n) fun e (_ : e ∈ s.extensions) => e.represents
  apply represents_record
  · simp [hoffsets.spelled, hpositions.spelled, hcalls.spelled, hextensions.spelled]
  · intro room hroom hdepth
    simp only [List.forall_mem_cons] at hdepth
    obtain ⟨-, doffsets, dpositions, dcalls, dextensions, -⟩ := hdepth
    simp [SourceInfo.read, fields_record, required, hoffsets.reads room hroom.le doffsets,
      hpositions.reads room hroom.le dpositions, hcalls.reads room hroom.le dcalls,
      hextensions.reads room hroom.le dextensions]

namespace Ast

/-- Neither the tree nor a recorded macro call holds a floating-point constant. -/
def WithoutDoubles (a : Ast) : Prop := a.expr.WithoutDoubles ∧ a.source.WithoutDoubles

instance (a : Ast) : Decidable a.WithoutDoubles :=
  inferInstanceAs (Decidable (a.expr.WithoutDoubles ∧ a.source.WithoutDoubles))

lemma represents {a : Ast} (ha : a.WithoutDoubles) : Represents n Ast.read a.toJson a := by
  have hexpr := Expr.represents (n := n) ha.1
  have hsource := SourceInfo.represents (n := n) ha.2
  apply represents_record
  · simp [hexpr.spelled, hsource.spelled]
  · intro room hroom hdepth
    simp only [List.forall_mem_cons] at hdepth
    have hexpr := hexpr.reads room hroom.le hdepth.1
    have hsource := hsource.reads room hroom.le hdepth.2.1
    simp [Ast.read, fields_record, required, defaulting, hexpr, hsource]

/-- A document is read as the tree and the metadata that it was written for, in either layout and
as an edited workspace is printed. -/
theorem documents_roundTrip {a : Ast} (ha : a.WithoutDoubles)
    (hdepth : a.toJson.depth ≤ documentRoom) :
    Ast.parse? (String.ofList a.toJson.compact) = some a ∧
      Ast.parse? (String.ofList a.toJson.pretty) = some a ∧
      ∀ w : Workspace, w.freeze = a → Ast.parse? (CommandLine.printWorkspace w) = some a := by
  have hrep := represents (n := documentRoom) ha
  have hread : Ast.read documentRoom a.toJson = some a := hrep.reads documentRoom le_rfl hdepth
  have hpretty : Ast.parse? (String.ofList a.toJson.pretty) = some a := by
    rw [Ast.parse?, String.toList_ofList, Json.parse?_pretty hrep.spelled, Option.bind_some, hread]
  refine ⟨?_, hpretty, ?_⟩
  · rw [Ast.parse?, String.toList_ofList, Json.parse?_compact hrep.spelled, Option.bind_some, hread]
  · rintro w rfl
    exact hpretty

/-- Numbers at their limits, characters that are escaped, and every kind of node. -/
theorem documents_roundTrip_limits :
    let constants : List Expr := [⟨⟨0⟩, .constant .null⟩, ⟨⟨0⟩, .constant (.bool true)⟩,
      ⟨⟨2⟩, .constant (.int Int64.minValue)⟩, ⟨⟨2⟩, .constant (.uint 0xFFFFFFFFFFFFFFFF)⟩,
      ⟨⟨3⟩, .constant (.string "\"\\\n\x01\x7f/é→😀")⟩, ⟨⟨4⟩, .constant (.bytes [0, 127, 255])⟩]
    let items : Expr := ⟨⟨0xFFFFFFFFFFFFFFFF⟩,
      .list ⟨constants, .ofList [0xFFFFFFFFFFFFFFFF, 0]⟩⟩
    let call : Expr := ⟨⟨5⟩, .call ⟨some items, "in", [⟨⟨6⟩, .notSet⟩]⟩⟩
    let message : Expr := ⟨⟨9⟩, .struct ⟨"M", [⟨⟨10⟩, "f", call, true⟩]⟩⟩
    let entries : Expr := ⟨⟨7⟩, .map ⟨[⟨⟨8⟩, call, message, false⟩]⟩⟩
    let tree : Expr := ⟨⟨11⟩, .comprehension ⟨"i", entries, "a", ⟨⟨12⟩, .select ⟨items, "f", true⟩⟩,
      ⟨⟨13⟩, .ident ⟨"a"⟩⟩, ⟨⟨14⟩, .call ⟨none, "f", []⟩⟩, ⟨⟨15⟩, .notSet⟩⟩⟩
    let a : Ast := ⟨tree, ⟨"<input>", [0, 0xFFFFFFFF], .ofList [(⟨7⟩, 3), (⟨0⟩, 0xFFFFFFFF)],
      .ofList [(⟨11⟩, call), (⟨2⟩, items)],
      [⟨"x", ⟨1, 0xFFFFFFFFFFFFFFFF⟩, [.runtime, .parser]⟩]⟩, true⟩
    a.WithoutDoubles ∧ a.toJson.depth = 25 ∧
      Ast.parse? (String.ofList a.toJson.compact) = some a ∧
      Ast.parse? (String.ofList a.toJson.pretty) = some a := by
  intro constants items call message entries tree a
  have hdoubles : a.WithoutDoubles := by decide +kernel
  have hdepth : a.toJson.depth = 25 := by decide +kernel
  have hread := documents_roundTrip hdoubles (hdepth.trans_le (by decide))
  exact ⟨hdoubles, hdepth, hread.1, hread.2.1⟩

end Ast

end CelEdit
