import CelEdit.Proofs.DumpedNodes

/-!
# Dumps determine trees

Where names do not break lines, every line of a dump is clean, and the last one ends with something
that is not trimmed. So the lines can be told from the dump, and the tree from the lines.
-/

namespace CelEdit

namespace Kind

variable {α : Type}

/-- The names that a node shows. -/
def names : Kind α → List String
  | .ident i => [i.name]
  | .select s => [s.field]
  | .call c => [c.function]
  | .struct s => s.messageName :: s.entries.map StructEntry.fieldKey
  | .comprehension c => [c.iterVar, c.accuVar]
  | _ => []

section MapChildren

variable {β : Type} (f : α → β) (k : Kind α)

lemma names_mapChildren : (k.mapChildren f).names = k.names := by
  cases k <;> simp [mapChildren, names]

lemma selected_mapChildren : (k.mapChildren f).selected = k.selected := by
  cases k <;> rfl

lemma isDouble_mapChildren : (k.mapChildren f).isDouble = k.isDouble := by
  cases k <;> rfl

end MapChildren

end Kind

namespace Dump

/-! ### The lines of a node are clean -/

section Clean

open DumpLine

lemma feed_not_mem_number (n : Nat) : '\n' ∉ (number n).toList := by
  rw [toList_number]
  exact Constant.feed_not_mem_digits n

lemma feed_not_mem_append {a b : String} (ha : '\n' ∉ a.toList) (hb : '\n' ∉ b.toList) :
    '\n' ∉ (a ++ b).toList := by
  rw [String.toList_append, List.mem_append]
  exact fun h => h.elim ha hb

lemma clean_header (tag : KindTag) (id : NodeId) : (of (header tag id)).Clean := by
  have hdisplay : (of tag.display).Clean := by
    cases tag <;> exact clean_of rfl
  exact ((hdisplay.append (by decide)).append (feed_not_mem_number _)).append (by decide)

lemma clean_braced {a : String} {xs : List DumpLine} (ha : (of a).Clean) (hxs : ∀ l ∈ xs, l.Clean) :
    ∀ l ∈ braced a xs, l.Clean := by
  have hclosing : (of "\x7d").Clean := clean_of rfl
  rw [braced, List.forall_mem_append, List.forall_mem_cons, List.forall_mem_singleton]
  refine ⟨⟨ha.append (by decide), fun l hl => ?_⟩, hclosing⟩
  obtain ⟨x, hx, rfl⟩ := List.mem_map.1 hl
  exact clean_nest.2 (hxs x hx)

lemma clean_labelled {a : String} {xs : List DumpLine} (ha : isLabel a = true)
    (hxs : ∀ l ∈ xs, l.Clean) : ∀ l ∈ labelled a xs, l.Clean :=
  clean_braced ((clean_of ha).append (by decide)) hxs

lemma clean_field {a b : String} (ha : isLabel a = true) (hb : '\n' ∉ b.toList) :
    (field a b).Clean :=
  ((clean_of ha).append (by decide)).append hb

lemma clean_optionalMark (optional : Bool) : ∀ l ∈ optionalMark optional, l.Clean := by
  cases optional with
  | false => exact List.forall_mem_nil _
  | true => exact List.forall_mem_singleton.2 (clean_field rfl (by decide))

lemma clean_indexLines (indices : IndexSet) : ∀ l ∈ indexLines indices, l.Clean := by
  have hnumbers (is : List UInt64) :
      '\n' ∉ (", ".intercalate (is.map (fun i => number i.toNat))).toList := by
    induction is with
    | nil => decide
    | cons i is ih =>
      cases is with
      | nil => exact feed_not_mem_number _
      | cons j is =>
        rw [List.map_cons, List.map_cons, String.intercalate_cons_cons]
        exact feed_not_mem_append (feed_not_mem_append (feed_not_mem_number _) (by decide)) ih
  unfold indexLines
  split
  · exact List.forall_mem_nil _
  · rw [List.forall_mem_singleton]
    exact clean_field rfl
      (feed_not_mem_append (feed_not_mem_append (by decide) (hnumbers _)) (by decide))

lemma clean_structEntry {e : StructEntry (List DumpLine)} (hkey : '\n' ∉ e.fieldKey.toList)
    (hvalue : ∀ l ∈ e.value, l.Clean) : ∀ l ∈ structEntryLines e, l.Clean := by
  refine clean_braced (((clean_of rfl).append (feed_not_mem_number _)).append (by decide)) ?_
  rw [List.cons_append, List.forall_mem_cons, List.forall_mem_append]
  exact ⟨clean_field rfl hkey, clean_optionalMark _,
    clean_labelled rfl hvalue⟩

lemma clean_mapEntry {e : MapEntry (List DumpLine)} (hkey : ∀ l ∈ e.key, l.Clean)
    (hvalue : ∀ l ∈ e.value, l.Clean) : ∀ l ∈ mapEntryLines e, l.Clean := by
  refine clean_braced (((clean_of rfl).append (feed_not_mem_number _)).append (by decide)) ?_
  rw [List.forall_mem_append, List.forall_mem_append]
  exact ⟨⟨clean_labelled rfl hkey, clean_optionalMark _⟩,
    clean_labelled rfl hvalue⟩

lemma clean_flatten {xss : List (List DumpLine)} (h : ∀ xs ∈ xss, ∀ l ∈ xs, l.Clean) :
    ∀ l ∈ xss.flatten, l.Clean := by
  intro l hl
  obtain ⟨xs, hxs, hl⟩ := List.mem_flatten.1 hl
  exact h xs hxs l hl

/-- Names and literals on one line leave every line of a node clean. -/
theorem clean_node {k : Kind (List DumpLine)} (h : ∀ xs ∈ k.children, ∀ l ∈ xs, l.Clean)
    (hnames : ∀ a ∈ k.names, '\n' ∉ a.toList) (hdouble : k.isDouble = false) (id : NodeId) :
    ∀ l ∈ node id k, l.Clean := by
  have hheader := clean_header k.tag id
  cases k with
  | notSet =>
    refine List.forall_mem_singleton.2 ?_
    exact hheader.append (by decide)
  | constant c =>
    have hsource : '\n' ∉ (String.ofList c.source).toList := by
      rw [String.toList_ofList]
      exact Constant.feed_not_mem_source hdouble
    rw [node_constant, List.forall_mem_singleton]
    exact hheader.append (feed_not_mem_append (feed_not_mem_append (by decide) hsource) (by decide))
  | ident i =>
    refine clean_braced hheader (List.forall_mem_singleton.2 ?_)
    exact clean_field rfl (hnames _ List.mem_cons_self)
  | select x =>
    have hmark : '\n' ∉ (if x.testOnly then presenceMark else "").toList := by
      split <;> decide
    rw [node_select, List.forall_mem_cons, List.forall_mem_append, List.forall_mem_singleton]
    refine ⟨hheader.append (by decide), fun l hl => ?_, ?_⟩
    · obtain ⟨y, hy, rfl⟩ := List.mem_map.1 hl
      exact clean_nest.2 (h _ List.mem_cons_self y hy)
    · exact ((clean_of rfl).append (hnames _ List.mem_cons_self)).append hmark
  | call c =>
    obtain ⟨target, function, args⟩ := c
    have htarget : ∀ l ∈ targetLines target, l.Clean := by
      cases target with
      | none => exact List.forall_mem_nil _
      | some t => exact clean_labelled rfl (h t List.mem_cons_self)
    have hargs : ∀ l ∈ argumentLines args, l.Clean := by
      unfold argumentLines
      split
      · exact List.forall_mem_nil _
      · exact clean_labelled rfl
          (clean_flatten fun xs hxs => h xs (List.mem_append_right _ hxs))
    rw [node_call]
    refine clean_braced hheader ?_
    rw [List.forall_mem_append, List.forall_mem_cons]
    exact ⟨htarget, clean_field rfl (hnames _ List.mem_cons_self), hargs⟩
  | list l =>
    rw [node_list]
    refine clean_braced hheader (List.forall_mem_append.2 ⟨?_, clean_indexLines _⟩)
    exact clean_labelled rfl (clean_flatten h)
  | struct x =>
    obtain ⟨hname, hkeys⟩ := List.forall_mem_cons.1 hnames
    rw [node_struct]
    refine clean_braced hheader (List.forall_mem_cons.2 ⟨clean_field rfl hname, ?_⟩)
    refine clean_labelled rfl fun l hl => ?_
    obtain ⟨e, he, hl⟩ := List.mem_flatMap.1 hl
    exact clean_structEntry (hkeys _ (List.mem_map_of_mem he)) (h _ (List.mem_map_of_mem he)) l hl
  | map m =>
    rw [node_map]
    refine clean_braced hheader fun l hl => ?_
    obtain ⟨e, he, hl⟩ := List.mem_flatMap.1 hl
    have hpart {xs : List DumpLine} (hxs : xs ∈ [e.key, e.value]) : ∀ l ∈ xs, l.Clean :=
      h xs (List.mem_flatMap.2 ⟨e, he, hxs⟩)
    exact clean_mapEntry (hpart (by simp)) (hpart (by simp)) l hl
  | comprehension c =>
    simp only [Kind.children, List.forall_mem_cons] at h
    obtain ⟨hrange, hinit, hcondition, hstep, hresult, -⟩ := h
    simp only [Kind.names, List.forall_mem_cons] at hnames
    obtain ⟨hiter, haccu, -⟩ := hnames
    rw [node_comprehension]
    refine clean_braced hheader ?_
    simp only [List.forall_mem_cons, List.forall_mem_append]
    exact ⟨clean_field rfl hiter, clean_labelled rfl hrange,
      clean_field rfl haccu, clean_labelled rfl hinit,
      clean_labelled rfl hcondition, clean_labelled rfl hstep,
      clean_labelled rfl hresult⟩

end Clean

/-! ### The end of a dump -/

/-- The text is not empty, and trimming does not change it. -/
def EndsVisibly (a : String) : Prop := ∃ c ∈ a.toList.getLast?, Text.isBlank c = false

lemma EndsVisibly.append {b : String} (h : EndsVisibly b) (a : String) : EndsVisibly (a ++ b) := by
  obtain ⟨c, hc, hblank⟩ := h
  refine ⟨c, ?_, hblank⟩
  rw [String.toList_append, List.getLast?_append, Option.mem_def.1 hc, Option.some_or]
  rfl

lemma endsVisibly_selection {a : String} (h : a.toList.getLast?.any Text.isBlank = false)
    (testOnly : Bool) : EndsVisibly ("\x7d." ++ a ++ if testOnly then presenceMark else "") := by
  cases testOnly with
  | true =>
    have hmark : EndsVisibly presenceMark := ⟨'t', by decide, by decide⟩
    exact hmark.append _
  | false =>
    rw [if_neg Bool.false_ne_true, String.append_empty]
    cases hlast : a.toList.getLast? with
    | none =>
      rw [List.getLast?_eq_none_iff, String.toList_eq_nil_iff] at hlast
      subst hlast
      exact ⟨'.', by decide, by decide⟩
    | some c =>
      rw [hlast] at h
      have ha : EndsVisibly a := ⟨c, hlast, h⟩
      exact ha.append _

/-- The last line of a node ends with a brace, or with the field that is selected or its mark. -/
lemma node_eq_concat {k : Kind (List DumpLine)}
    (hfield : ∀ a ∈ k.selected, a.toList.getLast?.any Text.isBlank = false) (id : NodeId) :
    ∃ ls a, node id k = ls ++ [.of a] ∧ EndsVisibly a := by
  have hbrace : EndsVisibly "\x7d" := ⟨'\x7d', by decide, by decide⟩
  cases k with
  | notSet =>
    have hbraces : EndsVisibly " \x7b\x7d" := ⟨'\x7d', by decide, by decide⟩
    exact ⟨[], _, rfl, hbraces.append _⟩
  | constant c =>
    have hclosing : EndsVisibly " \x7d" := ⟨'\x7d', by decide, by decide⟩
    exact ⟨[], _, node_constant id c, (hclosing.append _).append _⟩
  | select x =>
    exact ⟨_, _, (node_select id x).trans (List.cons_append ..).symm,
      endsVisibly_selection (hfield _ List.mem_cons_self) _⟩
  | call c => exact ⟨_, _, node_call id c, hbrace⟩
  | _ => exact ⟨_, _, rfl, hbrace⟩

end Dump

namespace Expr

open Dump

/-- A tree whose dump shows everything: it has no doubles, every name is on one line, and no field
that is selected ends with white space or like a presence test. -/
structure Dumpable (e : Expr) : Prop where
  withoutDoubles : e.WithoutDoubles
  names : ∀ n ∈ e.preorder, ∀ a ∈ n.kind.names, '\n' ∉ a.toList
  fields : ∀ n ∈ e.preorder, ∀ a ∈ n.kind.selected,
    a.toList.getLast?.any Text.isBlank = false ∧ ¬ presenceMark.toList <:+ a.toList

instance (e : Expr) : Decidable e.Dumpable :=
  decidable_of_iff
    (e.WithoutDoubles ∧ (∀ n ∈ e.preorder, ∀ a ∈ n.kind.names, '\n' ∉ a.toList) ∧
      ∀ n ∈ e.preorder, ∀ a ∈ n.kind.selected,
        a.toList.getLast?.any Text.isBlank = false ∧ ¬ presenceMark.toList <:+ a.toList)
    ⟨fun h => ⟨h.1, h.2.1, h.2.2⟩, fun h => ⟨h.withoutDoubles, h.names, h.fields⟩⟩

variable {e e' : Expr} {id : NodeId} {k : Kind Expr}

lemma Dumpable.child {c : Expr} (h : Dumpable ⟨id, k⟩) (hc : c ∈ k.children) : c.Dumpable := by
  have hmem {n : Expr} (hn : n ∈ c.preorder) : n ∈ preorder ⟨id, k⟩ :=
    mem_preorder_mk.2 (.inr ⟨c, hc, hn⟩)
  exact ⟨fun n hn => h.withoutDoubles n (hmem hn), fun n hn => h.names n (hmem hn),
    fun n hn => h.fields n (hmem hn)⟩

lemma dumpLines_mk (id : NodeId) (k : Kind Expr) :
    dumpLines ⟨id, k⟩ = node id (k.mapChildren dumpLines) := by
  conv_lhs => unfold dumpLines
  rw [fold_eq, snd_paired]
  rfl

lemma dumpLines_ne_nil (e : Expr) : e.dumpLines ≠ [] := by
  obtain ⟨id, k⟩ := e
  obtain ⟨a, ls, hls⟩ := node_eq_cons id (k.mapChildren dumpLines)
  rw [dumpLines_mk, hls]
  exact List.cons_ne_nil _ _

/-- A tree can be told from its lines, whatever follows them. -/
theorem separates_dumpLines (he : e.Dumpable) (he' : e'.Dumpable) : Separates dumpLines e e' := by
  induction e using induct generalizing e' with
  | node id k ih =>
    obtain ⟨id', k'⟩ := e'
    intro r s heq
    rw [dumpLines_mk, dumpLines_mk] at heq
    have hself (id : NodeId) (k : Kind Expr) : ⟨id, k⟩ ∈ preorder ⟨id, k⟩ := self_mem_preorder _
    obtain ⟨rfl, rfl, hrest⟩ := node_append_inj
      (fun c hc c' hc' => ih c hc (he.child hc) (he'.child hc')) dumpLines_ne_nil
      (he.withoutDoubles _ (hself id k)) (he'.withoutDoubles _ (hself id' k'))
      (fun a ha => (he.fields _ (hself id k) a ha).2)
      (fun a ha => (he'.fields _ (hself id' k') a ha).2) heq
    exact ⟨rfl, hrest⟩

lemma clean_dumpLines (he : e.Dumpable) : ∀ l ∈ e.dumpLines, l.Clean := by
  induction e using induct with
  | node id k ih =>
    rw [dumpLines_mk]
    apply clean_node
    · intro xs hxs
      rw [Kind.children_mapChildren] at hxs
      obtain ⟨c, hc, rfl⟩ := List.mem_map.1 hxs
      exact ih c hc (he.child hc)
    · rw [Kind.names_mapChildren]
      exact he.names _ (self_mem_preorder _)
    · rw [Kind.isDouble_mapChildren]
      exact he.withoutDoubles _ (self_mem_preorder _)

/-- Trimming a dump takes away the line feed at its end and nothing else. -/
lemma trimEnd_dumpLines (he : e.Dumpable) :
    Text.trimEnd (e.dumpLines.flatMap DumpLine.spell) ++ ['\n'] =
      e.dumpLines.flatMap DumpLine.spell := by
  obtain ⟨id, k⟩ := e
  have hfields : ∀ a ∈ (k.mapChildren dumpLines).selected,
      a.toList.getLast?.any Text.isBlank = false := by
    rw [Kind.selected_mapChildren]
    exact fun a ha => (he.fields _ (self_mem_preorder _) a ha).1
  obtain ⟨ls, a, hls, c, hc, hblank⟩ := node_eq_concat hfields id
  have htext : (dumpLines ⟨id, k⟩).flatMap DumpLine.spell =
      ls.flatMap DumpLine.spell ++ a.toList ++ ['\n'] := by
    rw [dumpLines_mk, hls, List.flatMap_append, List.flatMap_singleton, List.append_assoc]
    rfl
  have hlast : c ∈ (ls.flatMap DumpLine.spell ++ a.toList).getLast? := by
    rw [List.getLast?_append, Option.mem_def.1 hc, Option.some_or]
    rfl
  rw [htext, Text.trimEnd_concat ⟨c, hlast, hblank⟩]

/-- Trees that dump shows completely are the same if their dumps are. -/
theorem dump_determines_tree (he : e.Dumpable) (he' : e'.Dumpable) : e.dump = e'.dump ↔ e = e' := by
  refine ⟨fun h => ?_, congrArg dump⟩
  have htrimmed := String.ofList_injective h
  have htext : e.dumpLines.flatMap DumpLine.spell = e'.dumpLines.flatMap DumpLine.spell := by
    rw [← trimEnd_dumpLines he, htrimmed, trimEnd_dumpLines he']
  have hlines := DumpLine.flatMap_spell_inj (clean_dumpLines he) (clean_dumpLines he') htext
  exact (separates_dumpLines he he').eq hlines

/-- A field key that reads like the mark of an optional entry, and a text with a line feed. -/
theorem dump_determines_tree_optional :
    let tree (optional testOnly : Bool) : Expr :=
      let operand : Expr := ⟨⟨4⟩, .list ⟨[⟨⟨5⟩, .constant (.string "\n\x7d")⟩], .ofList [0, 11]⟩⟩
      ⟨⟨1⟩, .struct ⟨"M", [⟨⟨2⟩, "optional_entry: true", ⟨⟨3⟩, .select ⟨operand, "f", testOnly⟩⟩,
        optional⟩]⟩⟩
    (∀ optional testOnly, (tree optional testOnly).Dumpable) ∧
      (tree true false).dump ≠ (tree false false).dump ∧
      (tree true false).dump ≠ (tree true true).dump := by
  intro tree
  have hdumpable : ∀ optional testOnly, (tree optional testOnly).Dumpable := by decide +kernel
  have hoptional := dump_determines_tree (hdumpable true false) (hdumpable false false)
  have htest := dump_determines_tree (hdumpable true false) (hdumpable true true)
  refine ⟨hdumpable, mt hoptional.1 ?_, mt htest.1 ?_⟩
  · decide +kernel
  · decide +kernel

end Expr

end CelEdit
