import CelEdit.Expr.Dump
import CelEdit.Proofs.Numerals

/-!
# Lines and blocks of a dump

A dump is read in two steps. Its text is divided into lines, which is possible where no line holds a
line feed and none starts with a blank of its own: the blanks in front of a line are its indentation.
The lines are divided into blocks, whose content is indented deeper than the line that closes them.
-/

namespace CelEdit

/-! ### Sequences -/

section Sequences

variable {α β : Type} {f : α → List β}

/-- Whatever follows them, `f a` and `f b` can be told from each other. -/
def Separates (f : α → List β) (a b : α) : Prop := ∀ r s, f a ++ r = f b ++ s → a = b ∧ r = s

lemma Separates.eq {a b : α} (h : Separates f a b) (heq : f a = f b) : a = b :=
  (h [] [] (by rw [heq])).1

/-- Items that can be told from what follows them can be told in a sequence. -/
theorem eq_of_flatMap_eq {as bs : List α} (h : ∀ a ∈ as, ∀ b ∈ bs, Separates f a b)
    (hne : ∀ a, f a ≠ []) (heq : as.flatMap f = bs.flatMap f) : as = bs := by
  induction as generalizing bs with
  | nil =>
    cases bs with
    | nil => rfl
    | cons b bs => exact absurd (List.append_eq_nil_iff.1 heq.symm).1 (hne b)
  | cons a as ih =>
    cases bs with
    | nil => exact absurd (List.append_eq_nil_iff.1 heq).1 (hne a)
    | cons b bs =>
      obtain ⟨rfl, hrest⟩ := h a List.mem_cons_self b List.mem_cons_self _ _ heq
      have htail : ∀ x ∈ as, ∀ y ∈ bs, Separates f x y := fun x hx y hy =>
        h x (List.mem_cons_of_mem _ hx) y (List.mem_cons_of_mem _ hy)
      rw [ih htail hrest]

end Sequences

/-! ### From text to lines -/

namespace DumpLine

/-- A line that can be told from the text around it. -/
structure Clean (l : DumpLine) : Prop where
  oneLine : '\n' ∉ l.text
  flush : ∃ c, l.text.head? = some c ∧ c ≠ ' '

lemma clean_nest {l : DumpLine} : l.nest.Clean ↔ l.Clean :=
  ⟨fun h => ⟨h.1, h.2⟩, fun h => ⟨h.1, h.2⟩⟩

/-- Something that a line can start with. -/
def isLabel (a : String) : Bool := a.toList.head?.any (· ≠ ' ') && '\n' ∉ a.toList

lemma clean_of {a : String} (h : isLabel a = true) : (of a).Clean := by
  rw [isLabel, Bool.and_eq_true, decide_eq_true_eq, Option.any_eq_true] at h
  obtain ⟨⟨c, hc, hne⟩, hfeed⟩ := h
  exact ⟨hfeed, c, hc, of_decide_eq_true hne⟩

lemma Clean.append {a b : String} (ha : (of a).Clean) (hb : '\n' ∉ b.toList) :
    (of (a ++ b)).Clean := by
  obtain ⟨hfeed, c, hc, hne⟩ := ha
  have htext : (of (a ++ b)).text = a.toList ++ b.toList := String.toList_append
  refine ⟨?_, c, ?_, hne⟩
  · rw [htext, List.mem_append]
    exact fun h => h.elim hfeed hb
  · change a.toList.head? = some c at hc
    rw [htext, List.head?_append, hc, Option.some_or]

/-- The indentation ends with the first character of the text. -/
lemma eq_of_indented_eq {l l' : DumpLine} (hl : l.Clean) (hl' : l'.Clean)
    (h : List.replicate (2 * l.indent) ' ' ++ l.text = List.replicate (2 * l'.indent) ' ' ++ l'.text) :
    l = l' := by
  have hblank : ∀ n, ∀ c ∈ List.replicate n ' ', decide (c = ' ') = true :=
    fun n c hc => decide_eq_true (List.eq_of_mem_replicate hc)
  have hflush {l : DumpLine} (hl : l.Clean) : ∀ c ∈ l.text.head?, decide (c = ' ') = false := by
    obtain ⟨-, d, hd, hne⟩ := hl
    intro c hc
    obtain rfl := Option.some.inj (hd.symm.trans hc)
    exact decide_eq_false hne
  obtain ⟨hindent, htext⟩ := span_append_inj (hblank _) (hblank _) (hflush hl) (hflush hl') h
  have hlength : 2 * l.indent = 2 * l'.indent := by
    simpa only [List.length_replicate] using congrArg List.length hindent
  have hdepth : l.indent = l'.indent := by omega
  cases l
  cases l'
  rw [mk.injEq]
  exact ⟨hdepth, htext⟩

/-- The text of a line ends with the first line feed. -/
lemma separates_spell {l l' : DumpLine} (hl : l.Clean) (hl' : l'.Clean) : Separates spell l l' := by
  have hline {l : DumpLine} (hl : l.Clean) :
      ∀ c ∈ List.replicate (2 * l.indent) ' ' ++ l.text, decide (c ≠ '\n') = true := by
    intro c hc
    rw [decide_eq_true_eq]
    rintro rfl
    rcases List.mem_append.1 hc with hc | hc
    · exact absurd (List.eq_of_mem_replicate hc) (by decide)
    · exact hl.oneLine hc
  have hfeed (rest : List Char) : ∀ c ∈ ('\n' :: rest).head?, decide (c ≠ '\n') = false := by
    intro c hc
    obtain rfl := Option.some.inj hc
    decide
  intro r s h
  rw [spell, spell, List.append_assoc, List.append_assoc _ _ s, List.singleton_append,
    List.singleton_append] at h
  obtain ⟨hindented, hrest⟩ := span_append_inj (hline hl) (hline hl') (hfeed r) (hfeed s) h
  exact ⟨eq_of_indented_eq hl hl' hindented, (List.cons.inj hrest).2⟩

lemma spell_ne_nil (l : DumpLine) : l.spell ≠ [] :=
  List.append_ne_nil_of_right_ne_nil _ (List.cons_ne_nil _ _)

/-- The lines can be told from their text. -/
theorem flatMap_spell_inj {ls ls' : List DumpLine} (hls : ∀ l ∈ ls, l.Clean)
    (hls' : ∀ l ∈ ls', l.Clean) (h : ls.flatMap spell = ls'.flatMap spell) : ls = ls' :=
  eq_of_flatMap_eq (fun l hl l' hl' => separates_spell (hls l hl) (hls' l' hl')) spell_ne_nil h

end DumpLine

/-- Only the line feed goes when a text ends with it and has no other blank before it. -/
lemma Text.trimEnd_concat {text : List Char} (h : ∃ c ∈ text.getLast?, isBlank c = false) :
    trimEnd (text ++ ['\n']) = text := by
  obtain ⟨c, hc, hblank⟩ := h
  obtain ⟨init, rfl⟩ := List.getLast?_eq_some_iff.1 hc
  have hfeed : isBlank '\n' = true := by decide
  simp [trimEnd, hblank, hfeed]

/-! ### From lines to blocks -/

namespace Dump

variable {xs ys r s : List DumpLine}

lemma of_inj {a b : String} : DumpLine.of a = DumpLine.of b ↔ a = b := by
  simp [DumpLine.of, String.toList_inj]

/-- A block ends with the first line that is not indented. -/
lemma nested_append_inj {a b : String}
    (h : nested xs ++ .of a :: r = nested ys ++ .of b :: s) : xs = ys ∧ a = b ∧ r = s := by
  induction xs generalizing ys with
  | nil =>
    cases ys with
    | nil =>
      obtain ⟨hline, hrest⟩ := List.cons.inj h
      exact ⟨rfl, of_inj.1 hline, hrest⟩
    | cons y ys => exact absurd (congrArg DumpLine.indent (List.cons.inj h).1) (Nat.succ_ne_zero _).symm
  | cons x xs ih =>
    cases ys with
    | nil => exact absurd (congrArg DumpLine.indent (List.cons.inj h).1) (Nat.succ_ne_zero _)
    | cons y ys =>
      obtain ⟨hline, hrest⟩ := List.cons.inj h
      obtain ⟨rfl, hclosing⟩ := ih hrest
      obtain rfl : x = y := by
        cases x
        cases y
        simpa [DumpLine.nest] using hline
      exact ⟨rfl, hclosing⟩

lemma braced_append (a : String) (xs r : List DumpLine) :
    braced a xs ++ r = .of (a ++ " \x7b") :: (nested xs ++ .of "\x7d" :: r) := by
  rw [braced, List.cons_append, List.cons_append, List.append_assoc, List.singleton_append]

lemma braced_append_inj {a b : String} (h : braced a xs ++ r = braced b ys ++ s) :
    a = b ∧ xs = ys ∧ r = s := by
  rw [braced_append, braced_append] at h
  obtain ⟨hheader, hrest⟩ := List.cons.inj h
  obtain ⟨hcontent, -, hrest⟩ := nested_append_inj hrest
  exact ⟨(String.append_left_inj _).1 (of_inj.1 hheader), hcontent, hrest⟩

lemma labelled_append_inj {label : String} (h : labelled label xs ++ r = labelled label ys ++ s) :
    xs = ys ∧ r = s :=
  (braced_append_inj h).2

lemma labelled_inj {label : String} (h : labelled label xs = labelled label ys) : xs = ys :=
  (labelled_append_inj (r := []) (s := []) (by rw [h])).1

lemma field_inj {label a b : String} (h : field label a = field label b) : a = b :=
  (String.append_right_inj _).1 (of_inj.1 h)

lemma field_cons_inj {label a b : String} (h : field label a :: r = field label b :: s) :
    a = b ∧ r = s :=
  ⟨field_inj (List.cons.inj h).1, (List.cons.inj h).2⟩

end Dump

end CelEdit
