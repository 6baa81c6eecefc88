import CelEdit.Source.Extension
import Mathlib.Data.List.Nodup
import Mathlib.Tactic.Lemma

/-!
# Merging extensions

What has been seen decides what is kept of a list, and only its tags count. The extensions that are
kept stand in the order in which their tags first appear, each as it stands there. Keeping first
occurrences of what has been kept already changes nothing, so lists can be merged in any grouping.
-/

namespace CelEdit.Extension

variable {seen seen' : List (String × Version)} {e : Extension} {es : List Extension}

lemma firstOccurrences_of_mem (h : e.tag ∈ seen) (es : List Extension) :
    firstOccurrences seen (e :: es) = firstOccurrences seen es := by
  rw [firstOccurrences, if_pos h]

lemma firstOccurrences_of_not_mem (h : e.tag ∉ seen) (es : List Extension) :
    firstOccurrences seen (e :: es) = e :: firstOccurrences (e.tag :: seen) es := by
  rw [firstOccurrences, if_neg h]

/-! ### The tags that are kept -/

lemma nodup_firstOccurrences (seen : List (String × Version)) (es : List Extension) :
    ((firstOccurrences seen es).map tag).Nodup ∧
      ∀ tag' ∈ (firstOccurrences seen es).map tag, tag' ∉ seen := by
  induction es generalizing seen with
  | nil => exact ⟨List.nodup_nil, fun tag' h => by cases h⟩
  | cons e es ih =>
    by_cases hseen : e.tag ∈ seen
    · rw [firstOccurrences_of_mem hseen]
      exact ih seen
    · rw [firstOccurrences_of_not_mem hseen, List.map_cons]
      obtain ⟨hnodup, hnew⟩ := ih (e.tag :: seen)
      constructor
      · rw [List.nodup_cons]
        exact ⟨fun hmem => hnew _ hmem List.mem_cons_self, hnodup⟩
      · intro tag' htag
        rcases List.mem_cons.1 htag with rfl | htag
        · exact hseen
        · exact fun hmem => hnew tag' htag (List.mem_cons_of_mem _ hmem)

lemma nodup_merge (first second : List Extension) : ((merge first second).map tag).Nodup :=
  (nodup_firstOccurrences [] _).1

lemma tag_not_mem_of_mem (h : e ∈ firstOccurrences seen es) : e.tag ∉ seen :=
  (nodup_firstOccurrences seen es).2 e.tag (List.mem_map_of_mem h)

lemma mem_tag_firstOccurrences (seen : List (String × Version)) (es : List Extension)
    (tag' : String × Version) :
    tag' ∈ (firstOccurrences seen es).map tag ↔ tag' ∉ seen ∧ tag' ∈ es.map tag := by
  induction es generalizing seen with
  | nil => simp [firstOccurrences]
  | cons e es ih =>
    by_cases hseen : e.tag ∈ seen
    · rw [firstOccurrences_of_mem hseen, ih, List.map_cons, List.mem_cons]
      grind
    · rw [firstOccurrences_of_not_mem hseen, List.map_cons, List.mem_cons, ih, List.map_cons,
        List.mem_cons, List.mem_cons]
      grind

lemma mem_tag_merge (es es' : List Extension) (tag' : String × Version) :
    tag' ∈ (merge es es').map tag ↔ tag' ∈ es.map tag ∨ tag' ∈ es'.map tag := by
  rw [merge, mem_tag_firstOccurrences, List.map_append, List.mem_append]
  exact and_iff_right List.not_mem_nil

/-! ### Order and content -/

/-- The place at which a tag first appears. -/
def firstPlace (es : List Extension) (e : Extension) : Nat := (es.map tag).idxOf e.tag

lemma firstPlace_cons_of_ne {x : Extension} (h : e.tag ≠ x.tag) (es : List Extension) :
    firstPlace (e :: es) x = firstPlace es x + 1 :=
  List.idxOf_cons_ne _ h

/-- What is kept stands in the order of first appearances. -/
theorem pairwise_firstOccurrences (seen : List (String × Version)) (es : List Extension) :
    (firstOccurrences seen es).Pairwise (fun x y => firstPlace es x < firstPlace es y) := by
  induction es generalizing seen with
  | nil => exact .nil
  | cons e es ih =>
    -- everything that is kept of the rest has another tag than the head
    have hrest : ∀ seen, e.tag ∈ seen → (firstOccurrences seen es).Pairwise
        (fun x y => firstPlace (e :: es) x < firstPlace (e :: es) y) := by
      intro seen hseen
      refine (ih seen).imp_of_mem fun {x y} hx hy hlt => ?_
      have hne {z : Extension} (hz : z ∈ firstOccurrences seen es) : e.tag ≠ z.tag :=
        fun heq => tag_not_mem_of_mem hz (heq ▸ hseen)
      rw [firstPlace_cons_of_ne (hne hx), firstPlace_cons_of_ne (hne hy)]
      exact Nat.succ_lt_succ hlt
    by_cases hseen : e.tag ∈ seen
    · rw [firstOccurrences_of_mem hseen]
      exact hrest seen hseen
    · rw [firstOccurrences_of_not_mem hseen, List.pairwise_cons]
      refine ⟨fun x hx => ?_, hrest _ List.mem_cons_self⟩
      have hne : e.tag ≠ x.tag := fun heq => tag_not_mem_of_mem hx (heq ▸ List.mem_cons_self)
      have hhead : firstPlace (e :: es) e = 0 := List.idxOf_cons_self
      rw [hhead, firstPlace_cons_of_ne hne]
      exact Nat.succ_pos _

/-- What is kept is the first extension with its tag. -/
theorem find?_of_mem_firstOccurrences {x : Extension} (h : x ∈ firstOccurrences seen es) :
    es.find? (fun y => y.tag = x.tag) = some x := by
  induction es generalizing seen with
  | nil => cases h
  | cons e es ih =>
    have hrest {seen : List (String × Version)} (hseen : e.tag ∈ seen)
        (hx : x ∈ firstOccurrences seen es) : (e :: es).find? (fun y => y.tag = x.tag) = some x := by
      have hne : e.tag ≠ x.tag := fun heq => tag_not_mem_of_mem hx (heq ▸ hseen)
      rw [List.find?_cons_of_neg (by simpa using hne)]
      exact ih hx
    by_cases hseen : e.tag ∈ seen
    · rw [firstOccurrences_of_mem hseen] at h
      exact hrest hseen h
    · rw [firstOccurrences_of_not_mem hseen, List.mem_cons] at h
      rcases h with rfl | h
      · exact List.find?_cons_of_pos (by simp)
      · exact hrest List.mem_cons_self h

/-! ### Merging in any grouping -/

/-- Only the set of the tags that were seen counts. -/
lemma firstOccurrences_congr (h : ∀ t, t ∈ seen ↔ t ∈ seen') (es : List Extension) :
    firstOccurrences seen es = firstOccurrences seen' es := by
  induction es generalizing seen seen' with
  | nil => rfl
  | cons e es ih =>
    by_cases hseen : e.tag ∈ seen
    · rw [firstOccurrences_of_mem hseen, firstOccurrences_of_mem ((h _).1 hseen), ih h]
    · have hcons : ∀ t, t ∈ e.tag :: seen ↔ t ∈ e.tag :: seen' := by
        intro t
        rw [List.mem_cons, List.mem_cons, h]
      rw [firstOccurrences_of_not_mem hseen, firstOccurrences_of_not_mem (mt (h _).2 hseen), ih hcons]

/-- The second of two lists is filtered by what was seen in the first. -/
lemma firstOccurrences_append (seen : List (String × Version)) (es es' : List Extension) :
    firstOccurrences seen (es ++ es') =
      firstOccurrences seen es ++ firstOccurrences (es.map tag ++ seen) es' := by
  induction es generalizing seen with
  | nil => rfl
  | cons e es ih =>
    rw [List.cons_append]
    by_cases hseen : e.tag ∈ seen
    · have hsame : ∀ t, t ∈ es.map tag ++ seen ↔ t ∈ (e :: es).map tag ++ seen := by grind
      rw [firstOccurrences_of_mem hseen, firstOccurrences_of_mem hseen, ih,
        firstOccurrences_congr hsame]
    · have hsame : ∀ t, t ∈ es.map tag ++ e.tag :: seen ↔ t ∈ (e :: es).map tag ++ seen := by grind
      rw [firstOccurrences_of_not_mem hseen, firstOccurrences_of_not_mem hseen, ih,
        firstOccurrences_congr hsame, List.cons_append]

/-- First occurrences among first occurrences, where no less has been seen. -/
lemma firstOccurrences_firstOccurrences (h : ∀ t ∈ seen', t ∈ seen) (es : List Extension) :
    firstOccurrences seen (firstOccurrences seen' es) = firstOccurrences seen es := by
  induction es generalizing seen seen' with
  | nil => rfl
  | cons e es ih =>
    by_cases hseen' : e.tag ∈ seen'
    · rw [firstOccurrences_of_mem hseen', firstOccurrences_of_mem (h _ hseen'), ih h]
    · rw [firstOccurrences_of_not_mem hseen']
      by_cases hseen : e.tag ∈ seen
      · rw [firstOccurrences_of_mem hseen, firstOccurrences_of_mem hseen]
        exact ih (List.forall_mem_cons.2 ⟨hseen, h⟩)
      · have hcons : ∀ t ∈ e.tag :: seen', t ∈ e.tag :: seen :=
          fun t ht => (List.mem_cons.1 ht).elim (· ▸ List.mem_cons_self)
            fun ht => List.mem_cons_of_mem _ (h t ht)
        rw [firstOccurrences_of_not_mem hseen, firstOccurrences_of_not_mem hseen, ih hcons]

lemma firstOccurrences_eq_nil (h : ∀ t ∈ es.map tag, t ∈ seen) : firstOccurrences seen es = [] := by
  induction es with
  | nil => rfl
  | cons e es ih =>
    rw [List.map_cons, List.forall_mem_cons] at h
    rw [firstOccurrences_of_mem h.1, ih h.2]

lemma merge_merge_left (a b c : List Extension) :
    merge (merge a b) c = firstOccurrences [] (a ++ b ++ c) := by
  have htags : ∀ t, t ∈ (merge a b).map tag ++ [] ↔ t ∈ (a ++ b).map tag ++ [] := by
    intro t
    rw [List.append_nil, List.append_nil, mem_tag_merge, List.map_append, List.mem_append]
  have hkept : firstOccurrences [] (merge a b) = firstOccurrences [] (a ++ b) :=
    firstOccurrences_firstOccurrences (fun _ h => h) (a ++ b)
  calc merge (merge a b) c
    _ = firstOccurrences [] (merge a b) ++ firstOccurrences ((merge a b).map tag ++ []) c :=
      firstOccurrences_append ..
    _ = firstOccurrences [] (a ++ b) ++ firstOccurrences ((a ++ b).map tag ++ []) c := by
      rw [hkept, firstOccurrences_congr htags]
    _ = firstOccurrences [] (a ++ b ++ c) := (firstOccurrences_append ..).symm

lemma merge_merge_right (a b c : List Extension) :
    merge a (merge b c) = firstOccurrences [] (a ++ b ++ c) := by
  calc merge a (merge b c)
    _ = firstOccurrences [] a ++ firstOccurrences (a.map tag ++ []) (merge b c) :=
      firstOccurrences_append ..
    _ = firstOccurrences [] a ++ firstOccurrences (a.map tag ++ []) (b ++ c) := by
      rw [merge, firstOccurrences_firstOccurrences (List.forall_mem_nil _)]
    _ = firstOccurrences [] (a ++ (b ++ c)) := (firstOccurrences_append ..).symm
    _ = firstOccurrences [] (a ++ b ++ c) := by rw [List.append_assoc]

lemma merge_self (es : List Extension) : merge es es = merge es [] := by
  have hnone : firstOccurrences (es.map tag ++ []) es = [] :=
    firstOccurrences_eq_nil fun t ht => by rwa [List.append_nil]
  rw [merge, firstOccurrences_append, hnone, merge, List.append_nil, List.append_nil]

/-- Merging is a stable union. It keeps every tag of the two lists once, in the order in which the
tags first appear, and with the components that stand there. It is associative and idempotent, and
commutative but for order and components. -/
theorem merge_is_stable_union (a b c : List Extension) :
    (∀ t, t ∈ (merge a b).map tag ↔ t ∈ a.map tag ∨ t ∈ b.map tag) ∧
    ((merge a b).map tag).Nodup ∧
    (merge a b).Pairwise (fun x y => firstPlace (a ++ b) x < firstPlace (a ++ b) y) ∧
    (∀ e ∈ merge a b, (a ++ b).find? (fun x => x.tag = e.tag) = some e) ∧
    merge (merge a b) c = merge a (merge b c) ∧ merge a a = merge a [] ∧
    ((merge a b).map tag).Perm ((merge b a).map tag) := by
  refine ⟨mem_tag_merge a b, nodup_merge a b, pairwise_firstOccurrences [] (a ++ b),
    fun e he => find?_of_mem_firstOccurrences he, ?_, merge_self a, ?_⟩
  · rw [merge_merge_left, merge_merge_right]
  · rw [List.perm_ext_iff_of_nodup (nodup_merge a b) (nodup_merge b a)]
    intro t
    rw [mem_tag_merge, mem_tag_merge, or_comm]

/-- The first list has `math@0.1` twice, with different components, and the second one has it again
after a newer version. -/
theorem merge_is_stable_union_repeated :
    let parsed : Extension := ⟨"math", ⟨0, 1⟩, [.parser]⟩
    let run : Extension := ⟨"math", ⟨0, 1⟩, [.runtime]⟩
    let newer : Extension := ⟨"math", ⟨0, 2⟩, []⟩
    merge [parsed, run] [newer, run] = [parsed, newer] ∧
      parsed ∈ merge [parsed, run] [newer, run] ∧
      [parsed, run, newer, run].find? (fun x => x.tag = parsed.tag) = some parsed := by
  intro parsed run newer
  have hmerged : merge [parsed, run] [newer, run] = [parsed, newer] := by decide +kernel
  have hmem : parsed ∈ merge [parsed, run] [newer, run] := by
    rw [hmerged]
    exact List.mem_cons_self
  exact ⟨hmerged, hmem, (merge_is_stable_union [parsed, run] [newer, run] []).2.2.2.1 parsed hmem⟩

end CelEdit.Extension
