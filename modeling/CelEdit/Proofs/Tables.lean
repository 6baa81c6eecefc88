import CelEdit.Edit.MacroCalls
import CelEdit.Proofs.Trees

/-!
# Laws of the tables

A table is known by its lookups: what is entered, dropped or changed shows under its own key only.
Tables and sets are built again from their listings.
-/

namespace CelEdit

namespace IdMap

variable {α : Type}

lemma keys_nodup (t : IdMap α) : (t.entries.map Prod.fst).Nodup := by
  rw [List.nodup_iff_pairwise_ne, List.pairwise_map]
  apply t.sorted.imp
  intro a b hlt heq
  rw [heq] at hlt
  exact Nat.lt_irrefl _ hlt

lemma find?_eq_some_of_mem {es : List (NodeId × α)} (hkeys : (es.map Prod.fst).Nodup)
    {i : NodeId} {v : α} (h : (i, v) ∈ es) : es.find? (fun e => e.1 = i) = some (i, v) := by
  induction es with
  | nil => cases h
  | cons e es ih =>
    obtain ⟨he, hes⟩ := List.nodup_cons.1 hkeys
    rcases List.mem_cons.1 h with rfl | h
    · simp
    · have hne : e.1 ≠ i := by
        intro heq
        rw [heq] at he
        exact he (List.mem_map_of_mem h)
      rw [List.find?_cons_of_neg (by simpa using hne), ih hes h]

lemma get?_eq_some_iff {t : IdMap α} {i : NodeId} {v : α} :
    t.get? i = some v ↔ (i, v) ∈ t.entries := by
  rw [get?, Option.map_eq_some_iff]
  constructor
  · rintro ⟨e, he, rfl⟩
    have hkey := List.find?_some he
    rw [decide_eq_true_iff] at hkey
    rw [← hkey]
    exact List.mem_of_find?_eq_some he
  · intro h
    exact ⟨(i, v), find?_eq_some_of_mem t.keys_nodup h, rfl⟩

lemma get?_eq_none {t : IdMap α} {i : NodeId} (h : ∀ e ∈ t.entries, e.1 ≠ i) : t.get? i = none := by
  rw [Option.eq_none_iff_forall_ne_some]
  intro v hv
  exact h (i, v) (get?_eq_some_iff.1 hv) rfl

lemma entry_eq_of_key {t : IdMap α} {e e' : NodeId × α} (he : e ∈ t.entries) (he' : e' ∈ t.entries)
    (hkey : e.1 = e'.1) : e = e' := by
  obtain ⟨i, v⟩ := e
  obtain ⟨i', v'⟩ := e'
  obtain rfl : i = i' := hkey
  rw [← get?_eq_some_iff] at he he'
  rw [he, Option.some.injEq] at he'
  rw [he']

lemma get?_isSome_iff {t : IdMap α} {i : NodeId} : (t.get? i).isSome ↔ i ∈ t.keys := by
  rw [Option.isSome_iff_exists, keys, List.mem_map]
  constructor
  · rintro ⟨v, hv⟩
    exact ⟨(i, v), get?_eq_some_iff.1 hv, rfl⟩
  · rintro ⟨⟨j, v⟩, hv, rfl⟩
    exact ⟨v, get?_eq_some_iff.2 hv⟩

lemma find?_insertEntry (i j : NodeId) (v : α) (es : List (NodeId × α)) :
    (insertEntry i v es).find? (fun e => e.1 = j) =
      if j = i then some (i, v) else es.find? (fun e => e.1 = j) := by
  induction es with
  | nil =>
    by_cases hji : j = i
    · simp [insertEntry, hji]
    · simp [insertEntry, hji, Ne.symm hji]
  | cons e es ih =>
    rw [insertEntry]
    by_cases hlt : i < e.1
    · rw [if_pos hlt, List.find?_cons]
      by_cases hji : j = i
      · simp [hji]
      · simp [hji, Ne.symm hji]
    · rw [if_neg hlt]
      by_cases heq : i = e.1
      · rw [if_pos heq, List.find?_cons]
        by_cases hji : j = i
        · simp [hji]
        · have hej : e.1 ≠ j := fun h => hji (h.symm.trans heq.symm)
          simp [hji, Ne.symm hji, hej]
      · rw [if_neg heq, List.find?_cons, ih]
        by_cases hej : e.1 = j
        · have hji : j ≠ i := fun h => heq (h.symm.trans hej.symm)
          simp [hej, hji]
        · simp [hej]

@[simp] lemma get?_empty (i : NodeId) : (empty : IdMap α).get? i = none := rfl

lemma get?_insert (t : IdMap α) (i j : NodeId) (v : α) :
    (t.insert i v).get? j = if j = i then some v else t.get? j := by
  rw [get?, insert, find?_insertEntry]
  by_cases hji : j = i
  · rw [if_pos hji, if_pos hji, Option.map_some]
  · rw [if_neg hji, if_neg hji, get?]

lemma get?_erase (t : IdMap α) (i j : NodeId) :
    (t.erase i).get? j = if j = i then none else t.get? j := by
  rw [get?, erase, List.find?_filter]
  by_cases hji : j = i
  · rw [if_pos hji, Option.map_eq_none_iff, List.find?_eq_none]
    intro e _
    simp only [ne_eq, decide_not, Bool.not_eq_eq_eq_not, Bool.not_true,
      decide_eq_false_iff_not, decide_eq_true_eq, not_and]
    intro hne heq
    exact hne (heq.trans hji)
  · rw [if_neg hji, get?]
    congr 2
    funext e
    by_cases hej : e.1 = j
    · simp [hej, hji]
    · simp [hej]

lemma get?_modify (t : IdMap α) (i j : NodeId) (f : α → α) :
    (t.modify i f).get? j = (t.get? j).map (fun v => if j = i then f v else v) := by
  have htest : ((fun e : NodeId × α => decide (e.1 = j)) ∘
      fun e : NodeId × α => (e.1, if e.1 = i then f e.2 else e.2)) = fun e => decide (e.1 = j) := rfl
  rw [get?, modify, List.find?_map, htest, get?, Option.map_map, Option.map_map]
  cases hfind : t.entries.find? (fun e => e.1 = j) with
  | none => rfl
  | some e =>
    have hkey := List.find?_some hfind
    rw [decide_eq_true_iff] at hkey
    rw [Option.map_some, Option.map_some, Function.comp_apply, Function.comp_apply, hkey]

lemma get?_insertAll (t : IdMap α) (pairs : List (NodeId × α)) (i : NodeId) :
    (t.insertAll pairs).get? i =
      ((pairs.reverse.find? (fun e => e.1 = i)).map Prod.snd).or (t.get? i) := by
  induction pairs generalizing t with
  | nil => rfl
  | cons e pairs ih =>
    have hstep : t.insertAll (e :: pairs) = (t.insert e.1 e.2).insertAll pairs := rfl
    rw [hstep, ih, get?_insert, List.reverse_cons, List.find?_append]
    cases pairs.reverse.find? (fun e => e.1 = i) with
    | some e' => simp
    | none =>
      by_cases hei : i = e.1
      · simp [hei]
      · simp [hei, Ne.symm hei]

lemma get?_union (t u : IdMap α) (i : NodeId) : (t.union u).get? i = (u.get? i).or (t.get? i) := by
  rw [union, get?_insertAll]
  congr 1
  cases hu : u.get? i with
  | some v =>
    have hmem := List.mem_reverse.2 (get?_eq_some_iff.1 hu)
    have hkeys : (u.entries.reverse.map Prod.fst).Nodup := by
      rw [List.map_reverse, List.nodup_reverse]
      exact u.keys_nodup
    rw [find?_eq_some_of_mem hkeys hmem, Option.map_some]
  | none =>
    rw [Option.map_eq_none_iff, List.find?_eq_none]
    intro e he
    rw [decide_eq_true_iff]
    rintro rfl
    have hsome := get?_eq_some_iff.2 (List.mem_reverse.1 he)
    rw [hu] at hsome
    cases hsome

lemma mem_of_mem_union {t u : IdMap α} {e : NodeId × α} (h : e ∈ (t.union u).entries) :
    e ∈ u.entries ∨ e ∈ t.entries := by
  rw [← get?_eq_some_iff, get?_union, Option.or_eq_some_iff] at h
  rw [← get?_eq_some_iff, ← get?_eq_some_iff]
  exact h.imp_right And.right

lemma get?_ofList (pairs : List (NodeId × α)) (i : NodeId) :
    (ofList pairs).get? i = (pairs.reverse.find? (fun e => e.1 = i)).map Prod.snd := by
  rw [ofList, get?_insertAll, get?_empty, Option.or_none]

lemma get?_ofList_of_nodup {pairs : List (NodeId × α)}
    (hkeys : (pairs.map Prod.fst).Nodup) {i : NodeId} {v : α} :
    (ofList pairs).get? i = some v ↔ (i, v) ∈ pairs := by
  rw [get?_ofList, Option.map_eq_some_iff]
  constructor
  · rintro ⟨e, he, rfl⟩
    have hkey := List.find?_some he
    rw [decide_eq_true_eq] at hkey
    rw [← hkey]
    exact List.mem_reverse.1 (List.mem_of_find?_eq_some he)
  · intro hmem
    refine ⟨(i, v), find?_eq_some_of_mem ?_ (List.mem_reverse.2 hmem), rfl⟩
    rw [List.map_reverse]
    exact List.nodup_reverse.2 hkeys

lemma eq_of_entries {t u : IdMap α} (h : t.entries = u.entries) : t = u := by
  cases t
  cases u
  cases h
  rfl

lemma insertEntry_of_forall_lt {id : NodeId} {value : α} {es : List (NodeId × α)}
    (h : ∀ e ∈ es, e.1 < id) : insertEntry id value es = es ++ [(id, value)] := by
  induction es with
  | nil => rfl
  | cons e es ih =>
    obtain ⟨he, hes⟩ := List.forall_mem_cons.1 h
    have hlt : ¬id < e.1 := by
      rw [NodeId.lt_def] at he ⊢
      omega
    have hne : id ≠ e.1 := by
      rintro rfl
      exact hlt he
    rw [insertEntry, if_neg hlt, if_neg hne, ih hes, List.cons_append]

lemma entries_insertAll {pairs : List (NodeId × α)} {t : IdMap α}
    (h : (t.entries ++ pairs).Pairwise (fun a b => a.1 < b.1)) :
    (t.insertAll pairs).entries = t.entries ++ pairs := by
  induction pairs generalizing t with
  | nil => exact (List.append_nil _).symm
  | cons e pairs ih =>
    have hlast : (t.insert e.1 e.2).entries = t.entries ++ [e] :=
      insertEntry_of_forall_lt fun d hd => (List.pairwise_append.1 h).2.2 d hd e List.mem_cons_self
    have hrest : t.entries ++ e :: pairs = (t.insert e.1 e.2).entries ++ pairs := by
      rw [hlast, List.append_assoc, List.singleton_append]
    rw [hrest] at h ⊢
    exact ih h

lemma ofList_entries (t : IdMap α) : ofList t.entries = t :=
  eq_of_entries (entries_insertAll t.sorted)

end IdMap

namespace IndexSet

lemma insertIndex_of_forall_lt {i : UInt64} {js : List UInt64} (h : ∀ j ∈ js, j < i) :
    insertIndex i js = js ++ [i] := by
  induction js with
  | nil => rfl
  | cons j js ih =>
    obtain ⟨hj, hjs⟩ := List.forall_mem_cons.1 h
    have hlt : ¬i < j := UInt64.lt_asymm hj
    have hne : i ≠ j := by
      rintro rfl
      exact hlt hj
    rw [insertIndex, if_neg hlt, if_neg hne, ih hjs, List.cons_append]

lemma toList_insertAll {is : List UInt64} {s : IndexSet}
    (h : (s.toList ++ is).Pairwise (· < ·)) : (is.foldl insert s).toList = s.toList ++ is := by
  induction is generalizing s with
  | nil => exact (List.append_nil _).symm
  | cons i is ih =>
    have hlast : (s.insert i).toList = s.toList ++ [i] :=
      insertIndex_of_forall_lt fun j hj => (List.pairwise_append.1 h).2.2 j hj i List.mem_cons_self
    have hrest : s.toList ++ i :: is = (s.insert i).toList ++ is := by
      rw [hlast, List.append_assoc, List.singleton_append]
    rw [hrest] at h ⊢
    exact ih h

lemma ofList_toList (s : IndexSet) : ofList s.toList = s := by
  have hlist : (ofList s.toList).toList = s.toList := toList_insertAll s.sorted
  cases s
  cases hset : ofList _
  rw [hset] at hlist
  cases hlist
  rfl

end IndexSet

namespace Expr

lemma mem_of_nodesById {root n : Expr} {i : NodeId} (h : root.nodesById.get? i = some n) :
    n ∈ root.preorder ∧ n.id = i := by
  rw [nodesById, IdMap.get?_ofList, Option.map_eq_some_iff] at h
  obtain ⟨e, he, rfl⟩ := h
  have hkey := List.find?_some he
  rw [decide_eq_true_iff] at hkey
  obtain ⟨n, hn, rfl⟩ := List.mem_map.1 (List.mem_reverse.1 (List.mem_of_find?_eq_some he))
  exact ⟨hn, hkey⟩

lemma exists_nodesById {root n : Expr} (h : n ∈ root.preorder) :
    ∃ n', root.nodesById.get? n.id = some n' := by
  rw [← Option.isSome_iff_exists, nodesById, IdMap.get?_ofList, Option.isSome_map,
    List.find?_isSome]
  exact ⟨(n.id, n), List.mem_reverse.2 (List.mem_map_of_mem h), by simp⟩

lemma nodesById_eq_none_iff {root : Expr} {i : NodeId} :
    root.nodesById.get? i = none ↔ ∀ n ∈ root.preorder, n.id ≠ i := by
  constructor
  · rintro h n hn rfl
    obtain ⟨n', hn'⟩ := exists_nodesById hn
    rw [h] at hn'
    cases hn'
  · intro h
    rw [Option.eq_none_iff_forall_ne_some]
    intro n hn
    exact h n (mem_of_nodesById hn).1 (mem_of_nodesById hn).2

/-- With distinct ids the table of nodes gives back every node whose id is set. -/
theorem DistinctIds.nodesById {root n : Expr} (h : root.DistinctIds) (hn : n ∈ root.preorder)
    (hset : n.id.isSet) : root.nodesById.get? n.id = some n := by
  obtain ⟨n', hn'⟩ := exists_nodesById hn
  obtain ⟨hmem, hid⟩ := mem_of_nodesById hn'
  rw [hn', h.node_eq hn hmem hset hid.symm]

end Expr

end CelEdit
