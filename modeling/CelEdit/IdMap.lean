import CelEdit.NodeId

/-!
# Tables keyed by node ids

A table lists its entries with strictly increasing keys, so that equal tables have equal listings.
-/

namespace CelEdit

/-- A table from node ids to values, in ascending order of the ids. -/
structure IdMap (α : Type) where
  entries : List (NodeId × α)
  sorted : entries.Pairwise (fun a b => a.1 < b.1)
deriving DecidableEq

namespace IdMap

variable {α : Type}

def empty : IdMap α := ⟨[], .nil⟩

instance : Inhabited (IdMap α) := ⟨empty⟩

/-- Puts an entry at its place, in place of one with the same key. -/
def insertEntry (id : NodeId) (value : α) : List (NodeId × α) → List (NodeId × α)
  | [] => [(id, value)]
  | e :: es =>
    if id < e.1 then (id, value) :: e :: es
    else if id = e.1 then (id, value) :: es
    else e :: insertEntry id value es

theorem mem_insertEntry {id : NodeId} {value : α} {es : List (NodeId × α)} {x : NodeId × α}
    (h : x ∈ insertEntry id value es) : x = (id, value) ∨ x ∈ es := by
  induction es with
  | nil => simpa [insertEntry] using h
  | cons e es ih =>
    unfold insertEntry at h
    split at h
    · simpa using h
    · split at h
      · simp only [List.mem_cons] at h ⊢
        rcases h with h | h
        · exact .inl h
        · exact .inr (.inr h)
      · simp only [List.mem_cons] at h ⊢
        rcases h with h | h
        · exact .inr (.inl h)
        · rcases ih h with h | h
          · exact .inl h
          · exact .inr (.inr h)

theorem sorted_insertEntry (id : NodeId) (value : α) {es : List (NodeId × α)}
    (h : es.Pairwise (fun a b => a.1 < b.1)) :
    (insertEntry id value es).Pairwise (fun a b => a.1 < b.1) := by
  induction es with
  | nil => simp [insertEntry]
  | cons e es ih =>
    obtain ⟨he, hes⟩ := List.pairwise_cons.1 h
    unfold insertEntry
    split
    · next hlt =>
      refine List.pairwise_cons.2 ⟨fun x hx => ?_, h⟩
      rcases List.mem_cons.1 hx with rfl | hx
      · exact hlt
      · exact NodeId.lt_trans hlt (he x hx)
    · next hlt =>
      split
      · next heq => exact List.pairwise_cons.2 ⟨fun x hx => heq ▸ he x hx, hes⟩
      · next hne =>
        refine List.pairwise_cons.2 ⟨fun x hx => ?_, ih hes⟩
        rcases mem_insertEntry hx with rfl | hx
        · exact NodeId.lt_of_not_lt_of_ne hlt hne
        · exact he x hx

/-- Enters a value; an entry with the same key gives way. -/
def insert (t : IdMap α) (id : NodeId) (value : α) : IdMap α :=
  ⟨insertEntry id value t.entries, sorted_insertEntry id value t.sorted⟩

def get? (t : IdMap α) (id : NodeId) : Option α :=
  (t.entries.find? (fun e => e.1 = id)).map Prod.snd

def keys (t : IdMap α) : List NodeId := t.entries.map Prod.fst

def size (t : IdMap α) : Nat := t.entries.length

/-- Enters the pairs in order, so that the last pair of a key stays. -/
def insertAll (t : IdMap α) (pairs : List (NodeId × α)) : IdMap α :=
  pairs.foldl (fun t e => t.insert e.1 e.2) t

def ofList (pairs : List (NodeId × α)) : IdMap α := empty.insertAll pairs

/-- Enters all entries of a second table over those of the first. -/
def union (t u : IdMap α) : IdMap α := t.insertAll u.entries

/-- Drops the entry of one key. -/
def erase (t : IdMap α) (id : NodeId) : IdMap α :=
  ⟨t.entries.filter (fun e => e.1 ≠ id), t.sorted.filter _⟩

/-- Replaces the value under one key, if there is one. -/
def modify (t : IdMap α) (id : NodeId) (f : α → α) : IdMap α :=
  ⟨t.entries.map (fun e => (e.1, if e.1 = id then f e.2 else e.2)), List.pairwise_map.2 t.sorted⟩

end IdMap

end CelEdit
