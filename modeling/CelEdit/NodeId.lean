/-!
# Node ids

An id joins a node, or a struct or map entry, to the side tables of its tree. Zero is reserved for
what has no id yet. Ids are 64-bit words, so `next?` has no answer at the largest of them.
-/

namespace CelEdit

/-- The id of a node or of a struct or map entry. -/
structure NodeId where
  value : UInt64
deriving DecidableEq, Inhabited

namespace NodeId

/-- The id of what has not been assigned one. -/
def unset : NodeId := ⟨0⟩

def isSet (id : NodeId) : Bool := id != unset

def toNat (id : NodeId) : Nat := id.value.toNat

/-- The largest of `base` and `ids`. -/
def largest (base : NodeId) (ids : List NodeId) : NodeId :=
  ids.foldl (fun a b => if a.value < b.value then b else a) base

/-- The following id, unless the word is used up. -/
def next? (id : NodeId) : Option NodeId :=
  if id.toNat + 1 < UInt64.size then some ⟨id.value + 1⟩ else none

/-- An id in messages: a hash sign and the decimal number. -/
def display (id : NodeId) : String := "#" ++ String.ofList (Nat.toDigits 10 id.toNat)

instance : LT NodeId := ⟨fun a b => a.toNat < b.toNat⟩

instance (a b : NodeId) : Decidable (a < b) := inferInstanceAs (Decidable (a.toNat < b.toNat))

theorem lt_def {a b : NodeId} : a < b ↔ a.toNat < b.toNat := Iff.rfl

theorem toNat_inj {a b : NodeId} : a.toNat = b.toNat ↔ a = b := by
  cases a; cases b
  simp [toNat, UInt64.toNat_inj]

theorem lt_trans {a b c : NodeId} (hab : a < b) (hbc : b < c) : a < c :=
  Nat.lt_trans hab hbc

theorem lt_of_not_lt_of_ne {a b : NodeId} (hlt : ¬ a < b) (hne : a ≠ b) : b < a := by
  have h : a.toNat ≠ b.toNat := fun h => hne (toNat_inj.1 h)
  rw [lt_def] at *
  omega

theorem toNat_next {a b : NodeId} (h : a.next? = some b) : b.toNat = a.toNat + 1 := by
  unfold next? at h
  split at h
  · next hlt =>
    cases h
    simp only [toNat, UInt64.toNat_add] at *
    exact Nat.mod_eq_of_lt hlt
  · cases h

end NodeId

end CelEdit
