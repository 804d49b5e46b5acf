/-!
# Bags of letters

A `Bag` says how many letters of each index are left to place, together with their total.  It is
never changed in place: `remove?` gives a new bag, or nothing if no such letter is left.

    (b.add i).get j = b.get j + 1 for j = i in range, else b.get j      (get_add)
    b.remove? i is defined exactly if 0 < b.get i                       (isSome_remove?)
-/

namespace PhraseSearch

/-- The letters left to place, by index, and how many there are in all. -/
structure Bag where
  counts : Array Nat
  total : Nat
deriving DecidableEq

namespace Bag

/-! ## Operations -/

/-- The bag without letters over `size` indices. -/
def empty (size : Nat) : Bag := ⟨Array.replicate size 0, 0⟩

/-- Whether no letter is left. -/
def isEmpty (b : Bag) : Bool := b.total == 0

/-- How many letters of index `i` are left; zero for an index out of range. -/
def get (b : Bag) (i : Nat) : Nat := (b.counts[i]?).getD 0

/-- Whether a letter of index `i` is left. -/
def has (b : Bag) (i : Nat) : Bool := 0 < b.get i

/-- The bag with one more letter of index `i`. -/
def add (b : Bag) (i : Nat) : Bag := ⟨b.counts.modify i (· + 1), b.total + 1⟩

/-- The bag with one letter of index `i` less; nothing if none is left. -/
def remove? (b : Bag) (i : Nat) : Option Bag :=
  if b.has i then some ⟨b.counts.modify i (· - 1), b.total - 1⟩ else none

/-! ## Lemmas -/

@[simp] theorem get_empty (size i : Nat) : (empty size).get i = 0 := by
  simp only [empty, get, Array.getElem?_replicate]
  split <;> rfl

@[simp] theorem total_empty (size : Nat) : (empty size).total = 0 := rfl

theorem has_iff {b : Bag} {i : Nat} : b.has i = true ↔ 0 < b.get i := by
  simp [has]

theorem isEmpty_iff {b : Bag} : b.isEmpty = true ↔ b.total = 0 := by
  simp [isEmpty]

theorem lt_size_of_has {b : Bag} {i : Nat} (h : b.has i = true) : i < b.counts.size := by
  rw [has_iff, get] at h
  apply Classical.byContradiction
  intro hi
  simp [Array.getElem?_eq_none (Nat.le_of_not_lt hi)] at h

theorem get_add {b : Bag} {i : Nat} (hi : i < b.counts.size) (j : Nat) :
    (b.add i).get j = b.get j + if j = i then 1 else 0 := by
  simp only [add, get, Array.getElem?_modify]
  by_cases h : j = i
  · subst h; simp [hi]
  · have : ¬ i = j := fun e => h e.symm
    simp [h, this]

theorem size_counts_add (b : Bag) (i : Nat) : (b.add i).counts.size = b.counts.size := by
  simp [add]

theorem isSome_remove? {b : Bag} {i : Nat} : (b.remove? i).isSome = true ↔ 0 < b.get i := by
  rw [← has_iff, remove?]
  split <;> simp_all

theorem get_of_remove? {b b' : Bag} {i : Nat} (h : b.remove? i = some b') (j : Nat) :
    b'.get j = b.get j - if j = i then 1 else 0 := by
  rw [remove?] at h
  split at h
  · next hi =>
    have hlt := lt_size_of_has hi
    cases h
    simp only [get, Array.getElem?_modify]
    by_cases hj : j = i
    · subst hj; simp [hlt]
    · have : ¬ i = j := fun e => hj e.symm
      simp [hj, this]
  · cases h

theorem get_pos_of_remove? {b b' : Bag} {i : Nat} (h : b.remove? i = some b') : 0 < b.get i :=
  isSome_remove?.1 (by rw [h]; rfl)

/-- A letter that is removed was there before. -/
theorem get_add_of_remove? {b b' : Bag} {i : Nat} (h : b.remove? i = some b') (j : Nat) :
    b.get j = b'.get j + if j = i then 1 else 0 := by
  have hi := get_pos_of_remove? h
  rw [get_of_remove? h]
  by_cases hj : j = i
  · subst hj
    simp only [if_pos]
    omega
  · simp [hj]

theorem total_of_remove? {b b' : Bag} {i : Nat} (h : b.remove? i = some b') :
    b'.total = b.total - 1 := by
  rw [remove?] at h
  split at h
  · cases h; rfl
  · cases h

end Bag

end PhraseSearch
