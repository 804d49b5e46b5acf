import Mathlib.Algebra.BigOperators.Group.Finset.Piecewise
import Mathlib.Algebra.Order.BigOperators.Group.Finset
import PhraseSearch.Letter.Removal
import PhraseSearch.Proofs.Letter.Spelling

/-!
# What bags hold

The total of a bag is kept beside its counts.  It is their sum in every bag that comes to be, since
every operation changes one count and the total alike.

    counting word by word comes to counting all letters at once        (foldlM_addText?_eq)
    the total is the sum of the counts                                 (Obtained.summed)
-/

namespace PhraseSearch

namespace Bag

variable {b b' : Bag} {i : Nat} {path : List Nat}

/-- Bags are equal if they answer alike. -/
theorem ext_get (hsize : b.counts.size = b'.counts.size) (hget : ∀ i, b.get i = b'.get i)
    (htotal : b.total = b'.total) : b = b' := by
  obtain ⟨counts, total⟩ := b
  obtain ⟨counts', total'⟩ := b'
  obtain rfl : total = total' := htotal
  congr 1
  refine Array.ext hsize fun i hi hi' => ?_
  have h := hget i
  rw [get, get, Array.getElem?_eq_getElem hi, Array.getElem?_eq_getElem hi'] at h
  exact h

theorem get_eq_zero_of_size_le (h : b.counts.size ≤ i) : b.get i = 0 := by
  rw [get, Array.getElem?_eq_none h, Option.getD_none]

theorem size_counts_of_remove? (h : b.remove? i = some b') : b'.counts.size = b.counts.size := by
  rw [remove?] at h
  split at h
  · cases h
    exact Array.size_modify
  · cases h

/-! ## The total -/

/-- Whether the total of a bag is the sum of its counts. -/
def Summed (b : Bag) : Prop := b.total = ∑ i ∈ Finset.range b.counts.size, b.get i

theorem summed_empty (size : Nat) : (empty size).Summed := by
  simp [Summed]

/-- The counts that are out of range add nothing. -/
theorem Summed.total_eq (h : b.Summed) {n : Nat} (hn : b.counts.size ≤ n) :
    b.total = ∑ i ∈ Finset.range n, b.get i := by
  rw [h]
  refine Finset.sum_subset (Finset.range_subset_range.2 hn) fun i _ hi => ?_
  exact get_eq_zero_of_size_le (Nat.le_of_not_lt fun hlt => hi (Finset.mem_range.2 hlt))

theorem Summed.get_le (h : b.Summed) (i : Nat) : b.get i ≤ b.total := by
  by_cases hi : i < b.counts.size
  · rw [h]
    exact Finset.single_le_sum (fun _ _ => Nat.zero_le _) (Finset.mem_range.2 hi)
  · rw [get_eq_zero_of_size_le (Nat.le_of_not_lt hi)]
    exact Nat.zero_le _

/-- Two bags of one size, one of which has a letter more. -/
theorem sum_get_of_add (hi : i < b.counts.size)
    (hget : ∀ j, b'.get j = b.get j + if j = i then 1 else 0) :
    ∑ j ∈ Finset.range b.counts.size, b'.get j =
      (∑ j ∈ Finset.range b.counts.size, b.get j) + 1 := by
  simp only [hget, Finset.sum_add_distrib, Finset.sum_ite_eq', Finset.mem_range, if_pos hi]

theorem Summed.add (h : b.Summed) (hi : i < b.counts.size) : (b.add i).Summed := by
  rw [Summed, size_counts_add, sum_get_of_add hi (get_add hi), ← h]
  rfl

theorem Summed.foldl_add (h : b.Summed) (hpath : ∀ i ∈ path, i < b.counts.size) :
    (path.foldl Bag.add b).Summed := by
  induction path generalizing b with
  | nil => exact h
  | cons i path ih =>
    refine ih (h.add (hpath i (by simp))) fun j hj => ?_
    rw [size_counts_add]
    exact hpath j (by simp [hj])

/-- The total is not zero when a letter is removed. -/
theorem Summed.total_of_remove? (hb : b.Summed) (h : b.remove? i = some b') :
    b.total = b'.total + 1 := by
  have hi := get_pos_of_remove? h
  have hle := hb.get_le i
  rw [Bag.total_of_remove? h]
  omega

theorem Summed.remove (hb : b.Summed) (h : b.remove? i = some b') : b'.Summed := by
  have hsize := size_counts_of_remove? h
  have hi : i < b'.counts.size := by
    rw [hsize]
    exact lt_size_of_has (has_iff.2 (get_pos_of_remove? h))
  have hsum := sum_get_of_add hi (get_add_of_remove? h)
  have htotal := hb.total_of_remove? h
  rw [Summed, ← hsize] at hb
  rw [Summed]
  omega

end Bag

/-! ## Phrases -/

namespace Alphabet

variable {a : Alphabet} {b : Bag}

/-- Counting word by word comes to counting all letters at once. -/
theorem foldlM_addText?_eq (words : List String) (bag : Bag) :
    words.foldlM a.addText? bag = ((words.flatMap a.normalize.canonical).mapM a.position?).map
      fun path => path.foldl Bag.add bag := by
  induction words generalizing bag with
  | nil => rfl
  | cons word words ih =>
    rw [List.foldlM_cons, List.flatMap_cons, List.mapM_append, addText?_eq]
    cases (a.normalize.canonical word).mapM a.position? with
    | none => rfl
    | some path =>
      simp only [Option.map_some, Option.bind_eq_bind, Option.bind_some, ih]
      cases (words.flatMap a.normalize.canonical).mapM a.position? with
      | none => rfl
      | some rest => simp [List.foldl_append]

theorem exists_of_bagOfWords {words : List String} (h : a.bagOfWords words = .ok b) :
    ∃ path : List Nat, (words.flatMap a.normalize.canonical).map a.position? = path.map some ∧
      b = path.foldl Bag.add (.empty a.size) := by
  rw [bagOfWords, foldlM_addText?_eq] at h
  cases hpath : (words.flatMap a.normalize.canonical).mapM a.position? with
  | none =>
    rw [hpath] at h
    cases h
  | some path =>
    rw [hpath] at h
    cases h
    exact ⟨path, mapM_eq_some_iff_map.1 hpath, rfl⟩

/-- An index occurs as often as its letter. -/
theorem count_of_map_position? {letters : List Char} {path : List Nat}
    (h : letters.map a.position? = path.map some) {c : Char} {i : Nat}
    (hc : a.position? c = some i) : path.count i = letters.count c := by
  have hsome : (path.map some).count (some i) = path.count i :=
    List.count_map_of_injective path some (fun _ _ => Option.some.inj) i
  rw [← hsome, ← h, List.count_eq_countP, List.countP_map, List.count_eq_countP]
  refine List.countP_congr fun d _ => ?_
  show (a.position? d == some i) = true ↔ (d == c) = true
  rw [beq_iff_eq, beq_iff_eq]
  constructor
  · intro hd
    rw [position?_eq_some_iff] at hd hc
    exact Option.some.inj (hd.symm.trans hc)
  · intro hd
    rw [hd, hc]

/-- The bag of known letters has the sum of its counts as its total. -/
theorem summed_of_map_position? {letters : List Char} {path : List Nat}
    (h : letters.map a.position? = path.map some) :
    (path.foldl Bag.add (.empty a.size)).Summed := by
  refine (Bag.summed_empty a.size).foldl_add fun i hi => ?_
  simpa [Bag.empty] using lt_size_of_map_position? h i hi

end Alphabet

/-- In every bag that there is, the total is the sum of the counts. -/
theorem Bag.Obtained.summed {b : Bag} (h : b.Obtained) : b.Summed := by
  induction h with
  | empty size => exact summed_empty size
  | ofPhrase counted =>
    obtain ⟨path, hpath, rfl⟩ := Alphabet.bagOf_eq_ok_iff.1 counted
    exact Alphabet.summed_of_map_position? (Alphabet.spell_eq_ok_iff.1 hpath)
  | ofWords counted =>
    obtain ⟨path, hpath, rfl⟩ := Alphabet.exists_of_bagOfWords counted
    exact Alphabet.summed_of_map_position? hpath
  | remove _ removed ih => exact ih.remove removed

end PhraseSearch
