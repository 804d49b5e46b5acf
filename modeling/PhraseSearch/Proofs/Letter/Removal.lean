import PhraseSearch.Proofs.Letter.Cells

/-!
# Removing letters in any order

Letters can be removed from a bag if there are enough of each of them.  What is left depends on how
many are removed of each, and not on the order.  The total of a bag that has come to be is the sum of
its counts, so it shows whether a letter is left, and it is not zero while there is a letter to be
removed.

    b.removeAll? path is defined if path.count i ≤ b.get i for all i    (exists_removeAll?_iff)
    path.Perm path' → b.removeAll? path = b.removeAll? path'            (removeAll?_eq_of_perm)
    what can be removed from a bag, and what is left then               (removal_spec)
-/

namespace PhraseSearch.Bag

variable {b b' : Bag} {i : Nat} {path path' : List Nat}

/-! ## One letter -/

theorem exists_remove?_iff : (∃ b', b.remove? i = some b') ↔ 0 < b.get i := by
  rw [← isSome_remove?, Option.isSome_iff_exists]

theorem remove?_eq_none_iff : b.remove? i = none ↔ b.get i = 0 := by
  rw [← Option.isNone_iff_eq_none, ← Option.not_isSome, Bool.not_eq_true', ← Bool.not_eq_true,
    isSome_remove?]
  omega

/-! ## Several letters -/

theorem removeAll?_cons (b : Bag) (i : Nat) (path : List Nat) :
    b.removeAll? (i :: path) = (b.remove? i).bind (·.removeAll? path) := by
  unfold removeAll?
  rw [List.foldlM_cons]
  rfl

theorem exists_removeAll?_cons : (∃ b', b.removeAll? (i :: path) = some b') ↔
    ∃ mid, b.remove? i = some mid ∧ ∃ b', mid.removeAll? path = some b' := by
  simp only [removeAll?_cons, Option.bind_eq_some_iff]
  constructor
  · rintro ⟨b', mid, hmid, hb'⟩
    exact ⟨mid, hmid, b', hb'⟩
  · rintro ⟨mid, hmid, b', hb'⟩
    exact ⟨b', mid, hmid, hb'⟩

/-- Letters can be removed one after the other if there are enough of each. -/
theorem exists_removeAll?_iff :
    (∃ b', b.removeAll? path = some b') ↔ ∀ i, path.count i ≤ b.get i := by
  induction path generalizing b with
  | nil =>
    constructor
    · intro _ i
      exact Nat.zero_le _
    · intro _
      exact ⟨b, rfl⟩
  | cons i path ih =>
    rw [exists_removeAll?_cons]
    constructor
    · rintro ⟨mid, hmid, hrest⟩ j
      have hle := ih.1 hrest j
      have hget := get_add_of_remove? hmid j
      have hcount := count_cons_eq i j path
      omega
    · intro hcount
      have hi : 0 < b.get i := by
        have hle := hcount i
        rw [List.count_cons_self] at hle
        omega
      obtain ⟨mid, hmid⟩ := exists_remove?_iff.2 hi
      refine ⟨mid, hmid, ih.2 fun j => ?_⟩
      have hle := hcount j
      have hget := get_add_of_remove? hmid j
      have hcount := count_cons_eq i j path
      omega

/-- What is left after a path is removed, and what was there before it, of each letter. -/
theorem get_add_of_removeAll? (h : b.removeAll? path = some b') (j : Nat) :
    b.get j = b'.get j + path.count j := by
  induction path generalizing b with
  | nil =>
    cases h
    simp
  | cons i path ih =>
    rw [removeAll?_cons, Option.bind_eq_some_iff] at h
    obtain ⟨mid, hmid, hrest⟩ := h
    have hget := get_add_of_remove? hmid j
    have hleft := ih hrest
    have hcount := count_cons_eq i j path
    omega

theorem size_counts_of_removeAll? (h : b.removeAll? path = some b') :
    b'.counts.size = b.counts.size := by
  induction path generalizing b with
  | nil =>
    cases h
    rfl
  | cons i path ih =>
    rw [removeAll?_cons, Option.bind_eq_some_iff] at h
    obtain ⟨mid, hmid, hrest⟩ := h
    rw [ih hrest, size_counts_of_remove? hmid]

theorem total_of_removeAll? (h : b.removeAll? path = some b') :
    b'.total = b.total - path.length := by
  induction path generalizing b with
  | nil =>
    cases h
    rfl
  | cons i path ih =>
    rw [removeAll?_cons, Option.bind_eq_some_iff] at h
    obtain ⟨mid, hmid, hrest⟩ := h
    rw [ih hrest, total_of_remove? hmid, List.length_cons]
    omega

/-- The order in which letters are removed does not matter, neither for whether they can be removed
nor for what is left. -/
theorem removeAll?_eq_of_perm (b : Bag) (h : path.Perm path') :
    b.removeAll? path = b.removeAll? path' := by
  have hexists : (∃ rest, b.removeAll? path = some rest) ↔ ∃ rest, b.removeAll? path' = some rest := by
    rw [exists_removeAll?_iff, exists_removeAll?_iff]
    simp only [h.count_eq]
  cases hrest : b.removeAll? path with
  | none =>
    cases hrest' : b.removeAll? path' with
    | none => rfl
    | some rest' =>
      obtain ⟨rest, hsome⟩ := hexists.2 ⟨rest', hrest'⟩
      rw [hrest] at hsome
      cases hsome
  | some rest =>
    obtain ⟨rest', hrest'⟩ := hexists.1 ⟨rest, hrest⟩
    rw [hrest']
    congr 1
    apply ext_get
    · rw [size_counts_of_removeAll? hrest, size_counts_of_removeAll? hrest']
    · intro j
      have hget := get_add_of_removeAll? hrest j
      have hget' := get_add_of_removeAll? hrest' j
      rw [h.count_eq] at hget
      omega
    · rw [total_of_removeAll? hrest, total_of_removeAll? hrest', h.length_eq]

/-! ## Bags that there are -/

theorem Obtained.removeAll (h : b.Obtained) (hremoved : b.removeAll? path = some b') :
    b'.Obtained := by
  induction path generalizing b with
  | nil =>
    cases hremoved
    exact h
  | cons i path ih =>
    rw [removeAll?_cons, Option.bind_eq_some_iff] at hremoved
    obtain ⟨mid, hmid, hrest⟩ := hremoved
    exact ih (h.remove hmid) hrest

theorem Summed.length_le (hb : b.Summed) (h : b.removeAll? path = some b') :
    path.length ≤ b.total := by
  induction path generalizing b with
  | nil => exact Nat.zero_le _
  | cons i path ih =>
    rw [removeAll?_cons, Option.bind_eq_some_iff] at h
    obtain ⟨mid, hmid, hrest⟩ := h
    have hle := ih (hb.remove hmid) hrest
    have htotal := hb.total_of_remove? hmid
    rw [List.length_cons]
    omega

theorem Summed.isEmpty_iff_get (hb : b.Summed) : b.isEmpty = true ↔ ∀ i, b.get i = 0 := by
  rw [isEmpty_iff]
  constructor
  · intro h i
    have hle := hb.get_le i
    omega
  · intro h
    unfold Summed at hb
    simpa [h] using hb

/-- What can be removed from a bag, which is one of a phrase without some of its letters, and what is
left then.  The total is the sum of the counts.  One letter can be removed if its count is not zero;
its count and the total, neither of which was zero, are one less.  Letters can be removed if there
are enough of each of them, in any order, and the same is left.  In cells of 32 bits it is alike. -/
theorem removal_spec (h : b.Obtained) :
    (∀ n, b.counts.size ≤ n → b.total = ∑ i ∈ Finset.range n, b.get i) ∧
    (b.isEmpty = true ↔ ∀ i, b.get i = 0) ∧
    (∀ i, b.counts.size ≤ i → b.remove? i = none) ∧
    (∀ i, (∃ b', b.remove? i = some b') ↔ 0 < b.get i) ∧
    (∀ i b', b.remove? i = some b' → b'.Obtained ∧ b'.counts.size = b.counts.size ∧
      b.total = b'.total + 1 ∧ ∀ j, b.get j = b'.get j + if j = i then 1 else 0) ∧
    (∀ i j, (b.remove? i).bind (·.remove? j) = (b.remove? j).bind (·.remove? i)) ∧
    (∀ path, (∃ b', b.removeAll? path = some b') ↔ ∀ i, path.count i ≤ b.get i) ∧
    (∀ path b', b.removeAll? path = some b' → b'.Obtained ∧
      b.total = b'.total + path.length ∧ ∀ j, b.get j = b'.get j + path.count j) ∧
    (∀ path path' : List Nat, path.Perm path' → b.removeAll? path = b.removeAll? path') ∧
    ∀ cells : Cells, cells.bag = b → ∀ path,
      (cells.removeAll? path).map Cells.bag = b.removeAll? path := by
  have hsummed := h.summed
  refine ⟨fun n hn => hsummed.total_eq hn, hsummed.isEmpty_iff_get, fun i hi => ?_,
    fun i => exists_remove?_iff, fun i b' hb' => ?_, fun i j => ?_,
    fun path => exists_removeAll?_iff, fun path b' hb' => ?_,
    fun path path' hperm => removeAll?_eq_of_perm b hperm, fun cells hcells path => ?_⟩
  · exact remove?_eq_none_iff.2 (get_eq_zero_of_size_le hi)
  · exact ⟨h.remove hb', size_counts_of_remove? hb', hsummed.total_of_remove? hb',
      get_add_of_remove? hb'⟩
  · have hswap := removeAll?_eq_of_perm b (List.Perm.swap j i [])
    rw [removeAll?_cons, removeAll?_cons] at hswap
    simpa [removeAll?] using hswap
  · refine ⟨h.removeAll hb', ?_, get_add_of_removeAll? hb'⟩
    have hle := hsummed.length_le hb'
    have htotal := total_of_removeAll? hb'
    omega
  · subst hcells
    exact Cells.map_bag_removeAll? hsummed path

/-- Three letters of a phrase, one of them twice, after one has been removed. -/
theorem removal_spec_of_three_letters :
    ∃ b : Bag, b.Obtained ∧ b = ⟨#[1, 1], 2⟩ ∧
      b.removeAll? [0, 1] = b.removeAll? [1, 0] ∧ ¬ ∃ b', b.removeAll? [0, 0] = some b' := by
  have hcounted : (⟨some, ['a', 'b'], by decide⟩ : Alphabet).bagOf "aba" = .ok ⟨#[2, 1], 3⟩ := by
    decide +kernel
  have hremoved : (⟨#[2, 1], 3⟩ : Bag).remove? 0 = some ⟨#[1, 1], 2⟩ := by decide
  have hobtained : Obtained ⟨#[1, 1], 2⟩ := .remove (.ofPhrase hcounted) hremoved
  obtain ⟨-, -, -, -, -, -, hiff, -, hperm, -⟩ := removal_spec hobtained
  refine ⟨_, hobtained, rfl, hperm _ _ (.swap 1 0 []), fun h => ?_⟩
  have hcount := (hiff _).1 h 0
  revert hcount
  decide

end PhraseSearch.Bag
