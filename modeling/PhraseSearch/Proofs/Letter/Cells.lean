import PhraseSearch.Letter.Cells
import PhraseSearch.Proofs.Letter.Bags

/-!
# What cells hold

The table of an alphabet has the index of every letter, so letters are raised in cells as they are in
a bag.  Cells hold of that bag what is left of its counts below 2^32, and all of it as long as no
count gets there; then the total stays below 2^64, since there are not so many letters.  Nothing
wraps around when letters are removed.

    the table has the positions                                        (getElem?_table)
    what is left of a phrase in cells                                  (map_bag_cellsOf_of_length)
    a phrase is counted in cells as in a bag                           (map_bag_cellsOf)
    letters are removed from cells as from the bag                     (map_bag_removeAll?)
-/

namespace PhraseSearch

/-! ## Cells and bags -/

/-- What a change of one entry is in another view of the entries. -/
theorem map_modify {α β : Type} {view : α → β} {f : α → α} {g : β → β} {i : Nat}
    (entries : Array α) (h : ∀ x, entries[i]? = some x → view (f x) = g (view x)) :
    (entries.modify i f).map view = (entries.map view).modify i g := by
  refine Array.ext_getElem? fun j => ?_
  rw [Array.getElem?_map, Array.getElem?_modify, Array.getElem?_modify, Array.getElem?_map]
  split
  · next hij =>
    subst hij
    cases hx : entries[i]? with
    | none => rfl
    | some x => exact congrArg some (h x hx)
  · rfl

namespace Bag

variable {b : Bag}

theorem get_inCells (b : Bag) (i : Nat) : b.inCells.get i = b.get i % 2 ^ 32 := by
  rw [get, get, inCells, Array.getElem?_map]
  cases b.counts[i]? <;> rfl

theorem inCells_empty (size : Nat) : (empty size).inCells = empty size := by
  simp [inCells, empty]

/-- Nothing is lost where no cell gets full. -/
theorem inCells_of_lt (h : ∀ i, b.get i < 2 ^ 32) : b.inCells = b := by
  refine ext_get Array.size_map (fun i => ?_) rfl
  rw [get_inCells, Nat.mod_eq_of_lt (h i)]

/-- One more letter comes to one more in its cell, or to zero. -/
theorem inCells_add (b : Bag) (i : Nat) : (b.add i).inCells =
    ⟨b.inCells.counts.modify i fun n => (n + 1) % 2 ^ 32, b.inCells.total + 1⟩ := by
  rw [inCells, inCells, add]
  congr 1
  exact map_modify _ fun n _ => (Nat.mod_add_mod n (2 ^ 32) 1).symm

end Bag

namespace Cells

variable {cells : Cells} {i : Nat} {path : List Nat} {b : Bag}

theorem bag_empty (size : Nat) : (empty size).bag = .empty size := by
  simp [empty, bag, Bag.empty]

theorem get_bag (cells : Cells) (i : Nat) : cells.bag.get i = (cells.get i).toNat := by
  rw [Bag.get, bag, Array.getElem?_map, get]
  cases cells.counts[i]? <;> rfl

/-- Cells hold what is left of a bag when a letter is added to both. -/
theorem bag_add (h : cells.bag = b.inCells) (htotal : b.total + 1 < 2 ^ 64) :
    (cells.add i).bag = (b.add i).inCells := by
  have hcell : (cells.counts.modify i (· + 1)).map UInt32.toNat =
      (cells.counts.map UInt32.toNat).modify i fun n => (n + 1) % 2 ^ 32 :=
    map_modify _ fun n _ => UInt32.toNat_add n 1
  have hraised : (cells.total + 1).toNat = cells.bag.total + 1 := by
    rw [UInt64.toNat_add]
    refine Nat.mod_eq_of_lt ?_
    show cells.bag.total + 1 < 2 ^ 64
    rw [h]
    exact htotal
  rw [Bag.inCells_add, ← h, bag, add, hcell, hraised]
  rfl

theorem bag_foldl_add (h : cells.bag = b.inCells) (htotal : b.total + path.length < 2 ^ 64) :
    (path.foldl add cells).bag = (path.foldl Bag.add b).inCells := by
  induction path generalizing cells b with
  | nil => exact h
  | cons i path ih =>
    rw [List.length_cons] at htotal
    refine ih (bag_add h (by omega)) ?_
    show b.total + 1 + path.length < 2 ^ 64
    omega

/-- Neither the cell nor the total goes below zero when a letter is removed. -/
theorem map_bag_remove? (hsum : cells.bag.Summed) :
    (cells.remove? i).map bag = cells.bag.remove? i := by
  have hhas : 0 < cells.get i ↔ cells.bag.has i = true := by
    rw [Bag.has_iff, get_bag, UInt32.lt_iff_toNat_lt]
    rfl
  rw [remove?, Bag.remove?]
  by_cases h : cells.bag.has i = true
  · have hpos : 0 < cells.bag.get i := Bag.has_iff.1 h
    rw [if_pos (hhas.2 h), if_pos h, Option.map_some]
    have hcell : (cells.counts.modify i (· - 1)).map UInt32.toNat =
        (cells.counts.map UInt32.toNat).modify i (· - 1) := by
      refine map_modify _ fun n hn => UInt32.toNat_sub_of_le n 1 ?_
      rw [get_bag, get, hn, Option.getD_some] at hpos
      exact UInt32.le_iff_toNat_le.2 hpos
    have htotal : (cells.total - 1).toNat = cells.total.toNat - 1 :=
      UInt64.toNat_sub_of_le _ _
        (UInt64.le_iff_toNat_le.2 (Nat.lt_of_lt_of_le hpos (hsum.get_le i)))
    rw [bag, hcell, htotal]
    rfl
  · rw [if_neg (mt hhas.1 h), if_neg h, Option.map_none]

/-- Letters are removed from cells as they are from the bag that the cells hold. -/
theorem map_bag_removeAll? (hsum : cells.bag.Summed) (path : List Nat) :
    (cells.removeAll? path).map bag = cells.bag.removeAll? path := by
  induction path generalizing cells with
  | nil => rfl
  | cons i path ih =>
    have hfirst := map_bag_remove? (i := i) hsum
    rw [removeAll?, Bag.removeAll?, List.foldlM_cons, List.foldlM_cons, ← hfirst]
    cases hremoved : cells.remove? i with
    | none => rfl
    | some rest =>
      rw [hremoved] at hfirst
      exact ih (hsum.remove hfirst.symm)

end Cells

/-! ## The table -/

namespace Alphabet

variable {a : Alphabet}

theorem getElem?_table (a : Alphabet) (c : Char) : a.table[c]? = a.position? c := by
  have hdistinct : a.letters.zipIdx.Pairwise fun e f => (e.1 == f.1) = false := by
    have hnodup : (a.letters.zipIdx.map Prod.fst).Nodup := by
      rw [List.zipIdx_map_fst]
      exact a.nodup
    exact (List.pairwise_map.1 hnodup).imp fun h => beq_false_of_ne h
  cases hc : a.position? c with
  | some i =>
    refine Std.HashMap.getElem?_ofList_of_mem BEq.rfl hdistinct ?_
    rw [List.mem_zipIdx_iff_getElem?]
    exact position?_eq_some_iff.1 hc
  | none =>
    refine Std.HashMap.getElem?_ofList_of_contains_eq_false ?_
    rw [List.zipIdx_map_fst, List.contains_eq_mem, decide_eq_false_iff_not, ← isSome_position?, hc]
    simp

/-! ## Counting in cells -/

/-- There are no more letters than code points. -/
theorem length_le_of_nodup {letters : List Char} (h : letters.Nodup) :
    letters.length ≤ 1114112 := by
  have hnodup : (letters.map Char.toNat).Nodup := h.map fun _ _ h => Char.toNat_inj.1 h
  have hsub : letters.map Char.toNat ⊆ List.range 1114112 := by
    intro n hn
    obtain ⟨c, -, rfl⟩ := List.mem_map.1 hn
    rw [List.mem_range]
    rcases c.valid with h | h
    · exact Nat.lt_trans h (by decide)
    · exact h.2
  simpa using (hnodup.subperm hsub).length_le

/-- If no letter occurs 2^32 times, there are fewer than 2^64 in all. -/
theorem length_lt_of_count_lt {letters : List Char} (hcount : ∀ c, letters.count c < 2 ^ 32) :
    letters.length < 2 ^ 64 := by
  have hdistinct := length_le_of_nodup letters.nodup_dedup
  have hsum : letters.length ≤ letters.toFinset.card * 2 ^ 32 := by
    rw [← List.sum_toFinset_count_eq_length letters]
    exact Finset.sum_le_card_nsmul _ _ _ fun c _ => Nat.le_of_lt (hcount c)
  rw [List.card_toFinset] at hsum
  omega

/-- If no letter occurs 2^32 times, no index does. -/
theorem count_lt_of_map_position? {letters : List Char} {path : List Nat}
    (h : letters.map a.position? = path.map some) (hcount : ∀ c, letters.count c < 2 ^ 32)
    (i : Nat) : path.count i < 2 ^ 32 := by
  by_cases hi : i ∈ path
  · have hmem : some i ∈ letters.map a.position? := by
      rw [h]
      exact List.mem_map_of_mem hi
    obtain ⟨c, -, hc⟩ := List.mem_map.1 hmem
    rw [count_of_map_position? h hc]
    exact hcount c
  · rw [List.count_eq_zero_of_not_mem hi]
    decide

theorem fillFrom_cons (c : Char) (cs : List Char) (cells : Cells) :
    a.fillFrom (c :: cs) cells =
      match a.position? c with
      | some i => a.fillFrom cs (cells.add i)
      | none => (cells, false) := by
  cases hc : a.position? c with
  | none => simp only [fillFrom, getElem?_table, hc]
  | some i => simp only [fillFrom, getElem?_table, hc]

theorem fillFrom_of_map {letters : List Char} {path : List Nat}
    (h : letters.map a.position? = path.map some) (cells : Cells) :
    a.fillFrom letters cells = (path.foldl Cells.add cells, true) := by
  induction letters generalizing path cells with
  | nil =>
    obtain rfl : path = [] := by simpa using h.symm
    rfl
  | cons c letters ih =>
    cases path with
    | nil => cases h
    | cons i path =>
      obtain ⟨hi, hrest⟩ := List.cons_eq_cons.1 h
      rw [fillFrom_cons, hi]
      exact ih hrest (cells.add i)

theorem fillFrom_of_unknown {letters : List Char} (h : letters.mapM a.position? = none)
    (cells : Cells) : (a.fillFrom letters cells).2 = false := by
  induction letters generalizing cells with
  | nil => cases h
  | cons c letters ih =>
    rw [fillFrom_cons]
    cases hc : a.position? c with
    | none => rfl
    | some i =>
      refine ih ?_ (cells.add i)
      rw [List.mapM_cons, hc] at h
      cases hrest : letters.mapM a.position? with
      | none => rfl
      | some path =>
        rw [hrest] at h
        cases h

theorem fillFrom_append (cs ds : List Char) (cells : Cells) :
    a.fillFrom (cs ++ ds) cells =
      match a.fillFrom cs cells with
      | (cells, true) => a.fillFrom ds cells
      | (cells, false) => (cells, false) := by
  induction cs generalizing cells with
  | nil => rfl
  | cons c cs ih =>
    rw [List.cons_append, fillFrom_cons, fillFrom_cons]
    cases a.position? c with
    | none => rfl
    | some i => exact ih (cells.add i)

/-- Filling cells word by word comes to filling them with all letters at once. -/
theorem fillWords_eq (words : List String) (cells : Cells) :
    a.fillWords words cells = a.fillFrom (words.flatMap a.normalize.canonical) cells := by
  induction words generalizing cells with
  | nil => rfl
  | cons word words ih =>
    rw [List.flatMap_cons, fillFrom_append]
    unfold fillWords
    rw [fill]
    generalize a.fillFrom (a.normalize.canonical word) cells = filled
    obtain ⟨filled, known⟩ := filled
    cases known with
    | true => exact ih filled
    | false => rfl

/-- Letters are counted in cells as they are in a bag, as far as there is room, and fail alike. -/
theorem map_bag_fillFrom {letters : List Char} (hlength : letters.length < 2 ^ 64)
    (fault : UnknownLetter) :
    (match a.fillFrom letters (.empty a.size) with
      | (cells, true) => Except.ok cells
      | (_, false) => .error fault).map Cells.bag =
    (match (letters.mapM a.position?).map fun path : List Nat =>
        path.foldl Bag.add (.empty a.size) with
      | some bag => Except.ok bag
      | none => .error fault).map Bag.inCells := by
  cases hpath : letters.mapM a.position? with
  | none =>
    have hfill := fillFrom_of_unknown hpath (.empty a.size)
    split
    · next heq => rw [heq] at hfill; cases hfill
    · rfl
  | some path =>
    have hletters := mapM_eq_some_iff_map.1 hpath
    have hsame : path.length = letters.length := by simpa using congrArg List.length hletters.symm
    rw [fillFrom_of_map hletters]
    refine congrArg Except.ok (Cells.bag_foldl_add ?_ ?_)
    · rw [Cells.bag_empty, Bag.inCells_empty]
    · rw [Bag.total_empty, Nat.zero_add, hsame]
      exact hlength

theorem map_bag_cellsOf_of_length {phrase : String}
    (hlength : (a.normalize.canonical phrase).length < 2 ^ 64) :
    (a.cellsOf phrase).map Cells.bag = (a.bagOf phrase).map Bag.inCells := by
  rw [cellsOf, fill, bagOf, addText?_eq]
  exact map_bag_fillFrom hlength (.inPhrase phrase)

theorem map_bag_cellsOfWords_of_length {words : List String}
    (hlength : (words.flatMap a.normalize.canonical).length < 2 ^ 64) :
    (a.cellsOfWords words).map Cells.bag = (a.bagOfWords words).map Bag.inCells := by
  rw [cellsOfWords, fillWords_eq, bagOfWords, foldlM_addText?_eq]
  exact map_bag_fillFrom hlength (.inPhrase (" ".intercalate words))

/-- There is room in cells for letters none of which occurs 2^32 times. -/
theorem inCells_of_map_position? {letters : List Char} {path : List Nat}
    (h : letters.map a.position? = path.map some) (hcount : ∀ c, letters.count c < 2 ^ 32) :
    (path.foldl Bag.add (.empty a.size)).inCells = path.foldl Bag.add (.empty a.size) := by
  refine Bag.inCells_of_lt fun i => ?_
  rw [get_of_map_position? h]
  exact count_lt_of_map_position? h hcount i

theorem map_bag_cellsOf {phrase : String}
    (hcount : ∀ c, (a.normalize.canonical phrase).count c < 2 ^ 32) :
    (a.cellsOf phrase).map Cells.bag = a.bagOf phrase := by
  rw [map_bag_cellsOf_of_length (length_lt_of_count_lt hcount)]
  cases hbag : a.bagOf phrase with
  | error fault => rfl
  | ok bag =>
    obtain ⟨path, hpath, rfl⟩ := bagOf_eq_ok_iff.1 hbag
    exact congrArg Except.ok (inCells_of_map_position? (spell_eq_ok_iff.1 hpath) hcount)

theorem map_bag_cellsOfWords {words : List String}
    (hcount : ∀ c, (words.flatMap a.normalize.canonical).count c < 2 ^ 32) :
    (a.cellsOfWords words).map Cells.bag = a.bagOfWords words := by
  rw [map_bag_cellsOfWords_of_length (length_lt_of_count_lt hcount)]
  cases hbag : a.bagOfWords words with
  | error fault => rfl
  | ok bag =>
    obtain ⟨path, hpath, rfl⟩ := exists_of_bagOfWords hbag
    exact congrArg Except.ok (inCells_of_map_position? hpath hcount)

end Alphabet

end PhraseSearch
