import PhraseSearch.Proofs.Letter.Cells

/-!
# Counting and spelling agree

A phrase is counted by one scan and a word is spelled by another.  They fail on the same texts, and
the bag of a text has each index as often as the spelling does; so two texts have the same bag if the
letters of one are those of the other, rearranged.

    both parts of a text are counted together                          (bagOf_append)
    b = b' for the bags of rearranged texts, and no others             (eq_iff_perm_of_bagOf)
    counting word by word, if spaces are dropped                       (bagOfWords_eq)
    what the bag of a text is                                          (bagOf_spec)
-/

namespace PhraseSearch

theorem Normalizer.canonical_intercalate {normalize : Normalizer} (h : normalize ' ' = none)
    (words : List String) :
    normalize.canonical (" ".intercalate words) = words.flatMap normalize.canonical := by
  unfold canonical
  rw [String.toList_intercalate]
  show ([' '].intercalate _).filterMap normalize = _
  induction words with
  | nil => rfl
  | cons word words ih =>
    cases words with
    | nil => simp
    | cons next words =>
      rw [List.map_cons, List.map_cons, List.intercalate_cons_cons, ← List.map_cons,
        List.filterMap_append, List.filterMap_append, ih, List.flatMap_cons]
      simp [h]

namespace Alphabet

variable {a : Alphabet} {s t : String} {b b' : Bag}

theorem exists_bagOf_iff : (∃ b, a.bagOf s = .ok b) ↔ ∃ path, a.spell s = .ok path := by
  constructor
  · rintro ⟨b, hb⟩
    obtain ⟨path, hpath, -⟩ := bagOf_eq_ok_iff.1 hb
    exact ⟨path, hpath⟩
  · rintro ⟨path, hpath⟩
    exact ⟨_, bagOf_of_spell hpath⟩

/-- The bag of a text counts the indices of its spelling. -/
theorem counts_of_bagOf {path : List Nat} (hb : a.bagOf s = .ok b) (hpath : a.spell s = .ok path) :
    (∀ i, b.get i = path.count i) ∧ b.total = path.length ∧ b.counts.size = a.size := by
  rw [bagOf_of_spell hpath] at hb
  cases hb
  refine ⟨get_of_map_position? (spell_eq_ok_iff.1 hpath), ?_, ?_⟩
  · rw [Bag.total_foldl_add, Bag.total_empty, Nat.zero_add]
  · rw [Bag.size_counts_foldl_add]
    exact Array.size_replicate

/-- Spellings of two parts make up the spelling of a text. -/
theorem spell_append {p q : List Nat} (hp : a.spell s = .ok p) (hq : a.spell t = .ok q) :
    a.spell (s ++ t) = .ok (p ++ q) := by
  rw [spell_eq_ok_iff] at hp hq ⊢
  rw [Normalizer.canonical_append, List.map_append, List.map_append, hp, hq]

theorem exists_spell_append_iff : (∃ path, a.spell (s ++ t) = .ok path) ↔
    (∃ path, a.spell s = .ok path) ∧ ∃ path, a.spell t = .ok path := by
  rw [spell_isOk_iff, spell_isOk_iff, spell_isOk_iff, Normalizer.canonical_append]
  simp only [List.mem_append]
  constructor
  · intro h
    exact ⟨fun c hc => h c (.inl hc), fun c hc => h c (.inr hc)⟩
  · rintro ⟨hs, ht⟩ c (hc | hc)
    · exact hs c hc
    · exact ht c hc

/-- The letters of both parts of a text are counted together. -/
theorem bagOf_append (hb : a.bagOf s = .ok b) (hb' : a.bagOf t = .ok b') :
    ∃ both, a.bagOf (s ++ t) = .ok both ∧ (∀ i, both.get i = b.get i + b'.get i) ∧
      both.total = b.total + b'.total ∧ both.counts.size = b.counts.size := by
  obtain ⟨p, hp, -⟩ := bagOf_eq_ok_iff.1 hb
  obtain ⟨q, hq, -⟩ := bagOf_eq_ok_iff.1 hb'
  have happend := spell_append hp hq
  have hboth := bagOf_of_spell happend
  obtain ⟨hget, htotal, hsize⟩ := counts_of_bagOf hb hp
  obtain ⟨hget', htotal', -⟩ := counts_of_bagOf hb' hq
  obtain ⟨hgets, htotals, hsizes⟩ := counts_of_bagOf hboth happend
  refine ⟨_, hboth, fun i => ?_, ?_, ?_⟩
  · rw [hgets, hget, hget', List.count_append]
  · rw [htotals, htotal, htotal', List.length_append]
  · rw [hsizes, hsize]

/-- Two texts have the same bag if their letters are the same, in whatever order. -/
theorem eq_iff_perm_of_bagOf (hb : a.bagOf s = .ok b) (hb' : a.bagOf t = .ok b') :
    b = b' ↔ (a.normalize.canonical s).Perm (a.normalize.canonical t) := by
  obtain ⟨p, hp, -⟩ := bagOf_eq_ok_iff.1 hb
  obtain ⟨q, hq, -⟩ := bagOf_eq_ok_iff.1 hb'
  obtain ⟨hget, htotal, hsize⟩ := counts_of_bagOf hb hp
  obtain ⟨hget', htotal', hsize'⟩ := counts_of_bagOf hb' hq
  rw [← perm_iff_map_perm (spell_eq_ok_iff.1 hp) (spell_eq_ok_iff.1 hq)]
  constructor
  · intro h
    rw [List.perm_iff_count]
    intro i
    rw [← hget, ← hget', h]
  · intro h
    apply Bag.ext_get
    · rw [hsize, hsize']
    · intro i
      rw [hget, hget', h.count_eq]
    · rw [htotal, htotal', h.length_eq]

/-- Words are counted one by one as they are when joined by spaces that are dropped. -/
theorem bagOfWords_eq (h : a.normalize ' ' = none) (words : List String) :
    a.bagOfWords words = a.bagOf (" ".intercalate words) := by
  rw [bagOfWords, foldlM_addText?_eq, bagOf, addText?_eq, Normalizer.canonical_intercalate h]

/-- The bag of a text.  There is one if the text can be spelled; it has each index as often as the
spelling, and its total is the length of the spelling.  The bag of two texts one after the other is
the sum of theirs, if both have one.  Two texts have the same bag if their letters are the same, in
whatever order.  Words may be counted one by one instead of joined, if spaces are dropped, with the
same bag or the same fault.  In cells of 32 bits it is alike, unless a letter occurs 2^32 times. -/
theorem bagOf_spec (a : Alphabet) (s t : String) (words : List String) :
    ((∃ b, a.bagOf s = .ok b) ↔ ∃ path, a.spell s = .ok path) ∧
    (∀ b path, a.bagOf s = .ok b → a.spell s = .ok path →
      (∀ i, b.get i = path.count i) ∧ b.total = path.length) ∧
    ((∃ b, a.bagOf (s ++ t) = .ok b) ↔ (∃ b, a.bagOf s = .ok b) ∧ ∃ b, a.bagOf t = .ok b) ∧
    (∀ b b', a.bagOf s = .ok b → a.bagOf t = .ok b' →
      (∃ both, a.bagOf (s ++ t) = .ok both ∧ (∀ i, both.get i = b.get i + b'.get i) ∧
        both.total = b.total + b'.total ∧ both.counts.size = b.counts.size) ∧
      (b = b' ↔ (s.toList.filterMap a.normalize).Perm (t.toList.filterMap a.normalize))) ∧
    (a.normalize ' ' = none → a.bagOfWords words = a.bagOf (" ".intercalate words)) ∧
    ((∀ c, (s.toList.filterMap a.normalize).count c < 2 ^ 32) →
      (a.cellsOf s).map Cells.bag = a.bagOf s) ∧
    ((∀ c, (words.flatMap fun word => word.toList.filterMap a.normalize).count c < 2 ^ 32) →
      (a.cellsOfWords words).map Cells.bag = a.bagOfWords words) := by
  refine ⟨exists_bagOf_iff, fun b path hb hpath => ?_, ?_,
    fun b b' hb hb' => ⟨bagOf_append hb hb', eq_iff_perm_of_bagOf hb hb'⟩,
    fun h => bagOfWords_eq h words, map_bag_cellsOf, map_bag_cellsOfWords⟩
  · obtain ⟨hget, htotal, -⟩ := counts_of_bagOf hb hpath
    exact ⟨hget, htotal⟩
  · rw [exists_bagOf_iff, exists_bagOf_iff, exists_bagOf_iff]
    exact exists_spell_append_iff

end Alphabet

end PhraseSearch
