import PhraseSearch.Proofs.Letter.Cells
import PhraseSearch.Proofs.Letter.Order

/-!
# The ranking of the letters

The alphabet of batches of words ranks their canonical letters, the frequent ones first and those of
equal frequency by code point.  This is a strict order in which any two letters are comparable, so
there is one ranking only, whatever batches the words come in and in whatever order the letters that
have been counted are listed.  The table of the letters' indices is the inverse of the ranking.

    the ranking is strict                                              (pairwise_ranks_letters)
    a lesser index is a higher rank                                    (lt_iff_ranks)
    what the alphabet of batches is                                    (ofBatches_spec)
-/

namespace PhraseSearch

namespace Alphabet

variable {a : Alphabet} {normalize : Normalizer}

/-- Whether a letter is ranked before another: it occurs more often, or as often and has the lesser
code point. -/
def Ranks (occurrences : Char → Nat) (c d : Char) : Prop :=
  occurrences d < occurrences c ∨ occurrences d = occurrences c ∧ c < d

theorem Ranks.asymm {occurrences : Char → Nat} {c d : Char} (h : Ranks occurrences c d) :
    ¬ Ranks occurrences d c := by
  unfold Ranks at h ⊢
  rintro (h' | ⟨h', hlt'⟩)
  · omega
  · rcases h with h | ⟨-, hlt⟩
    · omega
    · exact Char.lt_asymm hlt hlt'

/-- The letters of a tally are ranked by their counts. -/
theorem pairwise_ranks_letters (tally : Tally) :
    (ofTally normalize tally).letters.Pairwise (Ranks tally.count) := by
  have hsorted := List.pairwise_mergeSort comesBefore_trans comesBefore_total tally.entries
  have hnodup := (ofTally normalize tally).nodup
  have hcount : ∀ e ∈ tally.entries.mergeSort comesBefore, e.2 = tally.count e.1 := by
    intro e he
    rw [(List.mergeSort_perm tally.entries comesBefore).mem_iff, tally.entries_eq] at he
    obtain ⟨c, -, rfl⟩ := List.mem_map.1 he
    rfl
  show ((tally.entries.mergeSort comesBefore).map Prod.fst).Pairwise _
  rw [List.pairwise_map]
  refine (hsorted.and (List.pairwise_map.1 hnodup)).imp_of_mem ?_
  rintro ⟨c, n⟩ ⟨d, m⟩ hc hd ⟨hbefore, hne⟩
  obtain rfl : n = tally.count c := hcount _ hc
  obtain rfl : m = tally.count d := hcount _ hd
  rcases comesBefore_iff.1 hbefore with h | ⟨h, hle⟩
  · exact .inl h
  · exact .inr ⟨h, Char.not_le.1 fun hge => hne (Char.le_antisymm hle hge)⟩

/-- Of two letters, the one with the lesser index is ranked before the other. -/
theorem lt_iff_ranks {occurrences : Char → Nat} (h : a.letters.Pairwise (Ranks occurrences))
    {c d : Char} {i j : Nat} (hc : a.letterAt? i = some c) (hd : a.letterAt? j = some d) :
    i < j ↔ Ranks occurrences c d := by
  obtain ⟨hi, rfl⟩ := List.getElem?_eq_some_iff.1 hc
  obtain ⟨hj, rfl⟩ := List.getElem?_eq_some_iff.1 hd
  have hpairwise := List.pairwise_iff_getElem.1 h
  constructor
  · intro hij
    exact hpairwise i j hi hj hij
  · intro hranks
    rcases Nat.lt_trichotomy i j with hij | rfl | hji
    · exact hij
    · exact absurd hranks hranks.asymm
    · exact absurd hranks (hpairwise j i hj hi hji).asymm

theorem pairwise_ranks_ofBatches (normalize : Normalizer) (batches : List (List String)) :
    (ofBatches normalize batches).letters.Pairwise
      (Ranks (batches.flatten.flatMap normalize.canonical).count) := by
  have hcount : (batches.foldl (Tally.addTexts normalize) .empty).count =
      fun c => (batches.flatten.flatMap normalize.canonical).count c := by
    funext c
    rw [Tally.count_foldl_addTexts, Tally.count_empty, Nat.zero_add]
  have hranks : (ofBatches normalize batches).letters.Pairwise
      (Ranks (batches.foldl (Tally.addTexts normalize) .empty).count) := pairwise_ranks_letters _
  rw [hcount] at hranks
  exact hranks

theorem exists_letterAt?_iff {i : Nat} : (∃ c, a.letterAt? i = some c) ↔ i < a.size := by
  constructor
  · rintro ⟨c, hc⟩
    exact (List.getElem?_eq_some_iff.1 hc).1
  · intro hi
    exact ⟨a.letters[i], List.getElem?_eq_getElem hi⟩

theorem exists_letterAt?_eq_iff {c : Char} : (∃ i, a.letterAt? i = some c) ↔ c ∈ a.letters := by
  rw [← isSome_position?, Option.isSome_iff_exists]
  exact exists_congr fun i => position?_eq_some_iff.symm

theorem indexOf?_eq_some_iff {c : Char} {i : Nat} :
    a.indexOf? c = some i ↔ ∃ d, a.normalize c = some d ∧ a.letterAt? i = some d := by
  rw [indexOf?, Option.bind_eq_some_iff]
  simp only [position?_eq_some_iff]

/-- The alphabet of batches of words.  Its indices up to its size stand for the canonical letters of
the words, each for another one and each letter for one; the frequent letters come first, and those
of equal frequency by code point.  The index of a character is that of its canonical form, and the
table is the inverse of the list of the letters.  Other batches of the same words have the same
alphabet, and so have their letters if they are listed in any order. -/
theorem ofBatches_spec (normalize : Normalizer) (batches : List (List String)) :
    let a := ofBatches normalize batches
    let occurrences := (batches.flatten.flatMap fun word => word.toList.filterMap normalize).count
    (∀ i, (∃ c, a.letterAt? i = some c) ↔ i < a.size) ∧
    (∀ i j c, a.letterAt? i = some c → a.letterAt? j = some c → i = j) ∧
    (∀ c, (∃ i, a.letterAt? i = some c) ↔
      ∃ word ∈ batches.flatten, ∃ ch ∈ word.toList, normalize ch = some c) ∧
    (∀ i j c d, a.letterAt? i = some c → a.letterAt? j = some d →
      (i < j ↔ occurrences d < occurrences c ∨ occurrences d = occurrences c ∧ c < d)) ∧
    (∀ c i, a.indexOf? c = some i ↔ ∃ d, normalize c = some d ∧ a.letterAt? i = some d) ∧
    (∀ c i, a.table[c]? = some i ↔ a.letterAt? i = some c) ∧
    ∀ batches', batches'.flatten.Perm batches.flatten →
      ofBatches normalize batches' = a ∧
      ∀ tally : Tally,
        tally.entries.Perm (batches'.foldl (Tally.addTexts normalize) .empty).entries →
          ofTally normalize tally = a := by
  intro a occurrences
  have hranks := pairwise_ranks_ofBatches normalize batches
  refine ⟨fun i => exists_letterAt?_iff, fun i j c hi hj => ?_, fun c => ?_,
    fun i j c d hc hd => lt_iff_ranks hranks hc hd, fun c i => indexOf?_eq_some_iff, fun c i => ?_,
    fun batches' hperm => ?_⟩
  · rw [← position?_eq_some_iff] at hi hj
    exact Option.some.inj (hi.symm.trans hj)
  · rw [exists_letterAt?_eq_iff, mem_letters_ofBatches_iff]
    simp only [Normalizer.mem_canonical]
  · rw [getElem?_table]
    exact position?_eq_some_iff
  · have hsame := ofBatches_eq_of_perm_flatten normalize hperm
    refine ⟨hsame, fun tally htally => ?_⟩
    exact (ofTally_eq_of_perm normalize htally).trans hsame

end Alphabet

end PhraseSearch
