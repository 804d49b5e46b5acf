import PhraseSearch.Proofs.Letter.Spelling

/-!
# The order of the letters

An alphabet sorts the letters of a tally by an order in which no two of them are equal.  The letters
and their counts do not depend on the order in which batches of words are counted, so neither does
the alphabet.

    `comesBefore` is a linear order                                    (comesBefore_antisymm)
    a tally is its letters with their counts                           (entries_eq)
    the words may come in any batches                                  (ofBatches_eq_of_perm_flatten)
-/

namespace PhraseSearch

/-! ## Tallies -/

namespace Tally

theorem entries_eq (t : Tally) : t.entries = t.letters.map fun c => (c, t.count c) := by
  obtain ⟨entries, hnodup⟩ := t
  simp only [letters, count]
  induction entries with
  | nil => rfl
  | cons e entries ih =>
    obtain ⟨d, n⟩ := e
    obtain ⟨hnew, hrest⟩ := List.nodup_cons.1 hnodup
    rw [List.map_cons, List.map_cons, List.lookup_cons_self, Option.getD_some]
    congr 1
    refine (ih hrest).trans (List.map_congr_left fun c hc => ?_)
    have hne : (c == d) = false := beq_false_of_ne fun he => hnew (he ▸ hc)
    rw [List.lookup_cons, hne]

/-- A tally does not depend on the order of its entries, apart from that order. -/
theorem entries_perm {t u : Tally} (hletters : ∀ c, c ∈ t.letters ↔ c ∈ u.letters)
    (hcount : ∀ c, t.count c = u.count c) : t.entries.Perm u.entries := by
  have hperm : t.letters.Perm u.letters :=
    (List.perm_ext_iff_of_nodup t.nodup u.nodup).2 hletters
  rw [t.entries_eq, u.entries_eq]
  simp only [hcount]
  exact hperm.map _

theorem count_foldl_addTexts (normalize : Normalizer) (batches : List (List String)) (t : Tally)
    (c : Char) : (batches.foldl (addTexts normalize) t).count c =
      t.count c + (batches.flatten.flatMap normalize.canonical).count c := by
  induction batches generalizing t with
  | nil => simp
  | cons words batches ih =>
    rw [List.foldl_cons, ih, count_addTexts, List.flatten_cons, List.flatMap_append,
      List.count_append, Nat.add_assoc]

end Tally

/-! ## Alphabets -/

namespace Alphabet

theorem comesBefore_iff {c d : Char} {n m : Nat} :
    comesBefore (c, n) (d, m) = true ↔ m < n ∨ m = n ∧ c ≤ d := by
  simp [comesBefore]

theorem comesBefore_trans (e f g : Char × Nat) (h : comesBefore e f = true)
    (h' : comesBefore f g = true) : comesBefore e g = true := by
  obtain ⟨c, n⟩ := e
  obtain ⟨d, m⟩ := f
  obtain ⟨b, k⟩ := g
  rw [comesBefore_iff] at h h' ⊢
  rcases h with h | ⟨rfl, h⟩
  · exact .inl (by omega)
  · rcases h' with h' | ⟨rfl, h'⟩
    · exact .inl h'
    · exact .inr ⟨rfl, Char.le_trans h h'⟩

theorem comesBefore_total (e f : Char × Nat) : (comesBefore e f || comesBefore f e) = true := by
  obtain ⟨c, n⟩ := e
  obtain ⟨d, m⟩ := f
  rw [Bool.or_eq_true, comesBefore_iff, comesBefore_iff]
  rcases Nat.lt_trichotomy m n with h | rfl | h
  · exact .inl (.inl h)
  · exact (Char.le_total c d).imp (fun h => .inr ⟨rfl, h⟩) fun h => .inr ⟨rfl, h⟩
  · exact .inr (.inl h)

theorem comesBefore_antisymm (e f : Char × Nat) (h : comesBefore e f = true)
    (h' : comesBefore f e = true) : e = f := by
  obtain ⟨c, n⟩ := e
  obtain ⟨d, m⟩ := f
  rw [comesBefore_iff] at h h'
  obtain rfl : m = n := by omega
  have hle : c ≤ d := (h.resolve_left (Nat.lt_irrefl m)).2
  have hge : d ≤ c := (h'.resolve_left (Nat.lt_irrefl m)).2
  rw [Char.le_antisymm hle hge]

theorem mem_letters_ofBatches_iff {normalize : Normalizer} {batches : List (List String)}
    {c : Char} : c ∈ (ofBatches normalize batches).letters ↔
      ∃ word ∈ batches.flatten, c ∈ normalize.canonical word := by
  rw [mem_letters_ofBatches]
  constructor
  · rintro ⟨words, hwords, word, hword, hc⟩
    exact ⟨word, List.mem_flatten.2 ⟨words, hwords, hword⟩, hc⟩
  · rintro ⟨word, hword, hc⟩
    obtain ⟨words, hwords, hword⟩ := List.mem_flatten.1 hword
    exact ⟨words, hwords, word, hword, hc⟩

/-- Tallies that count alike have the same alphabet. -/
theorem ofTally_eq_of_perm (normalize : Normalizer) {t u : Tally}
    (h : t.entries.Perm u.entries) : ofTally normalize t = ofTally normalize u := by
  have hsort : t.entries.mergeSort comesBefore = u.entries.mergeSort comesBefore := by
    refine List.Perm.eq_of_pairwise (fun e f _ _ => comesBefore_antisymm e f)
      (List.pairwise_mergeSort comesBefore_trans comesBefore_total _)
      (List.pairwise_mergeSort comesBefore_trans comesBefore_total _) ?_
    exact (List.mergeSort_perm _ _).trans (h.trans (List.mergeSort_perm _ _).symm)
  simp only [ofTally, hsort]

/-- Only the words count, not the batches that they come in. -/
theorem ofBatches_eq_of_perm_flatten (normalize : Normalizer) {batches batches' : List (List String)}
    (h : batches.flatten.Perm batches'.flatten) :
    ofBatches normalize batches = ofBatches normalize batches' := by
  refine ofTally_eq_of_perm normalize (Tally.entries_perm (fun c => ?_) fun c => ?_)
  · have hmem : c ∈ (ofBatches normalize batches).letters ↔
        c ∈ (ofBatches normalize batches').letters := by
      rw [mem_letters_ofBatches_iff, mem_letters_ofBatches_iff]
      exact exists_congr fun word => and_congr_left fun _ => h.mem_iff
    rwa [ofBatches, ofBatches, mem_letters_ofTally, mem_letters_ofTally] at hmem
  · rw [Tally.count_foldl_addTexts, Tally.count_foldl_addTexts]
    congr 1
    exact (h.flatMap_right normalize.canonical).count_eq c

theorem ofBatches_eq_of_perm (normalize : Normalizer) {batches batches' : List (List String)}
    (h : batches.Perm batches') : ofBatches normalize batches = ofBatches normalize batches' :=
  ofBatches_eq_of_perm_flatten normalize h.flatten

end Alphabet

end PhraseSearch
