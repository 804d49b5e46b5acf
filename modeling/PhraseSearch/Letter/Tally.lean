import PhraseSearch.Letter.Normalizer

/-!
# Letter tallies

A `Tally` says how often each letter has occurred; words are added to it one by one.  It lists
only letters that have occurred, each once, in the order of their first occurrence.

    (t.add c).count d = t.count d + (1 if d = c)                       (count_add)
    (t.addTexts f ws).count c = t.count c + occurrences of c in ws     (count_addTexts)
    c ∈ t.letters ↔ 0 < t.count c, for a tally of words                (mem_letters_addTexts)
-/

namespace PhraseSearch

/-- How often each letter has occurred. -/
structure Tally where
  entries : List (Char × Nat)
  nodup : (entries.map Prod.fst).Nodup

namespace Tally

/-! ## Operations -/

/-- The tally of nothing. -/
def empty : Tally := ⟨[], List.nodup_nil⟩

/-- Raises the entry of a letter by one, or starts it at one. -/
def bump (c : Char) : List (Char × Nat) → List (Char × Nat)
  | [] => [(c, 1)]
  | (d, n) :: rest => if d = c then (d, n + 1) :: rest else (d, n) :: bump c rest

theorem map_fst_bump (c : Char) (l : List (Char × Nat)) :
    (bump c l).map Prod.fst =
      if c ∈ l.map Prod.fst then l.map Prod.fst else l.map Prod.fst ++ [c] := by
  fun_induction bump c l with
  | case1 => simp
  | case2 n rest => simp
  | case3 d n rest h ih =>
    have h' : ¬ c = d := fun e => h e.symm
    by_cases hc : c ∈ rest.map Prod.fst
    · rw [List.map_cons, ih, if_pos hc, if_pos (by simp [hc])]
      rfl
    · rw [List.map_cons, ih, if_neg hc, if_neg (by simpa [h'] using hc)]
      rfl

theorem nodup_bump {c : Char} {l : List (Char × Nat)} (h : (l.map Prod.fst).Nodup) :
    ((bump c l).map Prod.fst).Nodup := by
  rw [map_fst_bump]
  split
  · exact h
  · next hc =>
    refine List.nodup_append.2 ⟨h, by simp, fun a ha b hb => ?_⟩
    rw [List.mem_singleton] at hb
    exact fun e => hc (by rw [← hb, ← e]; exact ha)

/-- Counts one more occurrence of a letter. -/
def add (t : Tally) (c : Char) : Tally :=
  ⟨bump c t.entries, nodup_bump t.nodup⟩

/-- Counts the canonical letters of one word. -/
def addText (normalize : Normalizer) (t : Tally) (word : String) : Tally :=
  (normalize.canonical word).foldl add t

/-- Counts the canonical letters of every word of a list. -/
def addTexts (normalize : Normalizer) (t : Tally) (words : List String) : Tally :=
  words.foldl (addText normalize) t

/-- The letters that have occurred. -/
def letters (t : Tally) : List Char :=
  t.entries.map Prod.fst

/-- How often a letter has occurred. -/
def count (t : Tally) (c : Char) : Nat :=
  (t.entries.lookup c).getD 0

/-! ## Lemmas -/

theorem lookup_bump (c d : Char) (l : List (Char × Nat)) :
    ((bump c l).lookup d).getD 0 = (l.lookup d).getD 0 + if d = c then 1 else 0 := by
  fun_induction bump c l with
  | case1 =>
    by_cases h : d = c
    · simp [h]
    · rw [List.lookup_cons, beq_eq_false_iff_ne.2 h]
      simp [h]
  | case2 n rest =>
    by_cases h : d = c
    · simp [h]
    · rw [List.lookup_cons, List.lookup_cons, beq_eq_false_iff_ne.2 h]
      simp [h]
  | case3 e n rest he ih =>
    rw [List.lookup_cons, List.lookup_cons]
    by_cases h : d = e
    · have : ¬ d = c := fun hd => he (h ▸ hd)
      rw [beq_iff_eq.2 h]
      simp [this]
    · rw [beq_eq_false_iff_ne.2 h]
      exact ih

@[simp] theorem count_empty (c : Char) : empty.count c = 0 := rfl

theorem count_add (t : Tally) (c d : Char) :
    (t.add c).count d = t.count d + if d = c then 1 else 0 :=
  lookup_bump c d t.entries

theorem count_foldl_add (cs : List Char) (t : Tally) (c : Char) :
    (cs.foldl add t).count c = t.count c + cs.count c := by
  induction cs generalizing t with
  | nil => simp
  | cons d cs ih =>
    rw [List.foldl_cons, ih, count_add, List.count_cons]
    by_cases h : c = d
    · simp [h]; omega
    · have : ¬ d = c := fun e => h e.symm
      simp [h, this]

theorem count_addTexts (normalize : Normalizer) (t : Tally) (words : List String) (c : Char) :
    (t.addTexts normalize words).count c =
      t.count c + (words.flatMap normalize.canonical).count c := by
  unfold addTexts
  induction words generalizing t with
  | nil => simp
  | cons w words ih =>
    rw [List.foldl_cons, ih, addText, count_foldl_add, List.flatMap_cons, List.count_append]
    omega

theorem letters_add (t : Tally) (c : Char) :
    (t.add c).letters = if c ∈ t.letters then t.letters else t.letters ++ [c] :=
  map_fst_bump c t.entries

theorem mem_letters_add {t : Tally} {c d : Char} :
    d ∈ (t.add c).letters ↔ d ∈ t.letters ∨ d = c := by
  rw [letters_add]
  split
  · next h => exact ⟨.inl, fun hd => hd.elim id fun e => e ▸ h⟩
  · simp

theorem mem_letters_addTexts (normalize : Normalizer) (t : Tally) (words : List String)
    (c : Char) :
    c ∈ (t.addTexts normalize words).letters ↔
      c ∈ t.letters ∨ ∃ w ∈ words, c ∈ normalize.canonical w := by
  have hword : ∀ (cs : List Char) (t : Tally),
      c ∈ (cs.foldl add t).letters ↔ c ∈ t.letters ∨ c ∈ cs := by
    intro cs
    induction cs with
    | nil => simp
    | cons d cs ih => intro t; rw [List.foldl_cons, ih, mem_letters_add]; simp [or_assoc]
  unfold addTexts
  induction words generalizing t with
  | nil => simp
  | cons w words ih =>
    refine (ih (t.addText normalize w)).trans ?_
    rw [addText, hword]
    simp [or_assoc]

end Tally

end PhraseSearch
