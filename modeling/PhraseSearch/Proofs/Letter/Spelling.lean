import Mathlib.Data.List.Perm.Subperm
import PhraseSearch.Letter.Alphabet

/-!
# Spelling and counting

Spelling a text gives the indices of its canonical letters in order; its bag counts these indices.
Both are defined on the same texts, those of letters that the alphabet has, and two spellings are
permutations of each other exactly if the letters are.

    a.spell text = .ok path                                            (spell_eq_ok_iff)
    a.bagOf text = the bag of the spelling                             (bagOf_of_spell)
    path.Perm path' ↔ the letters are permutations                     (perm_iff_map_perm)
-/

namespace PhraseSearch

/-! ## Maps into options -/

theorem mapM_eq_some_iff_map {α β : Type} {f : α → Option β} {l : List α} {m : List β} :
    l.mapM f = some m ↔ l.map f = m.map some := by
  induction l generalizing m with
  | nil => cases m <;> simp
  | cons x l ih =>
    simp only [List.mapM_cons, Option.bind_eq_bind, Option.bind_eq_some_iff, Option.pure_def,
      Option.some.injEq, ih]
    cases m with
    | nil => simp
    | cons z m =>
      constructor
      · rintro ⟨y, hy, k, hk, hcons⟩
        obtain ⟨rfl, rfl⟩ := List.cons.inj hcons
        rw [List.map_cons, List.map_cons, hy, hk]
      · intro h
        obtain ⟨hy, hk⟩ := List.cons.inj h
        exact ⟨z, hy, m, hk, rfl⟩

/-! ## Bags -/

namespace Bag

theorem count_cons_eq (i j : Nat) (path : List Nat) :
    (i :: path).count j = path.count j + if j = i then 1 else 0 := by
  rw [List.count_cons]
  by_cases h : j = i
  · simp [h]
  · have : ¬ i = j := fun e => h e.symm
    simp [h, this]

theorem get_foldl_add {path : List Nat} {bag : Bag} (h : ∀ i ∈ path, i < bag.counts.size)
    (j : Nat) : (path.foldl add bag).get j = bag.get j + path.count j := by
  induction path generalizing bag with
  | nil => simp
  | cons i path ih =>
    have hi := h i (by simp)
    have hrest : ∀ k ∈ path, k < (bag.add i).counts.size := by
      intro k hk
      rw [size_counts_add]
      exact h k (by simp [hk])
    rw [List.foldl_cons, ih hrest, get_add hi, count_cons_eq]
    omega

theorem size_counts_foldl_add (path : List Nat) (b : Bag) :
    (path.foldl add b).counts.size = b.counts.size := by
  induction path generalizing b with
  | nil => rfl
  | cons i path ih => rw [List.foldl_cons, ih, size_counts_add]

theorem total_foldl_add (path : List Nat) (bag : Bag) :
    (path.foldl add bag).total = bag.total + path.length := by
  induction path generalizing bag with
  | nil => rfl
  | cons i path ih =>
    rw [List.foldl_cons, ih, List.length_cons]
    simp only [add]
    omega

end Bag

namespace Alphabet

variable {a : Alphabet}

/-! ## Positions -/

theorem lt_size_of_position? {c : Char} {i : Nat} (h : a.position? c = some i) : i < a.size := by
  rw [position?_eq_some_iff, letterAt?] at h
  exact (List.getElem?_eq_some_iff.1 h).1

theorem isSome_position? {c : Char} : (a.position? c).isSome = true ↔ c ∈ a.letters := by
  rw [Option.isSome_iff_exists]
  constructor
  · rintro ⟨i, hi⟩
    rw [position?_eq_some_iff, letterAt?] at hi
    exact List.mem_of_getElem? hi
  · intro h
    obtain ⟨i, hi, hc⟩ := List.getElem_of_mem h
    exact ⟨i, position?_eq_some_iff.2 (List.getElem?_eq_some_iff.2 ⟨hi, hc⟩)⟩

theorem lt_size_of_map_position? {letters : List Char} {path : List Nat}
    (h : letters.map a.position? = path.map some) : ∀ i ∈ path, i < a.size := by
  intro i hi
  have hmem : some i ∈ letters.map a.position? := by
    rw [h]
    exact List.mem_map_of_mem hi
  obtain ⟨c, -, hc⟩ := List.mem_map.1 hmem
  exact lt_size_of_position? hc

/-! ## Spelling -/

theorem spell_eq_ok_iff {word : String} {path : List Nat} :
    a.spell word = .ok path ↔ (a.normalize.canonical word).map a.position? = path.map some := by
  rw [← mapM_eq_some_iff_map, spell]
  cases (a.normalize.canonical word).mapM a.position? <;> simp

theorem spell_isOk_iff {word : String} :
    (∃ path, a.spell word = .ok path) ↔ ∀ c ∈ a.normalize.canonical word, c ∈ a.letters := by
  constructor
  · rintro ⟨path, hpath⟩ c hc
    have hmem : a.position? c ∈ path.map some := by
      rw [← spell_eq_ok_iff.1 hpath]
      exact List.mem_map_of_mem hc
    obtain ⟨i, -, hi⟩ := List.mem_map.1 hmem
    exact isSome_position?.1 (by rw [← hi]; rfl)
  · intro h
    refine ⟨(a.normalize.canonical word).filterMap a.position?, spell_eq_ok_iff.2 ?_⟩
    rw [List.map_filterMap]
    generalize a.normalize.canonical word = cs at h
    induction cs with
    | nil => rfl
    | cons c cs ih =>
      obtain ⟨i, hi⟩ := Option.isSome_iff_exists.1 (isSome_position?.2 (h c (by simp)))
      rw [List.map_cons, List.filterMap_cons, hi, ih fun d hd => h d (by simp [hd])]
      rfl

theorem spell_isEmpty_iff {word : String} :
    a.spell word = .ok [] ↔ a.normalize.canonical word = [] := by
  rw [spell_eq_ok_iff]
  simp

/-- An index stands for one letter, so spellings and letters are rearranged alike. -/
theorem perm_iff_map_perm {cs ds : List Char} {path path' : List Nat}
    (h : cs.map a.position? = path.map some) (h' : ds.map a.position? = path'.map some) :
    path.Perm path' ↔ cs.Perm ds := by
  have hletters : ∀ {cs : List Char} {path : List Nat}, cs.map a.position? = path.map some →
      path.map a.letterAt? = cs.map some := by
    intro cs path h
    induction cs generalizing path with
    | nil =>
      obtain rfl : path = [] := by simpa using h.symm
      rfl
    | cons c cs ih =>
      cases path with
      | nil => simp at h
      | cons i path =>
        rw [List.map_cons, List.map_cons, List.cons.injEq] at h
        rw [List.map_cons, List.map_cons, ih h.2, position?_eq_some_iff.1 h.1]
  constructor
  · intro hperm
    have := hperm.map a.letterAt?
    rw [hletters h, hletters h'] at this
    exact (List.map_perm_map_iff fun _ _ => Option.some.inj).1 this
  · intro hperm
    have := hperm.map a.position?
    rw [h, h'] at this
    exact (List.map_perm_map_iff fun _ _ => Option.some.inj).1 this

/-- Words that are spelled one by one are spelled together. -/
theorem map_position?_flatten {words : List String} {spelled : List (List Nat)}
    (h : List.Forall₂ (fun word path => a.spell word = .ok path) words spelled) :
    (words.flatMap a.normalize.canonical).map a.position? = spelled.flatten.map some := by
  induction h with
  | nil => rfl
  | cons hword _ ih =>
    rw [List.flatMap_cons, List.flatten_cons, List.map_append, List.map_append, ih,
      spell_eq_ok_iff.1 hword]

/-! ## Counting -/

theorem addText?_eq (bag : Bag) (text : String) :
    a.addText? bag text =
      ((a.normalize.canonical text).mapM a.position?).map fun path => path.foldl Bag.add bag := by
  rw [addText?]
  generalize a.normalize.canonical text = cs
  induction cs generalizing bag with
  | nil => rfl
  | cons c cs ih =>
    rw [List.foldlM_cons, List.mapM_cons]
    cases a.position? c with
    | none => rfl
    | some i =>
      simp only [Option.map_some, Option.bind_eq_bind, Option.bind_some, ih]
      cases cs.mapM a.position? <;> rfl

theorem bagOf_eq_ok_iff {phrase : String} {b : Bag} : a.bagOf phrase = .ok b ↔
    ∃ path, a.spell phrase = .ok path ∧ b = path.foldl Bag.add (Bag.empty a.size) := by
  rw [bagOf, addText?_eq]
  simp only [spell_eq_ok_iff, ← mapM_eq_some_iff_map]
  cases (a.normalize.canonical phrase).mapM a.position? with
  | none => simp
  | some path => simp [eq_comm]

theorem bagOf_of_spell {phrase : String} {path : List Nat} (h : a.spell phrase = .ok path) :
    a.bagOf phrase = .ok (path.foldl Bag.add (Bag.empty a.size)) :=
  bagOf_eq_ok_iff.2 ⟨path, h, rfl⟩

theorem bagOf_eq_error_iff {phrase : String} {fault : UnknownLetter} :
    a.bagOf phrase = .error fault ↔
      fault = .inPhrase phrase ∧ ∃ c ∈ a.normalize.canonical phrase, c ∉ a.letters := by
  have hiff : (∃ c ∈ a.normalize.canonical phrase, c ∉ a.letters) ↔
      ¬ ∃ path, a.spell phrase = .ok path := by
    rw [spell_isOk_iff]
    simp
  rw [hiff]
  constructor
  · intro h
    have hnone : ¬ ∃ path, a.spell phrase = .ok path := by
      rintro ⟨path, hpath⟩
      rw [bagOf_of_spell hpath] at h
      cases h
    refine ⟨?_, hnone⟩
    rw [bagOf] at h
    split at h
    · cases h
    · cases h
      rfl
  · rintro ⟨rfl, hnone⟩
    rw [bagOf, addText?_eq]
    cases hm : (a.normalize.canonical phrase).mapM a.position? with
    | none => rfl
    | some path => exact (hnone ⟨path, spell_eq_ok_iff.2 (mapM_eq_some_iff_map.1 hm)⟩).elim

theorem get_of_map_position? {letters : List Char} {path : List Nat}
    (h : letters.map a.position? = path.map some) (i : Nat) :
    (path.foldl Bag.add (.empty a.size)).get i = path.count i := by
  rw [Bag.get_foldl_add, Bag.get_empty, Nat.zero_add]
  intro j hj
  simpa [Bag.empty] using lt_size_of_map_position? h j hj

theorem get_bagOf {phrase : String} {path : List Nat} (h : a.spell phrase = .ok path) (i : Nat) :
    (path.foldl Bag.add (Bag.empty a.size)).get i = path.count i :=
  get_of_map_position? (spell_eq_ok_iff.1 h) i

/-! ## Letters of a collection -/

theorem mem_letters_ofBatches {normalize : Normalizer} {batches : List (List String)} {c : Char} :
    c ∈ (ofBatches normalize batches).letters ↔
      ∃ words ∈ batches, ∃ word ∈ words, c ∈ normalize.canonical word := by
  have hfold : ∀ t : Tally, c ∈ (batches.foldl (Tally.addTexts normalize) t).letters ↔
      c ∈ t.letters ∨ ∃ words ∈ batches, ∃ word ∈ words, c ∈ normalize.canonical word := by
    induction batches with
    | nil => simp
    | cons words batches ih =>
      intro t
      rw [List.foldl_cons, ih, Tally.mem_letters_addTexts]
      simp [or_assoc]
  rw [ofBatches, mem_letters_ofTally, hfold]
  have : c ∉ Tally.empty.letters := List.not_mem_nil
  simp [this]

end Alphabet

end PhraseSearch
