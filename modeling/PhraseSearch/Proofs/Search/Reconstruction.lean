import Mathlib.Algebra.GroupWithZero.Nat
import Mathlib.Data.List.Sections
import PhraseSearch.Proofs.Search.Descent
import PhraseSearch.Proofs.Search.Solutions
import PhraseSearch.Proofs.Trie.Building
import PhraseSearch.Search.Reading

/-!
# Reconstruction of phrases

The phrases of a complete draft are the choices of one spelling for each of its words.  They come in
the lexicographic order of the positions of these spellings, the last word first: the first word
changes fastest.

    the choices come in order                                          (pairwise_sections)
    words end where they may end, and at nodes of the tries            (Descends.ends)
    the phrases of a complete draft                                    (phrases_of_completes)
-/

namespace PhraseSearch

/-! ## Choices -/

theorem pairwise_idxOf_lt {l : List String} (h : l.Nodup) :
    l.Pairwise fun v w => l.idxOf v < l.idxOf w := by
  refine List.pairwise_iff_getElem.2 fun i j hi hj hij => ?_
  rw [h.idxOf_getElem i hi, h.idxOf_getElem j hj]
  exact hij

/-- Lists of one length that differ are in the same order whatever follows them. -/
theorem append_lt_append {l m : List Nat} (h : l < m) (hlength : l.length = m.length)
    (l' m' : List Nat) : l ++ l' < m ++ m' := by
  induction h with
  | nil => cases hlength
  | rel hij => exact .rel hij
  | cons _ ih => exact .cons (ih (Nat.succ.inj hlength))

namespace Draft

variable {choices : List (List String)} {d : Draft}

theorem length_positions {phrase : List String} (h : phrase ∈ choices.sections) :
    (positions choices phrase).length = choices.length := by
  rw [positions, List.length_zipWith, List.mem_sections_length h, Nat.min_self]

theorem length_sections (choices : List (List String)) :
    choices.sections.length = (choices.map List.length).prod := by
  induction choices with
  | nil => rfl
  | cons spellings choices ih =>
    simp [List.sections, List.length_flatMap, ih, Nat.mul_comm]

/-- The choices of one spelling for each word come in the order of the positions chosen, the last
word first. -/
theorem pairwise_sections (h : ∀ spellings ∈ choices, spellings.Nodup) :
    choices.sections.Pairwise fun v w =>
      (positions choices v).reverse < (positions choices w).reverse := by
  induction choices with
  | nil => exact List.pairwise_singleton _ _
  | cons spellings choices ih =>
    have hrest := ih fun s hs => h s (List.mem_cons_of_mem _ hs)
    have hcons : ∀ word phrase, (positions (spellings :: choices) (word :: phrase)).reverse =
        (positions choices phrase).reverse ++ [spellings.idxOf word] :=
      fun word phrase => List.reverse_cons
    rw [List.sections, List.pairwise_flatMap]
    constructor
    -- the same words follow, so the position of this one decides
    · intro phrase hphrase
      refine List.pairwise_map.2 ((pairwise_idxOf_lt (h spellings (by simp))).imp fun hlt => ?_)
      rw [hcons, hcons]
      exact List.append_left_lt (.rel hlt)
    -- the words that follow have decided already
    · refine hrest.imp_of_mem fun {v w} hv hw hlt => ?_
      rintro _ hv' _ hw'
      obtain ⟨first, -, rfl⟩ := List.mem_map.1 hv'
      obtain ⟨first', -, rfl⟩ := List.mem_map.1 hw'
      rw [hcons, hcons]
      refine append_lt_append hlt ?_ _ _
      rw [List.length_reverse, List.length_reverse, length_positions hv, length_positions hw]

theorem nodup_sections (h : ∀ spellings ∈ choices, spellings.Nodup) : choices.sections.Nodup :=
  (pairwise_sections h).imp fun hlt heq => by
    rw [heq] at hlt
    exact List.lt_irrefl _ hlt

/-! ## Words of a chain -/

theorem wordEndsFrom_false_eq (d : Draft) :
    d.wordEndsFrom false = (d.chain.filterMap wordBefore?).reverse := by
  induction d with
  | start => rfl
  | letter previous child bag ih =>
    rw [chain, List.filterMap_append, List.reverse_append]
    exact ih
  | word previous state root ih =>
    rw [chain, List.filterMap_append, List.reverse_append, ← ih]
    exact wordEnds_eq_cons previous

theorem wordEnds_eq_reverse (d : Draft) : d.wordEnds = d.readingEnds.reverse := by
  rw [wordEnds_eq_cons, wordEndsFrom_false_eq, readingEnds, List.reverse_append]
  rfl

theorem length_eq (d : Draft) : d.length = d.readingEnds.length := by
  rw [length, wordEnds_eq_reverse, List.length_reverse]

/-- Of the drafts of a chain, those that start a word are the first one and those that follow on
the end of another. -/
theorem countP_startsWord_chain (d : Draft) : d.chain.countP startsWord = d.readingEnds.length := by
  rw [readingEnds, List.length_append]
  induction d with
  | start => rfl
  | letter previous child bag ih =>
    rw [chain, List.countP_append, List.filterMap_append, List.length_append, ih]
    rfl
  | word previous state root ih =>
    rw [chain, List.countP_append, List.filterMap_append, List.length_append, ih]
    rfl

theorem phrases_eq_sections (hends : ∀ t ∈ d.readingEnds, t.endsWord = true) :
    d.phrases = d.choices.sections := by
  have hfold : ∀ ends : List Trie, (∀ t ∈ ends, t.endsWord = true) →
      ends.reverse.foldl prepend [[]] = (ends.map Trie.spellings).sections := by
    intro ends hends
    rw [List.foldl_reverse]
    induction ends with
    | nil => rfl
    | cons t ends ih =>
      rw [List.foldr_cons, ih fun u hu => hends u (List.mem_cons_of_mem _ hu),
        prepend_of_endsWord (hends t (by simp))]
      rfl
  rw [phrases, wordEnds_eq_reverse]
  exact hfold d.readingEnds hends

end Draft

/-! ## Complete drafts -/

namespace Automaton

variable {a : Automaton} {root : Trie} {state : Nat} {bag : Bag} {d : Draft}

/-- Before every word that a search starts another one has ended, at a node of some trie. -/
theorem Descends.ends {R : Trie → Prop} (hbound : ∀ id root, a.trie? id = some root → R root)
    (hroot : R root) (h : a.Descends (.start root state bag) d) :
    ∀ t ∈ d.wordEndsFrom false,
      t.endsWord = true ∧ ∃ root path, R root ∧ root.walk path = some t := by
  refine h.induction_last (P := fun d => ∀ t ∈ d.wordEndsFrom false,
    t.endsWord = true ∧ ∃ root path, R root ∧ root.walk path = some t) nofun
    fun e f he ih hf => ?_
  rcases (mem_successors.1 hf).2 with hletter | hword
  · obtain ⟨i, -, child, rest, -, -, rfl⟩ := mem_nextLetters.1 hletter
    exact ih
  · obtain ⟨hends, target, -, next, -, rfl⟩ := mem_nextWords.1 hword
    intro t ht
    have hword : (Draft.word e target next).wordEndsFrom false = e.wordEnds := rfl
    rw [hword, Draft.wordEnds_eq_cons] at ht
    rcases List.mem_cons.1 ht with rfl | ht
    · exact ⟨hends, he.exists_walk hbound hroot⟩
    · exact ih t ht

/-- The phrases of a complete draft that a search comes to are the choices of one spelling for each
of its words, each choice once, by the positions of the spellings, the last word first.  There is at
least one, there are as many as the product of the numbers of spellings, and each has as many words
as drafts of the chain start one.  The loop that reads them from the end of the chain reads the
same. -/
theorem phrases_of_completes (hbound : ∀ id t, a.trie? id = some t → t.Built) (hroot : root.Built)
    (h : a.Descends (.start root state bag) d) (hcomplete : a.completes d = true) :
    (∀ phrase, phrase ∈ d.phrases ↔
      List.Forall₂ (fun word t => word ∈ t.spellings) phrase d.readingEnds) ∧
    d.phrases.Pairwise (fun v w =>
      (Draft.positions d.choices v).reverse < (Draft.positions d.choices w).reverse) ∧
    d.phrases.Nodup ∧
    d.phrases.length = (d.readingEnds.map fun t => t.spellings.length).prod ∧
    d.phrases ≠ [] ∧
    (∀ phrase ∈ d.phrases, phrase.length = d.length) ∧
    d.length = d.readingEnds.length ∧ d.length = d.chain.countP Draft.startsWord ∧
    d.collect = d.phrases := by
  obtain ⟨-, hends, -⟩ := completes_iff.1 hcomplete
  have hnodes : ∀ t ∈ d.wordEnds,
      t.endsWord = true ∧ ∃ (top : Trie) (path : List Nat), top.Built ∧ top.walk path = some t := by
    intro t ht
    rw [Draft.wordEnds_eq_cons] at ht
    rcases List.mem_cons.1 ht with rfl | ht
    · exact ⟨hends, h.exists_walk hbound hroot⟩
    · exact h.ends hbound hroot t ht
  have hreading : ∀ t ∈ d.readingEnds, t ∈ d.wordEnds := by
    intro t ht
    rw [Draft.wordEnds_eq_reverse]
    exact List.mem_reverse.2 ht
  have hsections := Draft.phrases_eq_sections fun t ht => (hnodes t (hreading t ht)).1
  have hnodup : ∀ spellings ∈ d.choices, spellings.Nodup := by
    intro spellings hs
    obtain ⟨t, ht, rfl⟩ := List.mem_map.1 hs
    obtain ⟨-, top, path, hbuilt, hwalk⟩ := hnodes t (hreading t ht)
    exact hbuilt.nodup_spellings hwalk
  refine ⟨fun phrase => ?_, ?_, ?_, ?_, Draft.phrases_ne_nil fun t ht => (hnodes t ht).1,
    fun phrase => Draft.length_of_mem_phrases fun t ht => (hnodes t ht).1, d.length_eq, ?_,
    d.collect_eq_phrases⟩
  · rw [hsections, List.mem_sections, Draft.choices, List.forall₂_map_right_iff]
  · rw [hsections]
    exact Draft.pairwise_sections hnodup
  · rw [hsections]
    exact Draft.nodup_sections hnodup
  · rw [hsections, Draft.length_sections, Draft.choices, List.map_map]
    rfl
  · rw [d.length_eq, d.countP_startsWord_chain]

/-- A trie of `Ab`, `ab`, `c` and `C`, with the letters numbered from zero. -/
def spellingsTrie : Trie :=
  .node [] [0, 2] (.cons 0 (.node [] [1] (.cons 1 (.node ["Ab", "ab"] [] .nil) .nil))
    (.cons 2 (.node ["c", "C"] [] .nil) .nil))

theorem built_spellingsTrie : spellingsTrie.Built :=
  .refreshJumps (.insert "C" [2] (.insert "c" [2] (.insert "ab" [0, 1] (.insert "Ab" [0, 1]
    .empty))))

/-- The draft of a word with two spellings and another one after it. -/
def twoWordDraft : Draft :=
  .letter (.word (.letter (.letter (.start spellingsTrie 2 ⟨#[1, 1, 1], 3⟩)
    (.node [] [1] (.cons 1 (.node ["Ab", "ab"] [] .nil) .nil)) ⟨#[0, 1, 1], 2⟩)
    (.node ["Ab", "ab"] [] .nil) ⟨#[0, 0, 1], 1⟩) 2 spellingsTrie)
    (.node ["c", "C"] [] .nil) ⟨#[0, 0, 0], 0⟩

theorem phrases_of_completes_of_two_words :
    (loopOf spellingsTrie).Descends (.start spellingsTrie 2 ⟨#[1, 1, 1], 3⟩) twoWordDraft ∧
      (loopOf spellingsTrie).completes twoWordDraft = true ∧
      twoWordDraft.phrases = [["Ab", "c"], ["ab", "c"], ["Ab", "C"], ["ab", "C"]] ∧
      twoWordDraft.phrases.Nodup ∧ twoWordDraft.phrases.length = 2 * 2 ∧
      ∀ phrase ∈ twoWordDraft.phrases, phrase.length = 2 := by
  have h : (loopOf spellingsTrie).Descends (.start spellingsTrie 2 ⟨#[1, 1, 1], 3⟩) twoWordDraft :=
    .step (.head _) (.step (.head _) (.step (.head _) (.step (.head _) (.refl _))))
  obtain ⟨-, -, hnodup, hlength, -, hwords, -⟩ :=
    phrases_of_completes (fun id t ht => eq_of_trie?_loopOf ht ▸ built_spellingsTrie)
      built_spellingsTrie h rfl
  exact ⟨h, rfl, by decide +kernel, hnodup, hlength, hwords⟩

end Automaton

end PhraseSearch
