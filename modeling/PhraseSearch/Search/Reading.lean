import PhraseSearch.Search.Draft

/-!
# Reading a draft

The phrases of a draft are read from its end, word by word.  Read from the beginning, a draft is a
chain of drafts; a word ends before every draft that starts another one, and at the last draft.  A
phrase is a choice of one spelling for each of these words.

`collect` reads the phrases as a loop over the chain, from its last draft to its first.

    the loop reads the same phrases                                    (collect_eq_phrases)
-/

namespace PhraseSearch.Draft

/-! ## Chains -/

/-- The drafts that lead to this one, from the first one on, and this one. -/
def chain : Draft → List Draft
  | start root state bag => [start root state bag]
  | letter previous child bag => previous.chain ++ [letter previous child bag]
  | word previous state root => previous.chain ++ [word previous state root]

/-- The trie node at which a word ended when this draft started the next one. -/
def wordBefore? : Draft → Option Trie
  | word previous _ _ => some previous.trie
  | start _ _ _ | letter _ _ _ => none

/-- The trie nodes at which a word ends, the first word first. -/
def readingEnds (d : Draft) : List Trie := d.chain.filterMap wordBefore? ++ [d.trie]

/-! ## Choices -/

/-- The spellings that each word may have, the first word first. -/
def choices (d : Draft) : List (List String) := d.readingEnds.map Trie.spellings

/-- Which of the spellings a phrase has chosen for each word. -/
def positions (choices : List (List String)) (phrase : List String) : List Nat :=
  List.zipWith (fun spellings word => spellings.idxOf word) choices phrase

/-! ## Collecting from the end -/

/-- Puts every spelling of a word behind every sequence of words.  A single spelling is put behind
the sequences as they are. -/
def append (sequences : List (List String)) (wordEnd : Trie) : List (List String) :=
  match wordEnd.spellings with
  | [] => sequences
  | [only] => sequences.map fun sequence => sequence ++ [only]
  | spellings => sequences.flatMap fun sequence => spellings.map fun word => sequence ++ [word]

/-- The sequences of the words that end at a draft or before it, last word first, behind those that
have been collected, given whether a word ends at the draft. -/
def collectFrom : Draft → Bool → List (List String) → List (List String)
  | start root _ _, endsHere, sequences => if endsHere then append sequences root else sequences
  | letter previous child _, endsHere, sequences =>
    previous.collectFrom false (if endsHere then append sequences child else sequences)
  | word previous _ root, endsHere, sequences =>
    previous.collectFrom true (if endsHere then append sequences root else sequences)

/-- The phrases that a finished draft stands for, read from its end. -/
def collect (d : Draft) : List (List String) := (d.collectFrom true [[]]).map List.reverse

/-! ## Lemmas -/

theorem map_reverse_append (sequences : List (List String)) (wordEnd : Trie) :
    (append sequences wordEnd).map List.reverse =
      prepend (sequences.map List.reverse) wordEnd := by
  rw [append, prepend]
  rcases wordEnd.spellings with _ | ⟨first, _ | ⟨second, rest⟩⟩
  · rfl
  · simp [List.flatMap_map, ← List.map_eq_flatMap]
  · simp [List.map_flatMap, List.flatMap_map, Function.comp_def]

theorem map_reverse_collectFrom (d : Draft) (endsHere : Bool) (sequences : List (List String)) :
    (d.collectFrom endsHere sequences).map List.reverse =
      (d.wordEndsFrom endsHere).foldl prepend (sequences.map List.reverse) := by
  induction d generalizing endsHere sequences with
  | start root state bag =>
    cases endsHere <;> simp [collectFrom, wordEndsFrom, map_reverse_append]
  | letter previous child bag ih =>
    cases endsHere <;> simp [collectFrom, wordEndsFrom, ih, map_reverse_append]
  | word previous state root ih =>
    cases endsHere <;> simp [collectFrom, wordEndsFrom, ih, map_reverse_append]

theorem collect_eq_phrases (d : Draft) : d.collect = d.phrases :=
  map_reverse_collectFrom d true [[]]

end PhraseSearch.Draft
