import PhraseSearch.Trie.OfWords

/-!
# Lexicons

A `Lexicon` is what a search reads: an alphabet made from all words of all lists, and one trie per
list.  Every letter of a word has been counted before the word is spelled, so building one
never meets an unknown letter.
-/

namespace PhraseSearch

/-- Word lists by name. -/
abbrev WordLists := NameMap (List String)

/-- An alphabet, and the tries that were built with it. -/
structure Lexicon where
  alphabet : Alphabet
  tries : Catalog

namespace Lexicon

/-- Adds the tries of the lists to a catalog, list by list. -/
def addTries (a : Alphabet) :
    List (String × List String) → Catalog → Except UnknownLetter Catalog
  | [], tries => .ok tries
  | (name, words) :: lists, tries => do
    let trie ← Trie.ofWords a words
    addTries a lists (tries.insert name trie)

/-- The lexicon of named lists, which are visited in the given order. -/
def ofLists (normalize : Normalizer) (lists : List (String × List String)) :
    Except UnknownLetter Lexicon := do
  let alphabet := Alphabet.ofBatches normalize (lists.map Prod.snd)
  return ⟨alphabet, ← addTries alphabet lists .empty⟩

/-- The lexicon of word lists. -/
def ofWordLists (normalize : Normalizer) (lists : WordLists) : Except UnknownLetter Lexicon :=
  ofLists normalize lists.entries

end Lexicon

end PhraseSearch
