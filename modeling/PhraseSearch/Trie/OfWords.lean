import PhraseSearch.Letter.Alphabet
import PhraseSearch.NameMap
import PhraseSearch.Trie.Basic

/-!
# Tries of word lists

`Trie.ofWords` stores every word of a list along its spelling in indices and computes the jumps.
Words without a canonical letter are left out, so nothing stands at the root.  A `Catalog` holds
one trie per list name.
-/

namespace PhraseSearch

/-- Stores the words of a list one after the other. -/
def Trie.insertWords (a : Alphabet) : List String → Trie → Except UnknownLetter Trie
  | [], t => .ok t
  | word :: words, t => do
    let path ← a.spell word
    insertWords a words (if path.isEmpty then t else t.insert word path)

/-- The trie of a word list. -/
def Trie.ofWords (a : Alphabet) (words : List String) : Except UnknownLetter Trie := do
  let t ← insertWords a words empty
  return t.refreshJumps

/-- Tries by list name. -/
abbrev Catalog := NameMap Trie

end PhraseSearch
