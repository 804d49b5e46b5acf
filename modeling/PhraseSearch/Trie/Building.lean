import PhraseSearch.Trie.Basic

/-!
# How tries come to be

A trie is built from the empty one by storing words and by computing the jumps, in any order.  It is
*finished* if the jumps were computed after the last word.  `after` is the trie after a list of such
changes, and `stored` says which words they store, and where.
-/

namespace PhraseSearch.Trie

/-- The tries that can be built. -/
inductive Built : Trie → Prop
  | empty : Built empty
  | insert {t : Trie} (word : String) (path : List Nat) (before : Built t) :
      Built (t.insert word path)
  | refreshJumps {t : Trie} (before : Built t) : Built t.refreshJumps

/-- Whether the jumps of a trie are those of the words that it holds. -/
def Finished (t : Trie) : Prop := ∃ u : Trie, u.Built ∧ t = u.refreshJumps

/-! ## Changes -/

/-- What is done to a trie while it is built. -/
inductive Change where
  /-- a word is stored at the end of a path -/
  | insert (word : String) (path : List Nat)
  /-- the jumps are computed -/
  | refreshJumps

/-- The trie after one change. -/
def change (t : Trie) : Change → Trie
  | .insert word path => t.insert word path
  | .refreshJumps => t.refreshJumps

/-- The trie after some changes, the first of which is made to the empty trie. -/
def after (changes : List Change) : Trie := changes.foldl change empty

/-- The word that a change stores, and its path. -/
def Change.stored? : Change → Option (String × List Nat)
  | .insert word path => some (word, path)
  | .refreshJumps => none

/-- The words that changes store, and their paths, in order. -/
def stored (changes : List Change) : List (String × List Nat) := changes.filterMap Change.stored?

/-- What a node shows, its branches apart. -/
structure Face where
  spellings : List String
  endsWord : Bool
  jumps : List Nat
deriving DecidableEq

/-- What the node at the end of a path shows. -/
def face? (t : Trie) (path : List Nat) : Option Face :=
  (t.walk path).map fun found => ⟨found.spellings, found.endsWord, found.jumps⟩

/-- Whether two nodes show the same, the order of the spellings apart. -/
structure Face.Alike (f f' : Face) : Prop where
  spellings : f.spellings.Perm f'.spellings
  endsWord : f.endsWord = f'.endsWord
  jumps : f.jumps = f'.jumps

end PhraseSearch.Trie
