import PhraseSearch.Letter.Alphabet

/-!
# Removing letters

The bags that a search meets begin as those of phrases, and lose a letter at a time.  `Obtained` says
which bags there are, and `removeAll?` removes the letters of several indices one after the other.
-/

namespace PhraseSearch.Bag

/-- The bags that there are: those without letters, those of phrases, given as one text or word by
word, and what is left of a bag without one of its letters. -/
inductive Obtained : Bag → Prop
  | empty (size : Nat) : Obtained (empty size)
  | ofPhrase {a : Alphabet} {phrase : String} {b : Bag} (counted : a.bagOf phrase = .ok b) :
      Obtained b
  | ofWords {a : Alphabet} {words : List String} {b : Bag} (counted : a.bagOfWords words = .ok b) :
      Obtained b
  | remove {b b' : Bag} {i : Nat} (before : Obtained b) (removed : b.remove? i = some b') :
      Obtained b'

/-- The bag with one letter less for each index of a list; nothing if one of them is not left when
it is its turn. -/
def removeAll? (b : Bag) (path : List Nat) : Option Bag := path.foldlM remove? b

end PhraseSearch.Bag
