import PhraseSearch.Letter.Bag
import PhraseSearch.Letter.Tally

/-!
# Alphabets

An `Alphabet` gives every canonical letter of a collection of words an index: the most frequent
letter comes first, letters of equal frequency follow each other by code point.  Words are
spelled as lists of indices, phrases are counted to bags; both fail on a letter that occurs in
none of the words.

    a.position? c = some i ↔ a.letterAt? i = some c                     (position?_eq_some_iff)
    c ∈ (ofTally f t).letters ↔ c ∈ t.letters                           (mem_letters_ofTally)
-/

namespace PhraseSearch

/-- The index of the canonical letters, and the normalizer that makes letters canonical. -/
structure Alphabet where
  normalize : Normalizer
  letters : List Char
  nodup : letters.Nodup

/-- A text holds a letter that the alphabet lacks. -/
inductive UnknownLetter where
  | inWord (text : String)
  | inPhrase (text : String)
deriving DecidableEq

namespace UnknownLetter

def message : UnknownLetter → String
  | inWord text => s!"word '{text}' contains characters absent from every word list"
  | inPhrase text => s!"phrase '{text}' contains characters absent from every word list"

end UnknownLetter

namespace Alphabet

/-! ## Building -/

/-- Whether the first letter comes before the second: more frequent, or as frequent and not
greater. -/
def comesBefore : Char × Nat → Char × Nat → Bool
  | (c, n), (d, m) => m < n || (m == n && decide (c ≤ d))

/-- The alphabet of the letters of a tally. -/
def ofTally (normalize : Normalizer) (tally : Tally) : Alphabet where
  normalize
  letters := (tally.entries.mergeSort comesBefore).map Prod.fst
  nodup := (((List.mergeSort_perm tally.entries comesBefore).map Prod.fst).nodup_iff).2 tally.nodup

/-- The alphabet of a collection of words that comes in batches. -/
def ofBatches (normalize : Normalizer) (batches : List (List String)) : Alphabet :=
  ofTally normalize (batches.foldl (Tally.addTexts normalize) Tally.empty)

/-! ## Look-up -/

/-- The number of letters. -/
def size (a : Alphabet) : Nat := a.letters.length

/-- Whether there is no letter. -/
def isEmpty (a : Alphabet) : Bool := a.letters.isEmpty

/-- The index of a canonical letter. -/
def position? (a : Alphabet) (letter : Char) : Option Nat := a.letters.idxOf? letter

/-- The index of the canonical form of a character. -/
def indexOf? (a : Alphabet) (c : Char) : Option Nat := (a.normalize c).bind a.position?

/-- The letter of an index. -/
def letterAt? (a : Alphabet) (i : Nat) : Option Char := a.letters[i]?

/-! ## Spelling and counting -/

/-- The indices of a word's letters, in order. -/
def spell (a : Alphabet) (word : String) : Except UnknownLetter (List Nat) :=
  match (a.normalize.canonical word).mapM a.position? with
  | some path => .ok path
  | none => .error (.inWord word)

/-- Adds the letters of a text to a bag, one after the other; nothing if one is unknown. -/
def addText? (a : Alphabet) (bag : Bag) (text : String) : Option Bag :=
  (a.normalize.canonical text).foldlM (fun bag c => (a.position? c).map bag.add) bag

/-- The bag of a phrase's letters. -/
def bagOf (a : Alphabet) (phrase : String) : Except UnknownLetter Bag :=
  match a.addText? (Bag.empty a.size) phrase with
  | some bag => .ok bag
  | none => .error (.inPhrase phrase)

/-- The bag of the letters of a phrase that is given word by word. -/
def bagOfWords (a : Alphabet) (words : List String) : Except UnknownLetter Bag :=
  match words.foldlM a.addText? (Bag.empty a.size) with
  | some bag => .ok bag
  | none => .error (.inPhrase (" ".intercalate words))

/-! ## Lemmas -/

theorem position?_eq_some_iff {a : Alphabet} {c : Char} {i : Nat} :
    a.position? c = some i ↔ a.letterAt? i = some c := by
  rw [position?, letterAt?, List.idxOf?_eq_some_iff]
  constructor
  · rintro ⟨h, hc, -⟩
    exact List.getElem?_eq_some_iff.2 ⟨h, by simpa using hc⟩
  · intro h
    obtain ⟨hi, hc⟩ := List.getElem?_eq_some_iff.1 h
    refine ⟨hi, by simpa using hc, fun j hj hjc => ?_⟩
    have hjc : a.letters[j] = c := by simpa using hjc
    exact List.pairwise_iff_getElem.1 a.nodup j i (Nat.lt_trans hj hi) hi hj (hjc.trans hc.symm)

theorem mem_letters_ofTally {normalize : Normalizer} {tally : Tally} {c : Char} :
    c ∈ (ofTally normalize tally).letters ↔ c ∈ tally.letters :=
  ((List.mergeSort_perm tally.entries comesBefore).map Prod.fst).mem_iff

end Alphabet

end PhraseSearch
