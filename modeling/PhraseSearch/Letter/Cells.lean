import Std.Data.HashMap
import PhraseSearch.Letter.Removal

/-!
# Letters in cells

A phrase may be counted in place.  There is a cell of 32 bits for every index, and a total of 64 bits;
both are raised letter by letter, until one is unknown, and the index of a letter is looked up in a
table.  A cell that is full goes on from zero, so cells hold the bag of a phrase as long as no letter
occurs 2^32 times.  The total never gets full, since no phrase is that long.
-/

namespace PhraseSearch

/-- Counts of letters in cells of machine words, by index, and their total. -/
structure Cells where
  counts : Array UInt32
  total : UInt64
deriving DecidableEq

namespace Cells

/-- Cells without letters over `size` indices. -/
def empty (size : Nat) : Cells := ⟨Array.replicate size 0, 0⟩

/-- What the cell of an index holds; zero for an index out of range. -/
def get (cells : Cells) (i : Nat) : UInt32 := (cells.counts[i]?).getD 0

/-- The cells with one more letter of index `i`. -/
def add (cells : Cells) (i : Nat) : Cells := ⟨cells.counts.modify i (· + 1), cells.total + 1⟩

/-- The cells with one letter of index `i` less; nothing if none is left. -/
def remove? (cells : Cells) (i : Nat) : Option Cells :=
  if 0 < cells.get i then some ⟨cells.counts.modify i (· - 1), cells.total - 1⟩ else none

/-- The cells with one letter less for each index of a list, one after the other. -/
def removeAll? (cells : Cells) (path : List Nat) : Option Cells := path.foldlM remove? cells

/-- The bag that cells hold. -/
def bag (cells : Cells) : Bag := ⟨cells.counts.map UInt32.toNat, cells.total.toNat⟩

end Cells

/-- What is left of a bag in cells of 32 bits. -/
def Bag.inCells (b : Bag) : Bag := { b with counts := b.counts.map (· % UInt32.size) }

namespace Alphabet

/-- Letters are hashed by their code points. -/
instance : Hashable Char where
  hash c := c.val.toUInt64

/-- The indices of the letters, by letter. -/
def table (a : Alphabet) : Std.HashMap Char Nat := .ofList a.letters.zipIdx

/-- Raises the cells of letters one after the other, up to the first that is unknown, and says
whether there was none. -/
def fillFrom (a : Alphabet) : List Char → Cells → Cells × Bool
  | [], cells => (cells, true)
  | c :: cs, cells =>
    match a.table[c]? with
    | some i => a.fillFrom cs (cells.add i)
    | none => (cells, false)

/-- Raises the cells of a text's letters. -/
def fill (a : Alphabet) (text : String) (cells : Cells) : Cells × Bool :=
  a.fillFrom (a.normalize.canonical text) cells

/-- Raises the cells of the letters of words one after the other, up to the first word that has an
unknown letter. -/
def fillWords (a : Alphabet) : List String → Cells → Cells × Bool
  | [], cells => (cells, true)
  | word :: words, cells =>
    match a.fill word cells with
    | (cells, true) => a.fillWords words cells
    | (cells, false) => (cells, false)

/-- The cells of a phrase's letters; cells that have been raised in part are not given away. -/
def cellsOf (a : Alphabet) (phrase : String) : Except UnknownLetter Cells :=
  match a.fill phrase (.empty a.size) with
  | (cells, true) => .ok cells
  | (_, false) => .error (.inPhrase phrase)

/-- The cells of the letters of a phrase that is given word by word. -/
def cellsOfWords (a : Alphabet) (words : List String) : Except UnknownLetter Cells :=
  match a.fillWords words (.empty a.size) with
  | (cells, true) => .ok cells
  | (_, false) => .error (.inPhrase (" ".intercalate words))

end Alphabet

end PhraseSearch
