import PhraseSearch.Trie.Building

/-!
# Tries in slots

A node may keep its branches in slots that are numbered by letter index.  There are as many slots as
the greatest index that has a branch asks for, and those of letters without a branch are free.
Whether a word ends at a node is noted when it is stored.  A `SlotTrie` is a trie of this form; `trie`
is the same trie without the free slots and the notes.
-/

namespace PhraseSearch

mutual

/-- A node with its branches in slots, and a note whether a word ends there. -/
inductive SlotTrie where
  | node (spellings : List String) (endsWord : Bool) (jumps : List Nat) (slots : Slots)

/-- Slots from some letter index on, each free or taken by a branch. -/
inductive Slots where
  | nil
  | free (rest : Slots)
  | taken (child : SlotTrie) (rest : Slots)

end

/-! ## Reading -/

namespace SlotTrie

/-- The trie without words. -/
def empty : SlotTrie := node [] false [] .nil

/-- The distinct words that end here, in the order in which they came. -/
def spellings : SlotTrie → List String
  | node spellings _ _ _ => spellings

/-- Whether it has been noted that a word ends here. -/
def endsWord : SlotTrie → Bool
  | node _ endsWord _ _ => endsWord

/-- The indices of the branches, as of the last time they were computed. -/
def jumps : SlotTrie → List Nat
  | node _ _ jumps _ => jumps

/-- The slots. -/
def slots : SlotTrie → Slots
  | node _ _ _ slots => slots

end SlotTrie

namespace Slots

/-- The branch in a slot, if there is such a slot and it is taken. -/
def get? : Slots → Nat → Option SlotTrie
  | nil, _ => none
  | free _, 0 => none
  | free rest, i + 1 => rest.get? i
  | taken child _, 0 => some child
  | taken _ rest, i + 1 => rest.get? i

/-- The numbers of the taken slots, the first slot having the given number. -/
def indicesFrom : Nat → Slots → List Nat
  | _, nil => []
  | i, free rest => rest.indicesFrom (i + 1)
  | i, taken _ rest => i :: rest.indicesFrom (i + 1)

end Slots

/-- The node below the branch of a letter. -/
def SlotTrie.child? (t : SlotTrie) (i : Nat) : Option SlotTrie := t.slots.get? i

/-- The node at the end of a path. -/
def SlotTrie.walk : SlotTrie → List Nat → Option SlotTrie
  | t, [] => some t
  | t, i :: path => (t.child? i).bind fun child => child.walk path

/-- What the node at the end of a path shows. -/
def SlotTrie.face? (t : SlotTrie) (path : List Nat) : Option Trie.Face :=
  (t.walk path).map fun found => ⟨found.spellings, found.endsWord, found.jumps⟩

mutual

/-- The number of distinct words at a node and below. -/
def SlotTrie.size : SlotTrie → Nat
  | .node spellings _ _ slots => spellings.length + slots.size

/-- The number of distinct words below all slots. -/
def Slots.size : Slots → Nat
  | .nil => 0
  | .free rest => rest.size
  | .taken child rest => child.size + rest.size

end

/-! ## Building -/

/-- Changes the branch in a slot; a free slot is taken by a new branch, and slots are added until
there is one of that number. -/
def Slots.update (change : SlotTrie → SlotTrie) : Nat → Slots → Slots
  | 0, nil => taken (change .empty) nil
  | 0, free rest => taken (change .empty) rest
  | 0, taken child rest => taken (change child) rest
  | i + 1, nil => free (nil.update change i)
  | i + 1, free rest => free (rest.update change i)
  | i + 1, taken child rest => taken child (rest.update change i)

/-- Stores a word at the end of a path, unless it stands there already, and notes that a word ends
there. -/
def SlotTrie.insert (word : String) : List Nat → SlotTrie → SlotTrie
  | [], .node spellings _ jumps slots =>
    .node (if word ∈ spellings then spellings else spellings ++ [word]) true jumps slots
  | i :: path, .node spellings endsWord jumps slots =>
    .node spellings endsWord jumps (slots.update (SlotTrie.insert word path) i)

mutual

/-- Computes the jumps of a node and of every node below. -/
def SlotTrie.refreshJumps : SlotTrie → SlotTrie
  | .node spellings endsWord _ slots =>
    .node spellings endsWord (slots.indicesFrom 0) slots.refreshJumps

/-- Computes the jumps of every node below the slots. -/
def Slots.refreshJumps : Slots → Slots
  | .nil => .nil
  | .free rest => .free rest.refreshJumps
  | .taken child rest => .taken child.refreshJumps rest.refreshJumps

end

/-- The trie after one change. -/
def SlotTrie.change (t : SlotTrie) : Trie.Change → SlotTrie
  | .insert word path => t.insert word path
  | .refreshJumps => t.refreshJumps

/-- The trie after some changes, the first of which is made to the empty trie. -/
def SlotTrie.after (changes : List Trie.Change) : SlotTrie := changes.foldl change empty

/-! ## The other form -/

mutual

/-- The trie without free slots and notes. -/
def SlotTrie.trie : SlotTrie → Trie
  | .node spellings _ jumps slots => .node spellings jumps (slots.branchesFrom 0)

/-- The branches in slots, the first of which has the given number. -/
def Slots.branchesFrom (i : Nat) : Slots → Branches
  | .nil => .nil
  | .free rest => rest.branchesFrom (i + 1)
  | .taken child rest => .cons i child.trie (rest.branchesFrom (i + 1))

end

mutual

/-- Whether the notes of all nodes are right. -/
def SlotTrie.Noted : SlotTrie → Prop
  | .node spellings endsWord _ slots => endsWord = !spellings.isEmpty ∧ slots.AllNoted

/-- Whether the notes of all nodes below the slots are right. -/
def Slots.AllNoted : Slots → Prop
  | .nil => True
  | .free rest => rest.AllNoted
  | .taken child rest => child.Noted ∧ rest.AllNoted

end

end PhraseSearch
