import PhraseSearch.Search.Run

/-!
# Depth-first search

The order in which a run hands over its drafts, as a plain recursion: below a draft the next words
come first, the last edge in front, and then the next letters, the greatest index in front.  `tree`
lists all drafts of a search in that order.  The budget is only there to end the recursion:
`DepthFirst` gives its equations without one.
-/

namespace PhraseSearch

/-- The draft that places one more letter of the word, if it is left and has a branch. -/
def Draft.place? (d : Draft) (i : Nat) : Option Draft :=
  (d.bag.remove? i).bind fun rest => (d.trie.child? i).map fun child => .letter d child rest

namespace Automaton

/-- The draft that starts the next word at a state, if it is a word state. -/
def enter? (a : Automaton) (d : Draft) (target : Nat) : Option Draft :=
  (a.trie? target).map (.word d target ·)

/-- All drafts that a search within the budget comes to below a draft, itself in front. -/
def tree (a : Automaton) : Nat → Draft → List Draft
  | 0, d => [d]
  | budget + 1, d => d :: (a.successors d).reverse.flatMap (a.tree budget)

/-- The complete drafts that a search within the budget finds below a draft. -/
def depthFirst (a : Automaton) : Nat → Draft → List Draft
  | 0, _ => []
  | budget + 1, d =>
    if d.bag.isEmpty then if a.completes d then [d] else []
    else
      (a.nextWords d).reverse.flatMap (a.depthFirst budget)
        ++ d.nextLetters.reverse.flatMap (a.depthFirst budget)

/-- What it means for a function to list the complete drafts below a draft depth first. -/
structure DepthFirst (a : Automaton) (dfs : Draft → List Draft) : Prop where
  /-- a draft without letters is found if a word ends there and an edge leads to the end -/
  complete {d : Draft} (empty : d.bag.isEmpty = true) (ends : d.trie.endsWord = true)
    (edge : finish ∈ a.edges d.state) : dfs d = [d]
  /-- otherwise there is nothing below it -/
  stuck {d : Draft} (empty : d.bag.isEmpty = true)
    (blocked : ¬(d.trie.endsWord = true ∧ finish ∈ a.edges d.state)) : dfs d = []
  /-- first come the next words, by the edges from the last one to the first, and then the letters,
  by the jumps from the last one to the first -/
  branch {d : Draft} (left : d.bag.isEmpty = false) :
    dfs d =
      (if d.trie.endsWord then (a.edges d.state).reverse.filterMap (a.enter? d) else []).flatMap dfs
        ++ (d.trie.jumps.reverse.filterMap d.place?).flatMap dfs

end Automaton

end PhraseSearch
