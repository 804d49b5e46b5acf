import PhraseSearch.Automaton.Basic
import PhraseSearch.Search.Draft

/-!
# One step of a search

A draft with letters left is expanded to its successors: one letter further along every branch
whose letter is left, and, where a word ends, to the first letters of the next word at every word
state that an edge leads to.  A draft without letters has no successors; it is complete if a word
ends there and an edge leads to the end.

    a draft without letters has no successors                          (successors_of_isEmpty)
-/

namespace PhraseSearch

namespace Draft

/-- The drafts that place one more letter of the word, by ascending letter. -/
def nextLetters (d : Draft) : List Draft :=
  let trie := d.trie
  let bag := d.bag
  trie.jumps.filterMap fun i =>
    match bag.remove? i with
    | none => none
    | some rest => (trie.child? i).map fun child => .letter d child rest

end Draft

namespace Automaton

/-- The drafts that start the next word, in the order of the edges. -/
def nextWords (a : Automaton) (d : Draft) : List Draft :=
  if d.trie.endsWord then
    (a.edges d.state).filterMap fun target => (a.trie? target).map (.word d target ·)
  else []

/-- The drafts that a draft is expanded to. -/
def successors (a : Automaton) (d : Draft) : List Draft :=
  if d.bag.isEmpty then [] else d.nextLetters ++ a.nextWords d

/-- Whether a draft stands for phrases that are to be handed over. -/
def completes (a : Automaton) (d : Draft) : Bool :=
  d.bag.isEmpty && d.trie.endsWord && (a.edges d.state).contains finish

/-- The drafts at which the search for a bag of letters begins: one for every word state that an
edge leads to from the start. -/
def starts (a : Automaton) (bag : Bag) : List Draft :=
  (a.edges start).filterMap fun target => (a.trie? target).map (.start · target bag)

/-! ## Lemmas -/

theorem successors_of_isEmpty {a : Automaton} {d : Draft} (h : d.bag.isEmpty = true) :
    a.successors d = [] := by
  simp [successors, h]

theorem mem_nextLetters {d e : Draft} :
    e ∈ d.nextLetters ↔ ∃ i ∈ d.trie.jumps, ∃ child bag, d.trie.child? i = some child ∧
      d.bag.remove? i = some bag ∧ e = .letter d child bag := by
  simp only [Draft.nextLetters, List.mem_filterMap]
  refine exists_congr fun i => and_congr_right fun _ => ?_
  cases hb : d.bag.remove? i with
  | none => exact ⟨nofun, fun ⟨_, _, _, h, _⟩ => nomatch h⟩
  | some rest =>
    rw [Option.map_eq_some_iff]
    exact ⟨fun ⟨child, hc, he⟩ => ⟨child, rest, hc, rfl, he.symm⟩,
      fun ⟨child, _, hc, hr, he⟩ => ⟨child, hc, by cases hr; exact he.symm⟩⟩

theorem mem_nextWords {a : Automaton} {d e : Draft} :
    e ∈ a.nextWords d ↔ d.trie.endsWord = true ∧ ∃ target ∈ a.edges d.state, ∃ root,
      a.trie? target = some root ∧ e = .word d target root := by
  rw [nextWords]
  split
  · next h => simp [h, List.mem_filterMap, Option.map_eq_some_iff, eq_comm (b := e)]
  · next h => simp [h]

end Automaton

end PhraseSearch
