import PhraseSearch.Letter.Bag
import PhraseSearch.Trie.Basic

/-!
# Drafts of phrases

A `Draft` is one step of a search: a state of the automaton, a node in the trie of that state's
list, and the letters left to place.  It keeps the draft that it came from, so drafts share their
history.  A word starts where the search begins and wherever it goes on to a new state; it ends
just before that, and at the last draft.

`phrases` reads off all phrases that a finished draft stands for: one spelling for every trie node
at which a word ends.

    every phrase has as many words as the draft counts                 (length_of_mem_phrases)
-/

namespace PhraseSearch

/-- A partial phrase. -/
inductive Draft where
  /-- nothing placed yet, at the root of a state's trie -/
  | start (root : Trie) (state : Nat) (bag : Bag)
  /-- one letter further into the word -/
  | letter (previous : Draft) (child : Trie) (bag : Bag)
  /-- a word done, and the next one to be started at another state -/
  | word (previous : Draft) (state : Nat) (root : Trie)

namespace Draft

/-! ## Reading -/

/-- The trie node that the word has come to. -/
def trie : Draft → Trie
  | start root _ _ => root
  | letter _ child _ => child
  | word _ _ root => root

/-- The automaton state that the word belongs to. -/
def state : Draft → Nat
  | start _ state _ => state
  | letter previous _ _ => previous.state
  | word _ state _ => state

/-- The letters left to place. -/
def bag : Draft → Bag
  | start _ _ bag => bag
  | letter _ _ bag => bag
  | word previous _ _ => previous.bag

/-- The draft that this one came from. -/
def previous? : Draft → Option Draft
  | start _ _ _ => none
  | letter previous _ _ => some previous
  | word previous _ _ => some previous

/-- Whether a word starts here. -/
def startsWord : Draft → Bool
  | start _ _ _ => true
  | letter _ _ _ => false
  | word _ _ _ => true

/-- The number of drafts before this one. -/
def depth : Draft → Nat
  | start _ _ _ => 0
  | letter previous _ _ => previous.depth + 1
  | word previous _ _ => previous.depth + 1

/-! ## Phrases -/

/-- The trie nodes at which a word ends, the last word first, given whether one ends here. -/
def wordEndsFrom : Draft → Bool → List Trie
  | start root _ _, endsHere => if endsHere then [root] else []
  | letter previous child _, endsHere =>
    if endsHere then child :: previous.wordEndsFrom false else previous.wordEndsFrom false
  | word previous _ root, endsHere =>
    if endsHere then root :: previous.wordEndsFrom true else previous.wordEndsFrom true

/-- The trie nodes at which a word ends, the last word first. -/
def wordEnds (d : Draft) : List Trie := d.wordEndsFrom true

/-- Puts every spelling of a word in front of every phrase.  A node without spellings adds
nothing. -/
def prepend (phrases : List (List String)) (wordEnd : Trie) : List (List String) :=
  match wordEnd.spellings with
  | [] => phrases
  | spellings => phrases.flatMap fun phrase => spellings.map fun word => word :: phrase

/-- The phrases that a finished draft stands for. -/
def phrases (d : Draft) : List (List String) := d.wordEnds.foldl prepend [[]]

/-- The number of words of a phrase. -/
def length (d : Draft) : Nat := d.wordEnds.length

/-! ## Lemmas -/

theorem length_of_mem_foldl_prepend {ends : List Trie} (hends : ∀ t ∈ ends, t.endsWord = true) :
    ∀ {phrases : List (List String)} {n : Nat}, (∀ p ∈ phrases, p.length = n) →
      ∀ p ∈ ends.foldl prepend phrases, p.length = n + ends.length := by
  induction ends with
  | nil => intro phrases n h p hp; simpa using h p hp
  | cons t ends ih =>
    intro phrases n h p hp
    have hstep : ∀ q ∈ prepend phrases t, q.length = n + 1 := by
      intro q hq
      have ht := hends t (by simp)
      rw [prepend] at hq
      split at hq
      · next hnil => simp [Trie.endsWord, hnil] at ht
      · simp only [List.mem_flatMap, List.mem_map] at hq
        obtain ⟨p, hp, w, -, rfl⟩ := hq
        simp [h p hp]
    have := ih (fun s hs => hends s (List.mem_cons_of_mem _ hs)) hstep p hp
    simp only [List.length_cons]
    omega

theorem length_of_mem_phrases {d : Draft} (hends : ∀ t ∈ d.wordEnds, t.endsWord = true)
    {p : List String} (hp : p ∈ d.phrases) : p.length = d.length := by
  have hempty : ∀ p ∈ ([[]] : List (List String)), p.length = 0 := by simp
  have := length_of_mem_foldl_prepend hends hempty p hp
  simpa [length] using this

end Draft

end PhraseSearch
