import PhraseSearch.Trie.OfWords

/-!
# Automata

An `Automaton` is what a grammar is compiled to.  Its states are numbered; state 0 is the start,
state 1 the end, and every other state stands for one word of a list.  Edges carry no label:
reaching a state means that the next word comes from its list.

Before a search every word state is bound to the trie of its list, by `bind`.  Nothing is bound
unless every list is there.
-/

namespace PhraseSearch

namespace Automaton

/-- What a state stands for. -/
inductive Label where
  | start
  | finish
  /-- one word of the named list, whose trie may be bound -/
  | word (list : String) (trie : Option Trie)
deriving DecidableEq

/-- A state and the targets of its edges. -/
structure State where
  label : Label
  edges : List Nat
deriving DecidableEq

end Automaton

/-- The states, by number. -/
structure Automaton where
  states : Array Automaton.State
deriving DecidableEq

namespace Automaton

/-- A word list that is needed is not there. -/
structure MissingList where
  name : String
deriving DecidableEq

def MissingList.message (e : MissingList) : String :=
  s!"cannot find word list '{e.name}'"

/-! ## Reading -/

/-- The number of the start state. -/
def start : Nat := 0

/-- The number of the end state. -/
def finish : Nat := 1

/-- The number of states. -/
def size (a : Automaton) : Nat := a.states.size

/-- Whether there is no state. -/
def isEmpty (a : Automaton) : Bool := a.states.isEmpty

/-- The targets of a state's edges. -/
def edges (a : Automaton) (id : Nat) : List Nat :=
  match a.states[id]? with
  | some state => state.edges
  | none => []

/-- The list name of a label. -/
def Label.list? : Label → Option String
  | .word list _ => some list
  | _ => none

/-- The trie that is bound to a label. -/
def Label.trie? : Label → Option Trie
  | .word _ trie => trie
  | _ => none

/-- The list name of a word state. -/
def list? (a : Automaton) (id : Nat) : Option String :=
  (a.states[id]?).bind fun state => state.label.list?

/-- The trie that is bound to a word state. -/
def trie? (a : Automaton) (id : Nat) : Option Trie :=
  (a.states[id]?).bind fun state => state.label.trie?

/-- The names of the lists that the states need, ascending, each once. -/
def neededLists (a : Automaton) : List String :=
  (NameMap.ofList (a.states.toList.filterMap fun state =>
    state.label.list?.map fun list => (list, ()))).names

/-- Whether every word state is bound to a trie. -/
def isBound (a : Automaton) : Bool :=
  a.states.all fun state =>
    match state.label with
    | .word _ trie => trie.isSome
    | _ => true

/-! ## Binding -/

/-- The state with its list looked up in a catalog. -/
def State.bindTo (tries : Catalog) (state : State) : State :=
  match state.label with
  | .word list _ => { state with label := .word list (tries.get? list) }
  | _ => state

/-- Binds every word state to the trie of its list.  If lists are missing, the least of them is
reported and the automaton stays as it was. -/
def bind (a : Automaton) (tries : Catalog) : Except MissingList Automaton :=
  match a.neededLists.find? fun list => !tries.contains list with
  | some list => .error ⟨list⟩
  | none => .ok ⟨a.states.map (·.bindTo tries)⟩

end Automaton

end PhraseSearch
