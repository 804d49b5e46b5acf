import PhraseSearch.Automaton.Basic

/-!
# Binding in place

An automaton may be bound where it stands, one state after the other, and bound again to other tries.
Nothing takes a change back once it has been made, so it is looked for missing lists before the first.
`unbound` is what no binding changes.
-/

namespace PhraseSearch.Automaton

/-! ## What stays -/

/-- The label without its trie. -/
def Label.unbound : Label → Label
  | .word list _ => .word list none
  | label => label

/-- The state without its trie. -/
def State.unbound (state : State) : State := { state with label := state.label.unbound }

/-- The automaton without tries: what its states stand for, their list names and their edges. -/
def unbound (a : Automaton) : Automaton := ⟨a.states.map State.unbound⟩

/-! ## Binding -/

/-- An operation that binds states.  One that fails keeps the states that it has bound before. -/
abbrev Binding := EStateM MissingList Automaton

/-- Binds the state of an id to the trie of its list. -/
def bindState (tries : Catalog) (id : Nat) : Binding Unit :=
  modify fun a => ⟨a.states.modify id (·.bindTo tries)⟩

/-- Binds all states one after the other, unless a list is missing. -/
def attach (tries : Catalog) : Binding Unit := do
  let a ← get
  match a.neededLists.find? fun list => !tries.contains list with
  | some list => throw ⟨list⟩
  | none => (List.range a.size).forM (bindState tries)

/-- The automaton after an attempt to bind it, whatever became of it. -/
def attempted (a : Automaton) (tries : Catalog) : Automaton :=
  match attach tries a with
  | .ok _ b => b
  | .error _ b => b

/-- The automaton after attempts to bind it, one after the other. -/
def attemptedAll (a : Automaton) (catalogs : List Catalog) : Automaton :=
  catalogs.foldl attempted a

/-- Whether a catalog has all lists that are needed. -/
def serves (a : Automaton) (tries : Catalog) : Bool := a.neededLists.all tries.contains

/-- Whether a list is the least of those that are needed and missing. -/
structure LeastMissing (a : Automaton) (present : String → Bool) (name : String) : Prop where
  needed : name ∈ a.neededLists
  missing : present name = false
  least : ∀ other ∈ a.neededLists, present other = false → name ≤ other

end PhraseSearch.Automaton
