import PhraseSearch.Automaton.Basic

/-!
# Paths through an automaton

An accepting path leads from the start along edges to the end; it is given by the states in
between.  An automaton *accepts* the sequences of list names along such paths.
-/

namespace PhraseSearch.Automaton

/-- A path along edges, given by the states between its ends. -/
inductive Path (a : Automaton) : Nat → List Nat → Nat → Prop
  | last {source target : Nat} (edge : target ∈ a.edges source) : Path a source [] target
  | step {source next target : Nat} {between : List Nat} (edge : next ∈ a.edges source)
      (rest : Path a next between target) : Path a source (next :: between) target

/-- A path from the start to the end. -/
def AcceptingPath (a : Automaton) (between : List Nat) : Prop :=
  a.Path start between finish

/-- Whether an accepting path carries these list names. -/
def Accepts (a : Automaton) (lists : List String) : Prop :=
  ∃ between, a.AcceptingPath between ∧ between.map a.list? = lists.map some

theorem Path.append {a : Automaton} {i j k : Nat} {p q : List Nat} (h : a.Path i p j)
    (h' : a.Path j q k) : a.Path i (p ++ j :: q) k := by
  induction h with
  | last edge => exact .step edge h'
  | step edge _ ih => exact .step edge (ih h')

end PhraseSearch.Automaton
