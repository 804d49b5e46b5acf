import PhraseSearch.Grammar.Compile

/-!
# Compiling in the grammar's own network

`compileInPlace` lowers the tree of the first rule where it stands, among all that the rules and
their inlining have left in the network, and new nodes are numbered after these.
-/

namespace PhraseSearch.Grammar

/-- The automaton of the first rule, built in the network that holds all rules. -/
def compileInPlace (g : Grammar) : Except Fault Automaton :=
  match g.inline with
  | (.error fault, _) => .error fault
  | (.ok (), g) =>
    match g.roots with
    | [] => .error .noRules
    | (_, top) :: _ =>
      match Network.Edit.automatonBelow top g.network with
      | .ok automaton _ => .ok automaton
      | .error fault _ => .error (.recursion fault.rules)

/-- The automaton of a grammar that is given by its lines, built in the network of its rules. -/
def compileLinesInPlace (lines : List String) : Except Fault Automaton := do
  (← ofLines lines).compileInPlace

end PhraseSearch.Grammar
