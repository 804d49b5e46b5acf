import PhraseSearch.Automaton.OfNetwork
import PhraseSearch.Grammar.Inline

/-!
# Compiling grammars

A phrase has to match the first rule of a grammar.  `compile` inlines the rules and builds the
automaton of the first rule's pattern, in a network of its own: nothing but the pattern counts.
-/

namespace PhraseSearch

/-- The rules that a fault of a network names. -/
def Network.Fault.rules : Network.Fault → List String
  | .openReference rule => [rule]
  | .missing _ | .endless => []

/-- The automaton of a pattern. -/
def Pattern.compile (p : Pattern) : Except Network.Fault Automaton :=
  let (top, net) := Network.Planting.plantPattern p .empty
  match Network.Edit.automatonBelow top net with
  | .ok automaton _ => .ok automaton
  | .error fault _ => .error fault

namespace Grammar

/-- The automaton of the first rule.  Below the root of a closed rule there is always a tree. -/
def compile (g : Grammar) : Except Fault Automaton :=
  match g.inline with
  | (.error fault, _) => .error fault
  | (.ok (), g) =>
    match g.roots with
    | [] => .error .noRules
    | (name, top) :: _ =>
      match g.network.pattern? top with
      | none => .error (.recursion [name])
      | some pattern => pattern.compile.mapError fun fault => .recursion fault.rules

/-- The automaton of a grammar that is given by its lines. -/
def compileLines (lines : List String) : Except Fault Automaton := do
  (← ofLines lines).compile

end Grammar

end PhraseSearch
