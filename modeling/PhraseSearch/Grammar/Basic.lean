import PhraseSearch.Grammar.Lines
import PhraseSearch.Network.Planting

/-!
# Grammars

The rules of a `Grammar` are trees in a common network.  Rules of one name are one rule with all
their alternatives; its root is an alternation.  References are left as they are; a name that no
rule has shows when the grammar is compiled.
-/

namespace PhraseSearch

/-- Rules by name, in the order of their first lines, with the roots of their trees. -/
structure Grammar where
  network : Network
  roots : List (String × Nat)

/-! ## Planting rules -/

namespace Network.Planting

/-- Adds alternatives to the alternation of a rule. -/
def addAlternatives (root : Nat) (alternatives : List Nat) : Planting Unit := fun net =>
  ((), net.update root (·.addAlternatives alternatives))

/-- Plants rules one after the other, and returns the names and roots of those that are new; `index`
holds the roots of the names so far.  A rule of such a name adds its alternatives to that root. -/
def plantRules (index : Std.TreeMap String Nat) :
    List Rule → Planting (List (String × Nat))
  | [] => pure []
  | rule :: rules => do
    let alternatives ← plantPatterns (rule.alternatives.map Pattern.ofAlternative)
    match index[rule.name]? with
    | some root => do
      addAlternatives root alternatives
      plantRules index rules
    | none => do
      let root ← plant (.alternation alternatives)
      return (rule.name, root) :: (← plantRules (index.insert rule.name root) rules)

end Network.Planting

namespace Grammar

/-! ## Building -/

/-- The grammar of some rules. -/
def ofRules (rules : List Rule) : Grammar :=
  let (roots, network) := Network.Planting.plantRules ∅ rules .empty
  ⟨network, roots⟩

/-- The grammar of some lines. -/
def ofLines (lines : List String) : Except Fault Grammar := (rulesOf lines).map ofRules

/-- The rule names in the order of their first lines. -/
def names (g : Grammar) : List String := g.roots.map Prod.fst

end Grammar

end PhraseSearch
