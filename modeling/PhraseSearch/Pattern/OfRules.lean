import PhraseSearch.Pattern
import PhraseSearch.Rule.Derivation

/-!
# Patterns of rules

The pattern that a name stands for, without a network: the alternation of all its alternatives.
`replace` puts patterns in the place of references, all at once.
-/

namespace PhraseSearch.Pattern

/-- The pattern of a name: all its alternatives, in the order of the rules. -/
def ofRules (rules : List Rule) (name : String) : Pattern :=
  alternation ((Rule.alternativesOf rules name).map ofAlternative)

mutual

/-- The pattern with other patterns in the place of references; a reference for which there is none
stays. -/
def replace (trees : String → Option Pattern) : Pattern → Pattern
  | connector => connector
  | terminal list => terminal list
  | sequence items => sequence (replaceAll trees items)
  | alternation alternatives => alternation (replaceAll trees alternatives)
  | repetition inner bounds => repetition (inner.replace trees) bounds
  | reference rule => (trees rule).getD (reference rule)

/-- Replaces references in every pattern of a list. -/
def replaceAll (trees : String → Option Pattern) : List Pattern → List Pattern
  | [] => []
  | p :: ps => p.replace trees :: replaceAll trees ps

end

theorem replaceAll_eq_map (trees : String → Option Pattern) (ps : List Pattern) :
    replaceAll trees ps = ps.map (·.replace trees) := by
  induction ps with
  | nil => rfl
  | cons p ps ih => simp [replaceAll, ih]

end PhraseSearch.Pattern
