import PhraseSearch.Pattern.OfRules

/-!
# Expansions

A name is *expanded* when every reference of its pattern has been replaced by the expansion of the
name that is referred to.  The derivation is a finite tree, so a name has an expansion only if
following references from it comes to an end, on names that there are.  A pattern some of whose
references have been replaced in this way is on its way to the expansion.
-/

namespace PhraseSearch.Pattern

/-- Whether a pattern is the expansion of a name, where `base` holds the patterns of `names`. -/
inductive Expands (base : String → Pattern) (names : List String) : String → Pattern → Prop
  | replace {name : String} (trees : String → Pattern) (known : name ∈ names)
      (below : ∀ r ∈ (base name).references, Expands base names r (trees r)) :
      Expands base names name ((base name).replace fun r => some (trees r))

/-- Whether a pattern is that of a name, with some references replaced by expansions. -/
def Expanding (base : String → Pattern) (names : List String) (name : String) (p : Pattern) :
    Prop :=
  ∃ trees : String → Option Pattern, p = (base name).replace trees ∧
    ∀ r q, trees r = some q → Expands base names r q

end PhraseSearch.Pattern
