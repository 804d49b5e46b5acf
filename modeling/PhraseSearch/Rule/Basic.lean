/-!
# Rules

A rule gives a name to a choice of alternatives; each alternative is a sequence of elements.  An
element is one word of a list or a reference to a rule, and may be repeated.  `Rule.Fault` lists
what can be wrong with the text of a rule.
-/

namespace PhraseSearch

/-- How often an element is repeated: at least `low` times and at most `high` times, without limit
if there is no `high`. -/
structure Bounds where
  low : Nat
  high : Option Nat
deriving DecidableEq

/-- Whether the upper bound lies below the lower one. -/
def Bounds.isReversed (b : Bounds) : Bool := b.high.any (· < b.low)

/-- What an element stands for, repetition apart. -/
inductive Atom where
  /-- one word of the named list -/
  | list (name : String)
  /-- whatever the named rule stands for -/
  | rule (name : String)
deriving DecidableEq

/-- An atom, repeated if it has bounds. -/
structure Element where
  atom : Atom
  bounds : Option Bounds
deriving DecidableEq

/-- A name and its alternatives. -/
structure Rule where
  name : String
  alternatives : List (List Element)
deriving DecidableEq

namespace Rule

/-- What is wrong with the text of a rule. -/
inductive Fault where
  | noArrow
  | invalidName (name : String)
  | emptyBody
  | emptyAlternative
  | unclosedList (element : String)
  | invalidListName (element : String)
  | invalidElement (element : String)
  | reversedBounds (element : String)
deriving DecidableEq

def Fault.message : Fault → String
  | .noArrow => "expected '->'"
  | .invalidName name => s!"invalid rule name '{name}'"
  | .emptyBody => "empty rule body"
  | .emptyAlternative => "empty alternative"
  | .unclosedList element => s!"unclosed '<' in '{element}'"
  | .invalidListName element => s!"invalid word list name in '{element}'"
  | .invalidElement element => s!"cannot parse expression '{element}'"
  | .reversedBounds element => s!"repetition upper bound below lower bound in '{element}'"

end Rule

end PhraseSearch
