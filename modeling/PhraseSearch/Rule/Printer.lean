import PhraseSearch.Rule.Basic

/-!
# Writing rules

`print` writes a rule in the form that the reader of rules takes: the name, an arrow, and the
alternatives with `|` between them.  Repetitions are written with explicit bounds.
-/

namespace PhraseSearch

/-- Bounds between braces: `{n,}` or `{n,m}`. -/
def Bounds.print (b : Bounds) : List Char :=
  '{' :: Nat.toDigits 10 b.low ++ ',' ::
    ((match b.high with
      | none => []
      | some high => Nat.toDigits 10 high) ++ ['}'])

/-- A list name in angle brackets, or a plain rule name. -/
def Atom.print : Atom → List Char
  | .list name => '<' :: name.toList ++ ['>']
  | .rule name => name.toList

/-- An atom and its bounds, if it has any. -/
def Element.print (e : Element) : List Char :=
  e.atom.print ++ (match e.bounds with
    | none => []
    | some bounds => bounds.print)

namespace Rule

/-- Elements with single spaces between them. -/
def printAlternative (elements : List Element) : List Char :=
  [' '].intercalate (elements.map Element.print)

/-- A rule on one line. -/
def print (r : Rule) : List Char :=
  r.name.toList ++ '-' :: '>' :: ['|'].intercalate (r.alternatives.map printAlternative)

end Rule

end PhraseSearch
