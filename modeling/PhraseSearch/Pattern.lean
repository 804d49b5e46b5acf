import PhraseSearch.Rule.Basic

/-!
# Patterns

A `Pattern` says which sequences of list names a phrase may be made of.  It is what a rule is
written as, and what the tree below a node of a network is when it is read without ids.
-/

namespace PhraseSearch

/-- Which sequences of list names a phrase may be made of. -/
inductive Pattern where
  /-- no word: a connector, the start or the end -/
  | connector
  /-- one word of the named list -/
  | terminal (list : String)
  /-- the items one after another -/
  | sequence (items : List Pattern)
  /-- any one of the alternatives -/
  | alternation (alternatives : List Pattern)
  /-- the inner pattern, repeated -/
  | repetition (inner : Pattern) (bounds : Bounds)
  /-- whatever the named rule stands for -/
  | reference (rule : String)

namespace Pattern

/-- The pattern of an atom. -/
def ofAtom : Atom → Pattern
  | .list name => terminal name
  | .rule name => reference name

/-- The pattern of an element. -/
def ofElement (e : Element) : Pattern :=
  match e.bounds with
  | none => ofAtom e.atom
  | some bounds => repetition (ofAtom e.atom) bounds

/-- The pattern of an alternative; a single element stands for itself. -/
def ofAlternative : List Element → Pattern
  | [e] => ofElement e
  | elements => sequence (elements.map ofElement)

mutual

/-- The rules that are referred to, from left to right. -/
def references : Pattern → List String
  | sequence items => allReferences items
  | alternation alternatives => allReferences alternatives
  | repetition inner _ => inner.references
  | reference rule => [rule]
  | connector => []
  | terminal _ => []

/-- The rules that any of the patterns refers to. -/
def allReferences : List Pattern → List String
  | [] => []
  | p :: ps => p.references ++ allReferences ps

end

end Pattern

end PhraseSearch
