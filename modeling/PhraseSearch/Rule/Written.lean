import PhraseSearch.Rule.Basic
import PhraseSearch.Text.Numeric

/-!
# How rules are written

The grammar of rule lines as a relation between a rule and the texts that it may be written as.  It
says nothing of how a text is taken apart:

    rule        = name "->" body
    body        = alternative | alternative gap "|" gap body,          gap = "" | " "
    alternative = element | element " " alternative
    element     = ("<" name ">" | name) quantifier
    quantifier  = "" | "?" | "*" | "+" | "{n}" | "{n,}" | "{n,m}"

`Printable` holds of the rules that have a text at all.
-/

namespace PhraseSearch

open Text

/-! ## Elements -/

/-- Whether some ASCII digits write a number below 2^64. -/
structure Numeral (n : Nat) (digits : List Char) : Prop where
  nonempty : digits ≠ []
  digit : ∀ c ∈ digits, c.isDigit = true
  value : Nat.ofDigitChars 10 digits 0 = n
  bound : n < UInt64.size

/-- The quantifiers that stand for bounds, or for none. -/
inductive Bounds.Written : Option Bounds → List Char → Prop
  | none : Written none []
  | optional : Written (some ⟨0, some 1⟩) ['?']
  | any : Written (some ⟨0, .none⟩) ['*']
  | many : Written (some ⟨1, .none⟩) ['+']
  | exactly {n : Nat} {digits : List Char} (h : Numeral n digits) :
      Written (some ⟨n, some n⟩) ('{' :: digits ++ ['}'])
  | atLeast {n : Nat} {digits : List Char} (h : Numeral n digits) :
      Written (some ⟨n, .none⟩) ('{' :: digits ++ [',', '}'])
  | between {n m : Nat} {digits digits' : List Char} (h : Numeral n digits)
      (h' : Numeral m digits') (hle : n ≤ m) :
      Written (some ⟨n, some m⟩) ('{' :: digits ++ ',' :: digits' ++ ['}'])

/-- The name in an atom. -/
def Atom.name : Atom → String
  | list name => name
  | rule name => name

/-- The texts of an atom: a list name in angle brackets, or a rule name. -/
inductive Atom.Written : Atom → List Char → Prop
  | list {name : List Char} (h : isName name = true) :
      Written (.list (String.ofList name)) ('<' :: name ++ ['>'])
  | rule {name : List Char} (h : isName name = true) :
      Written (.rule (String.ofList name)) name

/-- An atom's text, and a quantifier right after it. -/
def Element.Written (e : Element) (cs : List Char) : Prop :=
  ∃ text quantifier, e.atom.Written text ∧ Bounds.Written e.bounds quantifier ∧
    cs = text ++ quantifier

namespace Rule

/-! ## Rules -/

/-- The texts of one element or more, with single spaces between them. -/
inductive AlternativeWritten : List Element → List Char → Prop
  | last {e : Element} {cs : List Char} (h : e.Written cs) : AlternativeWritten [e] cs
  | more {e : Element} {elements : List Element} {cs rest : List Char} (h : e.Written cs)
      (hrest : AlternativeWritten elements rest) :
      AlternativeWritten (e :: elements) (cs ++ ' ' :: rest)

/-- What may stand on either side of a bar. -/
def Gap (cs : List Char) : Prop := cs = [] ∨ cs = [' ']

/-- The texts of one alternative or more, with bars between them. -/
inductive BodyWritten : List (List Element) → List Char → Prop
  | last {elements : List Element} {cs : List Char} (h : AlternativeWritten elements cs) :
      BodyWritten [elements] cs
  | more {elements : List Element} {alternatives : List (List Element)}
      {cs before after rest : List Char} (h : AlternativeWritten elements cs)
      (hbefore : Gap before) (hafter : Gap after) (hrest : BodyWritten alternatives rest) :
      BodyWritten (elements :: alternatives) (cs ++ before ++ '|' :: (after ++ rest))

/-- The texts of a rule. -/
def Written (r : Rule) (cs : List Char) : Prop :=
  ∃ name body, isName name = true ∧ r.name = String.ofList name ∧
    BodyWritten r.alternatives body ∧ cs = name ++ '-' :: '>' :: body

end Rule

/-! ## What can be written -/

/-- Whether an element has a name, and bounds below 2^64 that are not reversed. -/
structure Element.Printable (e : Element) : Prop where
  name : isName e.atom.name.toList = true
  low : ∀ b ∈ e.bounds, b.low < UInt64.size
  high : ∀ b ∈ e.bounds, ∀ high ∈ b.high, b.low ≤ high ∧ high < UInt64.size

instance (e : Element) : Decidable e.Printable :=
  decidable_of_iff (isName e.atom.name.toList = true ∧ (∀ b ∈ e.bounds, b.low < UInt64.size) ∧
    ∀ b ∈ e.bounds, ∀ high ∈ b.high, b.low ≤ high ∧ high < UInt64.size)
    ⟨fun h => ⟨h.1, h.2.1, h.2.2⟩, fun h => ⟨h.name, h.low, h.high⟩⟩

/-- Whether a rule has a name, alternatives, and in each of them elements, all of which can be
written. -/
structure Rule.Printable (r : Rule) : Prop where
  name : isName r.name.toList = true
  alternatives : r.alternatives ≠ []
  nonempty : ∀ elements ∈ r.alternatives, elements ≠ []
  elements : ∀ elements ∈ r.alternatives, ∀ e ∈ elements, e.Printable

instance (r : Rule) : Decidable r.Printable :=
  decidable_of_iff (isName r.name.toList = true ∧ r.alternatives ≠ [] ∧
    (∀ elements ∈ r.alternatives, elements ≠ []) ∧
    ∀ elements ∈ r.alternatives, ∀ e ∈ elements, e.Printable)
    ⟨fun h => ⟨h.1, h.2.1, h.2.2.1, h.2.2.2⟩,
      fun h => ⟨h.name, h.alternatives, h.nonempty, h.elements⟩⟩

end PhraseSearch
