import PhraseSearch.Rule.Basic
import PhraseSearch.Rule.Line
import PhraseSearch.Text.Numeric

/-!
# Reading rules

`read` reads the canonical form of a rule line:

    rule        = name "->" alternative ("|" alternative)*
    alternative = element (" " element)*, possibly with a space at either end
    element     = ("<" name ">" | name) quantifier
    quantifier  = "" | "?" | "*" | "+" | "{n}" | "{n,}" | "{n,m}"

A name is a non-empty run of letters, numbers and underscores; `n` and `m` are decimal numbers
below 2^64 with `n ≤ m`.  The first fault from the left is reported.

    readNumber? (decimal digits of n) = some n below the bound        (readNumber?_toDigits)
-/

namespace PhraseSearch.Rule

open Text

/-! ## Quantifiers -/

/-- What the numbers of a repetition are less than: 2^64. -/
def numberBound : Nat := 18446744073709551616

/-- A decimal number below the bound: one or more ASCII digits. -/
def readNumber? (cs : List Char) : Option Nat :=
  if !cs.isEmpty && cs.all Char.isDigit then
    let n := Nat.ofDigitChars 10 cs 0
    if n < numberBound then some n else none
  else none

/-- What stands between the braces of a repetition: `n`, `n,` or `n,m`. -/
def readBounds? (cs : List Char) : Option Bounds := do
  let low := cs.takeWhile (· != ',')
  match cs.dropWhile (· != ',') with
  | [] =>
    let n ← readNumber? low
    return ⟨n, some n⟩
  | _ :: [] => return ⟨← readNumber? low, none⟩
  | _ :: high => return ⟨← readNumber? low, some (← readNumber? high)⟩

/-- The bounds that follow an atom; `some none` if there are none. -/
def readQuantifier? : List Char → Option (Option Bounds)
  | [] => some none
  | ['?'] => some (some ⟨0, some 1⟩)
  | ['*'] => some (some ⟨0, none⟩)
  | ['+'] => some (some ⟨1, none⟩)
  | '{' :: cs => if cs.getLast? = some '}' then (readBounds? cs.dropLast).map some else none
  | _ => none

/-! ## Elements, alternatives, rules -/

/-- The atom at the start of an element, and the quantifier text after it. -/
def readAtom : List Char → Except Fault (Atom × List Char)
  | '<' :: cs =>
    let name := cs.takeWhile (· != '>')
    match cs.dropWhile (· != '>') with
    | [] => .error (.unclosedList (String.ofList ('<' :: cs)))
    | _ :: quantifier =>
      if isName name then .ok (.list (String.ofList name), quantifier)
      else .error (.invalidListName (String.ofList ('<' :: cs)))
  | cs =>
    let name := cs.takeWhile isNameChar
    if name.isEmpty then .error (.invalidElement (String.ofList cs))
    else .ok (.rule (String.ofList name), cs.dropWhile isNameChar)

/-- One element. -/
def readElement (cs : List Char) : Except Fault Element := do
  let (atom, quantifier) ← readAtom cs
  match readQuantifier? quantifier with
  | none => .error (.invalidElement (String.ofList cs))
  | some bounds =>
    if bounds.any Bounds.isReversed then .error (.reversedBounds (String.ofList cs))
    else .ok ⟨atom, bounds⟩

/-- One alternative: elements separated by single spaces. -/
def readAlternative (cs : List Char) : Except Fault (List Element) :=
  match trim cs with
  | [] => .error .emptyAlternative
  | trimmed => (splitWhere (· == ' ') trimmed).mapM readElement

/-- A rule, from the canonical form of its line. -/
def read (line : List Char) : Except Fault Rule :=
  match splitArrow? line with
  | none => .error .noArrow
  | some (name, body) =>
    if !isName name then .error (.invalidName (String.ofList name))
    else if body.isEmpty then .error .emptyBody
    else do
      let alternatives ← (splitWhere (· == '|') body).mapM readAlternative
      return ⟨String.ofList name, alternatives⟩

/-! ## Lemmas -/

theorem readNumber?_toDigits {n : Nat} (h : n < numberBound) :
    readNumber? (Nat.toDigits 10 n) = some n := by
  have hne : (Nat.toDigits 10 n).isEmpty = false := by
    rw [List.isEmpty_eq_false_iff]
    exact Nat.toDigits_ne_nil
  have hall : (Nat.toDigits 10 n).all Char.isDigit = true :=
    List.all_eq_true.2 fun c hc => Nat.isDigit_of_mem_toDigits (by omega) (by omega) hc
  rw [readNumber?, hne, hall]
  simp only [Bool.not_false, Bool.and_self, if_true]
  rw [Nat.ofDigitChars_toDigits (by omega) (by omega), if_pos h]

end PhraseSearch.Rule
