import PhraseSearch.Rule.Reader
import Std.Data.TreeMap

/-!
# The lines of a grammar

A grammar is given by lines, one rule a line.  `rulesOf` reads them from the first to the last and
stops at the first that is wrong: because its canonical form has been there before, or because it
is no rule.  Lines that are empty in canonical form are counted and passed over.
-/

namespace PhraseSearch.Grammar

/-- What is wrong with a line. -/
inductive LineFault where
  /-- an earlier line, of that number, is the same rule -/
  | repeated (earlier : Nat)
  | malformed (fault : Rule.Fault)
deriving DecidableEq

def LineFault.message : LineFault → String
  | .repeated earlier => s!"duplicate rule (first on line {earlier})"
  | .malformed fault => fault.message

/-- Why a grammar cannot be compiled. -/
inductive Fault where
  /-- the line of that number, which starts at one, is wrong -/
  | badLine (number : Nat) (text : String) (fault : LineFault)
  | noRules
  /-- these rules, ascending, never become free of references -/
  | recursion (rules : List String)
deriving DecidableEq

def Fault.message : Fault → String
  | .badLine number text fault => s!"line {number}: {fault.message}: {text}"
  | .noRules => "no rules in grammar"
  | .recursion rules =>
    "recursive rules cannot be reduced to a finite automaton: " ++ ", ".intercalate rules

/-- Reads lines, the first of which has the given number; `seen` holds the canonical forms of the
lines before, with their numbers. -/
def readFrom (seen : Std.TreeMap String Nat) (number : Nat) :
    List String → Except Fault (List Rule)
  | [] => .ok []
  | raw :: lines =>
    let line := Rule.canonicalLine raw
    if line.isEmpty then readFrom seen (number + 1) lines
    else
      match seen[line]? with
      | some earlier => .error (.badLine number raw (.repeated earlier))
      | none =>
        match Rule.read line.toList with
        | .error fault => .error (.badLine number raw (.malformed fault))
        | .ok rule => (readFrom (seen.insert line number) (number + 1) lines).map (rule :: ·)

/-- The rules of some lines, one for each line that is not empty. -/
def rulesOf (lines : List String) : Except Fault (List Rule) :=
  match readFrom ∅ 1 lines with
  | .ok [] => .error .noRules
  | result => result

end PhraseSearch.Grammar
