import PhraseSearch.Grammar.Basic

/-!
# What is read from lines

`Wrong` says what is wrong with a line among others: the same rule stood on an earlier line, or the
line is no rule.  A line is the same rule as another if it has the same canonical form; lines that
are empty in this form are never wrong.

`plantLines` goes over the lines once.  A rule is planted as soon as it has been read, and added to
the alternation of its name, which is made when the name comes for the first time.
-/

namespace PhraseSearch.Grammar

open Network.Planting

/-! ## Wrong lines -/

/-- The index at which a canonical form stands first. -/
def place? (lines : List String) (line : String) : Option Nat :=
  (lines.map Rule.canonicalLine).idxOf? line

/-- Whether something is wrong with the line of an index, and what: -/
inductive Wrong (lines : List String) (i : Nat) (raw : String) : LineFault → Prop
  /-- it stood on an earlier line for the first time -/
  | repeated {j : Nat} (line : lines[i]? = some raw)
      (shown : (Rule.canonicalLine raw).isEmpty = false)
      (place : place? lines (Rule.canonicalLine raw) = some j) (earlier : j < i) :
      Wrong lines i raw (.repeated (j + 1))
  /-- it stands there for the first time, but is no rule -/
  | malformed {fault : Rule.Fault} (line : lines[i]? = some raw)
      (shown : (Rule.canonicalLine raw).isEmpty = false)
      (place : place? lines (Rule.canonicalLine raw) = some i)
      (read : Rule.read (Rule.canonicalLine raw).toList = .error fault) :
      Wrong lines i raw (.malformed fault)

/-- Whether no line is wrong. -/
def Flawless (lines : List String) : Prop := ∀ i raw fault, ¬ Wrong lines i raw fault

/-- Whether the line of an index is wrong, but no line before it. -/
structure FirstWrong (lines : List String) (i : Nat) (raw : String) (fault : LineFault) : Prop where
  wrong : Wrong lines i raw fault
  least : ∀ j < i, ∀ raw fault, ¬ Wrong lines j raw fault

/-! ## One pass -/

/-- What has been planted between two lines. -/
structure Bed where
  network : Network
  /-- the names so far, with their roots, in order -/
  roots : List (String × Nat)
  /-- the root of each name -/
  index : Std.TreeMap String Nat
  /-- the canonical forms so far, with the numbers of their lines -/
  seen : Std.TreeMap String Nat

namespace Bed

/-- What is there before the first line. -/
def empty : Bed := ⟨.empty, [], ∅, ∅⟩

/-- Plants the alternatives of a rule, then the alternation of its name if there is none, and adds
them to it. -/
def addRule (bed : Bed) (rule : Rule) : Bed :=
  let (alternatives, net) :=
    plantPatterns (rule.alternatives.map Pattern.ofAlternative) bed.network
  match bed.index[rule.name]? with
  | some root => { bed with network := net.update root (·.addAlternatives alternatives) }
  | none =>
    let (root, net) := plant (.alternation []) net
    { bed with
      network := net.update root (·.addAlternatives alternatives)
      roots := bed.roots ++ [(rule.name, root)]
      index := bed.index.insert rule.name root }

/-- Reads the line of a number, and plants its rule. -/
def addLine (bed : Bed) (number : Nat) (raw : String) : Except Fault Bed :=
  let line := Rule.canonicalLine raw
  if line.isEmpty then .ok bed
  else
    match bed.seen[line]? with
    | some earlier => .error (.badLine number raw (.repeated earlier))
    | none =>
      match Rule.read line.toList with
      | .error fault => .error (.badLine number raw (.malformed fault))
      | .ok rule => .ok { bed.addRule rule with seen := bed.seen.insert line number }

/-- Reads lines, the first of which has the given number. -/
def addLines (bed : Bed) (number : Nat) : List String → Except Fault Bed
  | [] => .ok bed
  | raw :: lines => do (← bed.addLine number raw).addLines (number + 1) lines

end Bed

/-- The grammar of some lines, planted while they are read. -/
def plantLines (lines : List String) : Except Fault Grammar := do
  let bed ← Bed.empty.addLines 1 lines
  if bed.roots.isEmpty then .error .noRules else .ok ⟨bed.network, bed.roots⟩

end PhraseSearch.Grammar
