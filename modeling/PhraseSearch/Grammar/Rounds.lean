import Mathlib.Logic.Function.Iterate
import PhraseSearch.Grammar.Inline
import PhraseSearch.Network.Walk

/-!
# Rounds of inlining

`inlineRounds` keeps in mind which rules it has found closed, and looks only at the others.  One may
as well look at all rules in each round, and know nothing of the rounds before but how many rules
were closed: `round` is one such round, and `RoundsTo` says where they end.

A round grafts onto one rule after the other; `progress` is the network at any time in between.
-/

namespace PhraseSearch.Grammar

/-- The network after the trees of all closed rules have been grafted onto those of the others. -/
def round (roots : List (String × Nat)) (net : Network) : Network :=
  graftedNetwork net (addRoots .empty (splitRoots net roots).1) (splitRoots net roots).2

/-- Where rounds lead, and which rules stay open, if so many rules were closed before.  They end
when all rules are closed, or when no more of them are closed than before. -/
inductive RoundsTo (roots : List (String × Nat)) :
    Nat → Network → Network × List (String × Nat) → Prop
  | closed {known : Nat} {net : Network} (all : (splitRoots net roots).2 = []) :
      RoundsTo roots known net (net, [])
  | stalled {known : Nat} {net : Network} (some : (splitRoots net roots).2 ≠ [])
      (same : (splitRoots net roots).1.length = known) :
      RoundsTo roots known net (net, (splitRoots net roots).2)
  | next {known : Nat} {net : Network} {out : Network × List (String × Nat)}
      (some : (splitRoots net roots).2 ≠ []) (more : (splitRoots net roots).1.length ≠ known)
      (rest : RoundsTo roots (splitRoots net roots).1.length (round roots net) out) :
      RoundsTo roots known net out

/-- The network after the first grafts of a round. -/
def part (roots : List (String × Nat)) (grafts : Nat) (net : Network) : Network :=
  graftedNetwork net (addRoots .empty (splitRoots net roots).1)
    ((splitRoots net roots).2.take grafts)

/-- The network of a grammar after so many rounds, and so many grafts of the next one. -/
def progress (g : Grammar) (rounds grafts : Nat) : Network :=
  part g.roots grafts ((round g.roots)^[rounds] g.network)

/-- Whether nothing has changed below the roots of the rules that were closed. -/
def Keeps (roots : List (String × Nat)) (net net' : Network) : Prop :=
  ∀ e ∈ roots, net.isClosedRoot e.2 = true → ∀ id, net.Spans e.2 id → net'.node? id = net.node? id

/-- A grammar that has been inlined so many times, with success or without. -/
def inlined (g : Grammar) (times : Nat) : Grammar := (fun g => g.inline.2)^[times] g

end PhraseSearch.Grammar
