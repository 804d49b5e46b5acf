import PhraseSearch.Network.Basic
import PhraseSearch.Pattern

/-!
# Planting patterns

`plantPattern` makes the nodes of a pattern: children before the node that they belong to, in
order.  Nothing that happens in this can fail, and older nodes stay as they are.
-/

namespace PhraseSearch

/-- A change of a network that cannot fail. -/
abbrev Network.Planting := StateM Network

namespace Network.Planting

/-- Makes a node and returns its id. -/
def plant (kind : NodeKind) : Planting Nat := fun net => (net.size, net.push kind)

mutual

/-- The node of a pattern. -/
def plantPattern : Pattern → Planting Nat
  | .connector => plant .join
  | .terminal list => plant (.terminal list)
  | .sequence items => do plant (.sequence (← plantPatterns items))
  | .alternation alternatives => do plant (.alternation (← plantPatterns alternatives))
  | .repetition inner bounds => do plant (.repetition (← plantPattern inner) bounds)
  | .reference rule => plant (.reference rule)

/-- The nodes of some patterns, in order. -/
def plantPatterns : List Pattern → Planting (List Nat)
  | [] => pure []
  | p :: ps => do
    let id ← plantPattern p
    return id :: (← plantPatterns ps)

end

end Network.Planting

end PhraseSearch
