import PhraseSearch.Network.Basic

/-!
# Depth-first traversals

What a recursion does that visits nodes in order, each once: where it meets a connector, it visits
the targets of the connector's edges, in their order, before it goes on to the next node.  Of what
it meets, it notes the nodes that are no connectors.

    what is met and noted is determined by the nodes that are visited  (Traversal.unique)
    nodes can be visited in two parts                                  (Traversal.split)
-/

namespace PhraseSearch.Network

/-- Whether a visit to nodes, one after the other, notes those in `found`.  The nodes in `met` have
been met before it, and those in `met'` after it. -/
inductive Traversal (net : Network) : List Nat → List Nat → List Nat → List Nat → Prop
  | done (met : List Nat) : Traversal net met [] met []
  /-- a node that has been met is not visited again -/
  | again {met ids met' found : List Nat} {id : Nat} (old : id ∈ met)
      (rest : Traversal net met ids met' found) : Traversal net met (id :: ids) met' found
  | note {met ids met' found : List Nat} {id : Nat} {node : Node} (new : id ∉ met)
      (get : net.node? id = some node) (kept : node.kind ≠ .join)
      (rest : Traversal net (id :: met) ids met' found) :
      Traversal net met (id :: ids) met' (id :: found)
  /-- below a connector there are the targets of its edges -/
  | descend {met ids mid met' found found' : List Nat} {id : Nat} {node : Node} (new : id ∉ met)
      (get : net.node? id = some node) (join : node.kind = .join)
      (below : Traversal net (id :: met) node.edges.toList mid found)
      (rest : Traversal net mid ids met' found') :
      Traversal net met (id :: ids) met' (found ++ found')

namespace Traversal

variable {net : Network} {met ids met' found : List Nat}

/-- The same nodes are met in the same order by every visit. -/
theorem unique (h : Traversal net met ids met' found) {met₂ found₂ : List Nat}
    (h₂ : Traversal net met ids met₂ found₂) : met' = met₂ ∧ found = found₂ := by
  induction h generalizing met₂ found₂ with
  | done =>
    cases h₂
    exact ⟨rfl, rfl⟩
  | again old _ ih =>
    cases h₂ with
    | again _ rest => exact ih rest
    | note new => exact absurd old new
    | descend new => exact absurd old new
  | note new get kept _ ih =>
    cases h₂ with
    | again old => exact absurd old new
    | note _ _ _ rest =>
      obtain ⟨rfl, rfl⟩ := ih rest
      exact ⟨rfl, rfl⟩
    | descend _ get₂ join =>
      cases get.symm.trans get₂
      exact absurd join kept
  | descend new get join _ _ ihbelow ihrest =>
    cases h₂ with
    | again old => exact absurd old new
    | note _ get₂ kept =>
      cases get.symm.trans get₂
      exact absurd join kept
    | descend _ get₂ _ below rest =>
      cases get.symm.trans get₂
      obtain ⟨rfl, rfl⟩ := ihbelow below
      obtain ⟨rfl, rfl⟩ := ihrest rest
      exact ⟨rfl, rfl⟩

theorem split {more : List Nat} (h : Traversal net met (ids ++ more) met' found) :
    ∃ mid first second, Traversal net met ids mid first ∧ Traversal net mid more met' second ∧
      found = first ++ second := by
  induction ids generalizing met found with
  | nil => exact ⟨met, [], found, .done met, h, rfl⟩
  | cons id ids ih =>
    cases h with
    | again old rest =>
      obtain ⟨mid, first, second, hfirst, hsecond, rfl⟩ := ih rest
      exact ⟨mid, first, second, .again old hfirst, hsecond, rfl⟩
    | note new get kept rest =>
      obtain ⟨mid, first, second, hfirst, hsecond, rfl⟩ := ih rest
      exact ⟨mid, id :: first, second, .note new get kept hfirst, hsecond, rfl⟩
    | descend new get join below rest =>
      obtain ⟨mid, first, second, hfirst, hsecond, rfl⟩ := ih rest
      exact ⟨mid, _, second, .descend new get join below hfirst, hsecond,
        (List.append_assoc _ _ _).symm⟩

end Traversal

end PhraseSearch.Network
