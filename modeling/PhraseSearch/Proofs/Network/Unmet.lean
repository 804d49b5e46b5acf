import Mathlib.Algebra.Order.BigOperators.Group.Finset
import PhraseSearch.Proofs.Network.Reading

/-!
# Edges that are still to be followed

A search through a network follows the edges of a node when it meets the node for the first time.
What it may still have to look at are then the edges of the nodes that it has not met, and there are
never more of these than the network has edges.

    a node that is met gives its edges away                            (unmetEdges_insert)
    the edges of all nodes are those of the network                    (unmetEdges_le_edgeCount)
-/

namespace PhraseSearch.Network

variable {net : Network} {opened : Nat → Prop} [DecidablePred opened] {seen : Std.TreeSet Nat}
  {id : Nat}

theorem mem_insert {t : Nat} : t ∈ seen.insert id ↔ t = id ∨ t ∈ seen := by
  rw [Std.TreeSet.mem_insert, Std.LawfulEqCmp.compare_eq_iff_eq, eq_comm]

/-- The nodes that have not been met, of those whose edges are followed. -/
def unmet (net : Network) (opened : Nat → Prop) [DecidablePred opened] (seen : Std.TreeSet Nat) :
    Finset Nat :=
  {id ∈ Finset.range net.size | id ∉ seen ∧ opened id}

/-- The number of their edges, which may yet have to be looked at. -/
def unmetEdges (net : Network) (opened : Nat → Prop) [DecidablePred opened]
    (seen : Std.TreeSet Nat) : Nat :=
  ∑ id ∈ net.unmet opened seen, (net.targets id).length

theorem mem_unmet : id ∈ net.unmet opened seen ↔ id < net.size ∧ id ∉ seen ∧ opened id := by
  rw [unmet, Finset.mem_filter, Finset.mem_range]

theorem unmet_insert (net : Network) (opened : Nat → Prop) [DecidablePred opened]
    (seen : Std.TreeSet Nat) (id : Nat) :
    net.unmet opened (seen.insert id) = (net.unmet opened seen).erase id := by
  ext x
  rw [Finset.mem_erase, mem_unmet, mem_unmet, mem_insert, not_or, and_assoc, and_left_comm]

/-- A node that is met gives its edges away. -/
theorem unmetEdges_insert (h : id ∈ net.unmet opened seen) :
    (net.targets id).length + net.unmetEdges opened (seen.insert id) =
      net.unmetEdges opened seen := by
  rw [unmetEdges, unmetEdges, unmet_insert]
  exact Finset.add_sum_erase _ (fun x => (net.targets x).length) h

theorem unmetEdges_insert_le (net : Network) (opened : Nat → Prop) [DecidablePred opened]
    (seen : Std.TreeSet Nat) (id : Nat) :
    net.unmetEdges opened (seen.insert id) ≤ net.unmetEdges opened seen := by
  rw [unmetEdges, unmetEdges, unmet_insert]
  exact Finset.sum_le_sum_of_subset (Finset.erase_subset _ _)

theorem edgeCount_eq_sum (net : Network) :
    net.edgeCount = ∑ id ∈ Finset.range net.size, (net.targets id).length := by
  have hmap : net.nodes.toList.map (·.edges.size) =
      (List.range net.size).map fun id => (net.targets id).length := by
    refine List.ext_getElem (by simp [size]) fun i h₁ h₂ => ?_
    have hi : i < net.nodes.size := by simpa using h₁
    have hnode : net.node? i = some net.nodes[i] := Array.getElem?_eq_getElem hi
    simp [targets_of_node? hnode]
  rw [edgeCount, hmap]
  rfl

theorem unmetEdges_le_edgeCount (net : Network) (opened : Nat → Prop) [DecidablePred opened]
    (seen : Std.TreeSet Nat) : net.unmetEdges opened seen ≤ net.edgeCount := by
  rw [edgeCount_eq_sum, unmetEdges]
  exact Finset.sum_le_sum_of_subset (Finset.filter_subset _ _)

end PhraseSearch.Network
