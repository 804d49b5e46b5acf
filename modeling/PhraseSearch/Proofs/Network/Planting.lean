import PhraseSearch.Network.Planting
import PhraseSearch.Proofs.Network.Reading
import PhraseSearch.Proofs.Network.Trees

/-!
# What is planted

Planting a pattern adds nodes of a genuine tree of that pattern, and none of them has edges.

    planted patterns are trees in new nodes that share none            (planted_plantPatterns)
-/

namespace PhraseSearch.Network

/-- Whether no node has edges. -/
def Bare (net : Network) : Prop := ∀ id, net.targets id = []

theorem bare_empty : Bare .empty := fun id => by
  have hnone : Network.empty.node? id = none := by
    rw [node?]
    exact Array.getElem?_eq_none (Nat.zero_le id)
  rw [targets, hnone]

theorem Bare.push {net : Network} (h : net.Bare) (k : NodeKind) : (net.push k).Bare := fun id => by
  rw [targets_push]
  split
  · rfl
  · exact h id

/-- A change that keeps the edges of a node. -/
theorem Bare.update {net : Network} (h : net.Bare) (id : Nat) {f : Node → Node}
    (hf : ∀ node, (f node).edges = node.edges) : (net.update id f).Bare := fun i => by
  by_cases hi : i = id
  · cases hnode : net.node? i with
    | none =>
      rw [targets, node?_update, if_pos hi, hnode]
      rfl
    | some node =>
      have hchanged : (net.update id f).node? i = some (f node) := by
        rw [node?_update, if_pos hi, hnode]
        rfl
      rw [targets_of_node? hchanged, hf, ← targets_of_node? hnode]
      exact h i
  · have hsame : (net.update id f).node? i = net.node? i := by rw [node?_update, if_neg hi]
    rw [targets_congr hsame]
    exact h i

theorem kind?_update_of_ne (net : Network) {id i : Nat} (f : Node → Node) (h : i ≠ id) :
    (net.update id f).kind? i = net.kind? i := by
  rw [kind?, kind?, node?_update, if_neg h]

theorem kind?_update_self {net : Network} {id : Nat} {node : Node} (f : Node → Node)
    (h : net.node? id = some node) : (net.update id f).kind? id = some (f node).kind := by
  rw [kind?, node?_update, if_pos rfl, h]
  rfl

namespace Planting

/-- What is there after some patterns have been planted. -/
structure Planted (net net' : Network) (ids : List Nat) (ps : List Pattern) : Prop where
  extends_ : Extends net net'
  bare : net.Bare → net'.Bare
  grove : ∃ depth, net'.Grove depth ids ps ∧
    ∀ i ∈ ids.flatMap (net'.below depth), net.size ≤ i

variable {net net' net'' : Network} {id : Nat} {ids : List Nat} {p : Pattern} {ps : List Pattern}

theorem Planted.tree (h : Planted net net' [id] [p]) :
    ∃ depth, net'.Genuine depth id p ∧ ∀ i ∈ net'.below depth id, net.size ≤ i := by
  obtain ⟨depth, hgrove, hnew⟩ := h.grove
  rw [List.flatMap_singleton] at hnew
  exact ⟨depth, hgrove.single, hnew⟩

theorem Planted.nil (net : Network) : Planted net net [] [] where
  extends_ := .refl net
  bare h := h
  grove := ⟨0, .nil net 0, nofun⟩

/-- What is planted later is in other nodes. -/
theorem Planted.cons (h : Planted net net' [id] [p]) (hs : Planted net' net'' ids ps) :
    Planted net net'' (id :: ids) (p :: ps) where
  extends_ := h.extends_.trans hs.extends_
  bare hbare := hs.bare (h.bare hbare)
  grove := by
    obtain ⟨depth, hone, hnew⟩ := h.tree
    obtain ⟨depth', hgrove', hnew'⟩ := hs.grove
    have hlt : ∀ i ∈ net'.below depth id, i < net'.size := fun i hi =>
      lt_size_of_mem_below hone.unfold_eq hi
    have hsame : ∀ i ∈ net'.below depth id, net''.kind? i = net'.kind? i := fun i hi =>
      kind?_congr (hs.extends_.same i (hlt i hi))
    have hbelow := hone.below_of_same hsame (Nat.le_max_left depth depth')
    have hrest := hgrove'.flatMap_below_mono (Nat.le_max_right depth depth')
    refine ⟨max depth depth', .cons ((hone.congr hsame).mono (Nat.le_max_left _ _))
      (hgrove'.mono (Nat.le_max_right _ _)) ?_, ?_⟩
    · intro i hi hmem
      rw [hbelow] at hi
      rw [hrest] at hmem
      have := hlt i hi
      have := hnew' i hmem
      omega
    · intro i hi
      rw [List.flatMap_cons, hbelow, hrest] at hi
      rcases List.mem_append.1 hi with hi | hi
      · exact hnew i hi
      · exact Nat.le_trans h.extends_.size_le (hnew' i hi)

/-- A node over what has been planted. -/
theorem Planted.node {k : NodeKind} (h : Planted net net' k.children ps)
    (hp : k.pattern? ps = some p) : Planted net (net'.push k) [net'.size] [p] where
  extends_ := h.extends_.trans (extends_push net' k)
  bare hbare := (h.bare hbare).push k
  grove := by
    obtain ⟨depth, hgrove, hnew⟩ := h.grove
    have hsame : ∀ i ∈ k.children.flatMap (net'.below depth),
        (net'.push k).kind? i = net'.kind? i := fun i hi =>
      kind?_push_of_ne k (Nat.ne_of_lt (hgrove.lt_size hi))
    have hkind : (net'.push k).kind? net'.size = some k := by
      rw [kind?, node?_push_size]
      rfl
    have hid : net'.size ∉ k.children.flatMap ((net'.push k).below depth) := by
      rw [Grove.flatMap_below_congr hsame]
      exact fun hmem => Nat.lt_irrefl _ (hgrove.lt_size hmem)
    have hnode := Genuine.node hkind (hgrove.congr hsame) hid hp
    refine ⟨depth + 1, hnode.grove, fun i hi => ?_⟩
    rw [List.flatMap_singleton, below, childrenOf_eq hkind,
      Grove.flatMap_below_congr hsame] at hi
    rcases List.mem_cons.1 hi with rfl | hi
    · exact h.extends_.size_le
    · exact hnew i hi

mutual

theorem planted_plantPattern : ∀ (p : Pattern) (net : Network),
    Planted net (plantPattern p net).2 [(plantPattern p net).1] [p]
  | .connector, net => (Planted.nil net).node rfl
  | .terminal _, net => (Planted.nil net).node rfl
  | .sequence items, net => (planted_plantPatterns items net).node rfl
  | .alternation alternatives, net => (planted_plantPatterns alternatives net).node rfl
  | .repetition inner _, net => (planted_plantPattern inner net).node rfl
  | .reference _, net => (Planted.nil net).node rfl

theorem planted_plantPatterns : ∀ (ps : List Pattern) (net : Network),
    Planted net (plantPatterns ps net).2 (plantPatterns ps net).1 ps
  | [], net => .nil net
  | p :: ps, net => (planted_plantPattern p net).cons (planted_plantPatterns ps _)

end

end Planting

end PhraseSearch.Network
