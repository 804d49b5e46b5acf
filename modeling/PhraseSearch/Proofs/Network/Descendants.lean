import Mathlib.Data.Finset.Card
import PhraseSearch.Network.Denotation
import PhraseSearch.Proofs.Network.Trees

/-!
# Descendants

No path down a tree meets a node twice, so a tree is no deeper than there are nodes, and `pattern?`
reads it.  Its pattern has the references that stand in it.

    a node with a tree has a pattern                                   (HasTree.exists_pattern?)
    a tree without references has a pattern without them               (references_eq_nil_of_unfold)
-/

namespace PhraseSearch.Network

variable {net : Network}

theorem child_iff {id child : Nat} {k : NodeKind} (hk : net.kind? id = some k) :
    net.Child id child ↔ child ∈ k.children := by
  obtain ⟨node, hnode, rfl⟩ := Option.map_eq_some_iff.1 hk
  constructor
  · rintro ⟨other, hother, hmem⟩
    rw [hnode] at hother
    cases hother
    exact hmem
  · intro hmem
    exact ⟨node, hnode, hmem⟩

theorem mem_childrenOf {id child : Nat} : child ∈ net.childrenOf id ↔ net.Child id child := by
  cases hk : net.kind? id with
  | none =>
    rw [childrenOf, hk]
    refine iff_of_false List.not_mem_nil ?_
    rintro ⟨node, hnode, -⟩
    rw [kind?, hnode] at hk
    cases hk
  | some k => rw [childrenOf_eq hk, child_iff hk]

theorem forall_child {r : Nat → Nat → Prop}
    (h : ∀ id < net.size, ∀ child ∈ net.childrenOf id, r id child) (parent child : Nat)
    (hchild : net.Child parent child) : r parent child := by
  obtain ⟨node, hnode, -⟩ := id hchild
  exact h parent (lt_size_of_node? hnode) child (mem_childrenOf.2 hchild)

/-! ## Patterns -/

/-- Nodes with patterns have these patterns together. -/
theorem exists_mapM_of_forall {depth : Nat} {ids : List Nat}
    (h : ∀ id ∈ ids, ∃ p, net.unfold depth id = some p) :
    ∃ ps, ids.mapM (net.unfold depth) = some ps ∧ ps.length = ids.length := by
  induction ids with
  | nil => exact ⟨[], rfl, rfl⟩
  | cons id ids ih =>
    obtain ⟨p, hp⟩ := h id List.mem_cons_self
    obtain ⟨ps, hps, hlength⟩ := ih fun i hi => h i (List.mem_cons_of_mem _ hi)
    refine ⟨p :: ps, ?_, by rw [List.length_cons, List.length_cons, hlength]⟩
    rw [List.mapM_cons, hp, hps]
    rfl

/-- A node has a pattern if its children do. -/
theorem exists_pattern_of_children {k : NodeKind} {ps : List Pattern}
    (hlength : ps.length = k.children.length) : ∃ p, k.pattern? ps = some p := by
  cases k with
  | repetition inner bounds =>
    obtain ⟨p, rfl⟩ := List.length_eq_one_iff.1 hlength
    exact ⟨_, rfl⟩
  | _ => exact ⟨_, rfl⟩

namespace HasTree

variable {top : Nat}

/-- The induction is on the number of nodes that may stand below: a child has its parent no longer
among them. -/
theorem exists_unfold_of_card (h : net.HasTree top) {n : Nat} {s : Finset Nat}
    (hcard : s.card = n) (hbelow : ∀ id, net.Descends top id → id ∈ s) :
    ∃ p, net.unfold n top = some p := by
  induction n generalizing top s with
  | zero =>
    have hmem := hbelow top (.refl top)
    rw [Finset.card_eq_zero.1 hcard] at hmem
    exact absurd hmem (Finset.notMem_empty top)
  | succ n ih =>
    obtain ⟨node, hnode⟩ := exists_node?_of_lt (h.lt_size top (.refl top))
    have hk : net.kind? top = some node.kind := by rw [kind?, hnode]; rfl
    have hchildren : ∀ child ∈ node.kind.children, ∃ p, net.unfold n child = some p := by
      intro child hmem
      have hchild := (child_iff hk).2 hmem
      have hcard' : (s.erase top).card = n := by
        rw [Finset.card_erase_of_mem (hbelow top (.refl top)), hcard]
        rfl
      refine ih (h.of_child hchild) hcard' fun id hid => Finset.mem_erase.2 ⟨?_, ?_⟩
      · rintro rfl
        exact h.acyclic id child (.refl id) hchild hid
      · exact hbelow id (.step hchild hid)
    obtain ⟨ps, hps, hlength⟩ := exists_mapM_of_forall hchildren
    obtain ⟨p, hp⟩ := exists_pattern_of_children hlength
    refine ⟨p, ?_⟩
    rw [unfold_succ, hk, Option.bind_some, hps, Option.bind_some, hp]

theorem exists_unfold_size (h : net.HasTree top) : ∃ p, net.unfold net.size top = some p :=
  h.exists_unfold_of_card (Finset.card_range net.size) fun id hid =>
    Finset.mem_range.2 (h.lt_size id hid)

theorem exists_pattern? (h : net.HasTree top) : ∃ p, net.pattern? top = some p := by
  obtain ⟨p, hp⟩ := h.exists_unfold_size
  exact ⟨p, unfold_mono (Nat.le_succ _) hp⟩

end HasTree

/-! ## References -/

theorem allReferences_eq_nil_of_mapM {f : Nat → Option Pattern} {ids : List Nat}
    {ps : List Pattern} (hids : ∀ id ∈ ids, ∀ p, f id = some p → p.references = [])
    (h : ids.mapM f = some ps) : Pattern.allReferences ps = [] := by
  induction ids generalizing ps with
  | nil =>
    obtain rfl : ps = [] := by simpa using h.symm
    rfl
  | cons id ids ih =>
    simp only [List.mapM_cons, Option.bind_eq_bind, Option.bind_eq_some_iff, Option.pure_def,
      Option.some.injEq] at h
    obtain ⟨p, hp, qs, hqs, rfl⟩ := h
    rw [Pattern.allReferences, hids id List.mem_cons_self p hp,
      ih (fun i hi => hids i (List.mem_cons_of_mem _ hi)) hqs]
    rfl

/-- Where no reference stands below a node, its pattern has none. -/
theorem references_eq_nil_of_unfold {depth id : Nat} {p : Pattern}
    (h : net.unfold depth id = some p)
    (hclosed : ∀ i rule, net.Descends id i → net.kind? i ≠ some (.reference rule)) :
    p.references = [] := by
  induction depth generalizing id p with
  | zero => cases h
  | succ depth ih =>
    have hbelow : ∀ {child p}, net.Child id child → net.unfold depth child = some p →
        p.references = [] := fun hchild hp =>
      ih hp fun i rule hi => hclosed i rule (.step hchild hi)
    cases layer_of_unfold h with
    | connector => rfl
    | terminal => rfl
    | sequence hk hps =>
      exact allReferences_eq_nil_of_mapM (fun i hi p hp => hbelow ((child_iff hk).2 hi) hp) hps
    | alternation hk hps =>
      exact allReferences_eq_nil_of_mapM (fun i hi p hp => hbelow ((child_iff hk).2 hi) hp) hps
    | @repetition inner q bounds hk hq =>
      have hinner : q.references = [] := hbelow ((child_iff hk).2 List.mem_cons_self) hq
      exact hinner
    | reference hk => exact absurd hk (hclosed id _ (.refl id))

end PhraseSearch.Network
