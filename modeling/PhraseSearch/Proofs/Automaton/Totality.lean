import PhraseSearch.Proofs.Automaton.Numbering
import PhraseSearch.Proofs.Network.Unmet

/-!
# Removing connectors succeeds

Every connector puts the targets of its edges on the stack once, so a walk that skips connectors
pops no more nodes than there are edges; every kept node is numbered once, so no more nodes are
numbered than there are.  The turns that the two are given are therefore enough wherever edges lead
to nodes that are there and the kept ones of which become states.

    a walk from a kept node comes to an end                            (exists_visibleWithin)
    what has been wired becomes an automaton                           (exists_withoutJoins)
-/

namespace PhraseSearch.Network

variable {net : Network} {s : Set Nat} {seen : Std.TreeSet Nat} {found : Array Nat}
  {stack : List Nat} {turns id : Nat}

/-! ## Walks -/

/-- The number of edges of connectors that have not been met. -/
def joinEdges (net : Network) (seen : Std.TreeSet Nat) : Nat :=
  net.unmetEdges (fun id => net.kind? id = some .join) seen

/-- A connector that is met gives its edges to the stack. -/
theorem joinEdges_insert (hid : id ∉ seen) (hjoin : net.kind? id = some .join) :
    (net.targets id).length + net.joinEdges (seen.insert id) = net.joinEdges seen :=
  unmetEdges_insert (mem_unmet.2 ⟨lt_size_of_kind? hjoin, hid, hjoin⟩)

/-- The edges of a kept node are not among those of connectors. -/
theorem length_targets_add_le (hid : id < net.size) (hkept : net.Kept id) :
    (net.targets id).length + net.joinEdges ∅ ≤ net.edgeCount := by
  have hnot : id ∉ net.unmet (fun x => net.kind? x = some .join) ∅ := by
    intro hmem
    obtain ⟨k, hk, hne⟩ := hkept
    rw [(mem_unmet.1 hmem).2.2] at hk
    exact hne (Option.some.inj hk).symm
  rw [edgeCount_eq_sum, joinEdges, unmetEdges,
    ← Finset.sum_insert (f := fun x => (net.targets x).length) hnot]
  refine Finset.sum_le_sum_of_subset fun x hx => ?_
  rcases Finset.mem_insert.1 hx with rfl | hx
  · exact Finset.mem_range.2 hid
  · exact Finset.mem_range.2 (mem_unmet.1 hx).1

theorem exists_skipJoins (hlt : ∀ x ∈ s, x < net.size)
    (hclosed : ∀ i j, i ∈ s → net.Edge i j → j ∈ s) (hstack : ∀ x ∈ stack, x ∈ s)
    (hturns : stack.length + net.joinEdges seen ≤ turns) :
    ∃ out, net.skipJoins turns seen found stack = .ok out := by
  induction turns generalizing seen found stack with
  | zero =>
    obtain rfl : stack = [] := List.eq_nil_of_length_eq_zero (by omega)
    exact ⟨found, rfl⟩
  | succ turns ih =>
    cases stack with
    | nil => exact ⟨found, rfl⟩
    | cons id stack =>
      have hid : id ∈ s := hstack id List.mem_cons_self
      have hrest : ∀ x ∈ stack, x ∈ s := fun x hx => hstack x (List.mem_cons_of_mem _ hx)
      obtain ⟨node, hnode⟩ := exists_node?_of_lt (hlt id hid)
      have hkind : net.kind? id = some node.kind := by
        rw [kind?, hnode]
        rfl
      rw [List.length_cons] at hturns
      rw [skipJoins, hnode]
      by_cases hmet : id ∈ seen
      · simp only [hmet, if_true]
        exact ih hrest (by omega)
      · simp only [hmet, if_false]
        by_cases hjoin : node.kind = .join
        · simp only [hjoin, if_true]
          have hedges := joinEdges_insert hmet (hjoin ▸ hkind)
          rw [← targets_of_node? hnode]
          refine ih (fun x hx => ?_) ?_
          · rcases List.mem_append.1 hx with hx | hx
            · exact hclosed id x hid (mem_targets.1 hx)
            · exact hrest x hx
          · rw [List.length_append]
            omega
        · simp only [hjoin, if_false]
          have : net.joinEdges (seen.insert id) ≤ net.joinEdges seen :=
            unmetEdges_insert_le net _ seen id
          exact ih hrest (by omega)

/-- From a kept node, as many turns are enough as there are edges. -/
theorem exists_visibleWithin (hlt : ∀ x ∈ s, x < net.size)
    (hclosed : ∀ i j, i ∈ s → net.Edge i j → j ∈ s) (hid : id ∈ s) (hkept : net.Kept id) :
    ∃ visible, net.visibleWithin (net.edgeCount + 1) id = .ok visible := by
  obtain ⟨node, hnode⟩ := exists_node?_of_lt (hlt id hid)
  have hle := length_targets_add_le (hlt id hid) hkept
  obtain ⟨out, hout⟩ := @exists_skipJoins net s ∅ #[] _ (net.edgeCount + 1)
    hlt hclosed (fun x hx => hclosed id x hid (mem_targets.1 hx)) (by omega)
  rw [targets_of_node? hnode] at hout
  refine ⟨out.toList, ?_⟩
  rw [visibleWithin, hnode]
  simp only [hout]
  rfl

/-! ## Numbers -/

namespace Numbering

variable {m : Numbering} {x : Nat}

theorem mem_order_number (hx : x ∈ (m.number id).2.order) : x ∈ m.order ∨ x = id := by
  rw [number] at hx
  split at hx
  · exact .inl hx
  · exact Array.mem_push.1 hx

theorem mem_order_numberAll {ids : List Nat} (hx : x ∈ (m.numberAll ids).2.order) :
    x ∈ m.order ∨ x ∈ ids := by
  induction ids generalizing m with
  | nil => exact .inl hx
  | cons id ids ih =>
    have hx : x ∈ ((m.number id).2.numberAll ids).2.order := hx
    rcases ih hx with hx | hx
    · rcases mem_order_number hx with hx | rfl
      · exact .inl hx
      · exact .inr List.mem_cons_self
    · exact .inr (List.mem_cons_of_mem _ hx)

/-- As no node has two numbers, there are no more numbers than nodes. -/
theorem Consistent.size_order_le (h : m.Consistent) (hlt : ∀ x ∈ m.order, x < net.size) :
    m.order.size ≤ net.size := by
  have hnodup : m.order.toList.Nodup := by
    refine List.nodup_iff_injective_getElem.2 fun i j hij => Fin.ext ?_
    have hi : m.order[i.1]? = some (m.order.toList[i.1]) := by simp
    have hj : m.order[j.1]? = some (m.order.toList[j.1]) := by simp
    rw [show m.order.toList[j.1] = m.order.toList[i.1] from hij.symm] at hj
    exact h.inj hi hj
  have hsub : m.order.toList ⊆ List.range net.size := fun x hx =>
    List.mem_range.2 (hlt x (Array.mem_toList_iff.1 hx))
  simpa using (hnodup.subperm hsub).length_le

end Numbering

/-- Whether the kept nodes of a region can become states. -/
def Labelled (net : Network) (s : Set Nat) : Prop :=
  ∀ id ∈ s, net.Kept id → ∃ label, (net.kind? id).bind stateLabel? = some label

theorem exists_numberStates {m : Numbering} {states : Array Automaton.State}
    (hregion : Region net s) (hlabelled : Labelled net s) (hconsistent : m.Consistent)
    (horder : ∀ x ∈ m.order, x ∈ s ∧ net.Kept x) (hturns : net.size < states.size + turns) :
    ∃ out, net.numberStates (net.edgeCount + 1) turns m states = .ok out := by
  induction turns generalizing m states with
  | zero =>
    have hsize := hconsistent.size_order_le fun x hx => hregion.lt_size x (horder x hx).1
    have hnone : m.order[states.size]? = none := Array.getElem?_eq_none (by omega)
    refine ⟨states, ?_⟩
    rw [numberStates, hnone]
  | succ turns ih =>
    unfold numberStates
    cases hid : m.order[states.size]? with
    | none => exact ⟨states, rfl⟩
    | some id =>
      obtain ⟨hmem, hkept⟩ := horder id (Array.mem_of_getElem? hid)
      obtain ⟨visible, hvisible⟩ := exists_visibleWithin hregion.lt_size hregion.closed hmem hkept
      obtain ⟨label, hlabel⟩ := hlabelled id hmem hkept
      simp only [hvisible, hlabel]
      refine ih (Numbering.numberAll_spec hconsistent visible).1 (fun x hx => ?_) ?_
      · rcases Numbering.mem_order_numberAll hx with hx | hx
        · exact horder x hx
        · obtain ⟨hsees, hx⟩ := ((visibleWithin_eq_ok hvisible).2 x).1 hx
          exact ⟨(hsees.mem_of_closed hregion.closed hmem).1, hx⟩
      · rw [Array.size_push]
        omega

/-! ## Automata -/

variable {base : Network} {ends : Segment} {hi last : Nat} {l f : Language String}

/-- Between a start and an end there are words and connectors only. -/
theorem labelled_of_wiring (h : Wiring base net ends (.start, .finish) hi last l f) :
    Labelled net (Set.Ico base.size hi) := by
  intro id hid hkept
  by_cases hentry : id = ends.entry
  · exact ⟨.start, by rw [hentry, h.entry_kind]; rfl⟩
  · by_cases hexit : id = ends.exit
    · exact ⟨.finish, by rw [hexit, h.exit_kind]; rfl⟩
    · rcases h.simple id hid hentry hexit with hjoin | ⟨list, hlist⟩
      · obtain ⟨k, hk, hne⟩ := hkept
        rw [hjoin] at hk
        exact absurd (Option.some.inj hk).symm hne
      · exact ⟨.word list none, by rw [hlist]; rfl⟩

/-- What has been wired between a start and an end becomes an automaton. -/
theorem exists_withoutJoins (h : Wiring base net ends (.start, .finish) hi last l f) :
    ∃ a, net.withoutJoins ends.entry ends.exit = .ok a := by
  have hconsistent := (@stated_ends net _ _ h.entry_ne).consistent
  have horder : ∀ x ∈ #[ends.entry, ends.exit], x ∈ Set.Ico base.size hi ∧ net.Kept x := by
    intro x hx
    obtain rfl | rfl : x = ends.entry ∨ x = ends.exit := by simpa using hx
    · exact ⟨h.entry_mem, _, h.entry_kind, by simp⟩
    · exact ⟨h.exit_mem, _, h.exit_kind, by simp⟩
  have hturns : net.size < (#[] : Array Automaton.State).size + (net.size + 1) := by simp
  obtain ⟨states, hstates⟩ :=
    exists_numberStates h.region (labelled_of_wiring h) hconsistent horder hturns
  refine ⟨⟨states⟩, ?_⟩
  simp only [withoutJoins, hstates]
  rfl

end PhraseSearch.Network
