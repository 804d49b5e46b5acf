import PhraseSearch.Network.Traversal
import PhraseSearch.Proofs.Automaton.Totality

/-!
# The order of visible nodes

The walk that skips connectors has a stack, and no recursion.  The top of the stack is what the
recursion would visit next; the targets of a connector's edges are put on what is left for later, so
they are gone through before it.

    the walk finds what the recursion notes                            (exists_traversal)
    what a kept node sees, in the order of the recursion               (visibleTargets_spec)
-/

namespace PhraseSearch.Network

variable {net : Network} {id : Nat}

/-- What a walk finds from a stack on is what a visit to the nodes of the stack notes. -/
theorem exists_traversal {turns : Nat} {seen : Std.TreeSet Nat} {found out : Array Nat}
    {stack met : List Nat} (hmet : ∀ t, t ∈ seen ↔ t ∈ met)
    (hout : net.skipJoins turns seen found stack = .ok out) :
    ∃ met' more, Traversal net met stack met' more ∧ out.toList = found.toList ++ more := by
  induction turns generalizing seen found stack met with
  | zero =>
    cases stack with
    | nil =>
      rw [← eq_of_skipJoins_nil hout]
      exact ⟨met, [], .done met, (List.append_nil _).symm⟩
    | cons id stack => cases hout
  | succ turns ih =>
    cases stack with
    | nil =>
      rw [← eq_of_skipJoins_nil hout]
      exact ⟨met, [], .done met, (List.append_nil _).symm⟩
    | cons id stack =>
      obtain ⟨_, node, hturns, hnode, hout⟩ := exists_of_skipJoins hout
      cases hturns
      have hmet' : ∀ t, t ∈ seen.insert id ↔ t ∈ id :: met := fun t => by
        rw [mem_insert, List.mem_cons, hmet]
      by_cases hold : id ∈ seen
      · rw [if_pos hold] at hout
        obtain ⟨met', more, htraversal, hmore⟩ := ih hmet hout
        exact ⟨met', more, .again ((hmet id).1 hold) htraversal, hmore⟩
      · rw [if_neg hold] at hout
        have hnew : id ∉ met := fun h => hold ((hmet id).2 h)
        by_cases hjoin : node.kind = .join
        · rw [if_pos hjoin] at hout
          obtain ⟨met', more, htraversal, hmore⟩ := ih hmet' hout
          obtain ⟨mid, first, second, hbelow, hrest, rfl⟩ := htraversal.split
          exact ⟨met', _, .descend hnew hnode hjoin hbelow hrest, hmore⟩
        · rw [if_neg hjoin] at hout
          obtain ⟨met', more, htraversal, hmore⟩ := ih hmet' hout
          refine ⟨met', id :: more, .note hnew hnode hjoin htraversal, ?_⟩
          rw [hmore, Array.toList_push, List.append_assoc, List.singleton_append]

/-- From a kept node, whatever cycles there are, the walk finds the kept nodes that it sees, each
once.  They stand in the order in which a visit to the targets of its edges notes them. -/
theorem visibleTargets_spec (hedges : net.EdgesInRange) (hkept : net.Kept id) :
    ∃ found, net.visibleTargets id = .ok found ∧ found.Nodup ∧
      (∀ t, t ∈ found ↔ net.Sees id t ∧ net.Kept t) ∧
      ∀ order, (∃ met, net.Traversal [] (net.targets id) met order) ↔ order = found := by
  have ⟨_, hkind, _⟩ := hkept
  obtain ⟨found, hfound⟩ := exists_visibleWithin (s := {x | x < net.size}) (fun _ hx => hx)
    (fun i j _ => hedges i j) (lt_size_of_kind? hkind) hkept
  obtain ⟨hnodup, hmem⟩ := visibleWithin_eq_ok hfound
  obtain ⟨node, out, hnode, hout, rfl⟩ := exists_of_visibleWithin_eq_ok hfound
  rw [← targets_of_node? hnode] at hout
  have hempty : ∀ t, t ∈ (∅ : Std.TreeSet Nat) ↔ t ∈ ([] : List Nat) := fun t =>
    iff_of_false Std.TreeSet.not_mem_emptyc List.not_mem_nil
  obtain ⟨met, more, htraversal, hmore⟩ := exists_traversal hempty hout
  rw [List.nil_append] at hmore
  refine ⟨out.toList, hfound, hnodup, hmem, fun order => ⟨fun ⟨met', h⟩ => ?_, ?_⟩⟩
  · exact (h.unique htraversal).2.trans hmore.symm
  · rintro rfl
    exact ⟨met, hmore ▸ htraversal⟩

/-- The connectors 1 and 2 lead to themselves and to each other, and back to the word.  Node 3 is
nearer than nodes 0 and 4, but the edges of connector 2 come before the edge to it. -/
theorem visibleTargets_spec_of_cycles :
    let net : Network := ⟨#[⟨.terminal "a", #[1, 2]⟩, ⟨.join, #[1, 2, 3]⟩, ⟨.join, #[1, 2, 0, 4]⟩,
      ⟨.terminal "b", #[]⟩, ⟨.finish, #[]⟩]⟩
    net.EdgesInRange ∧ net.Kept 0 ∧ net.visibleTargets 0 = .ok [0, 4, 3] ∧
      (∀ t, t ∈ [0, 4, 3] ↔ net.Sees 0 t ∧ net.Kept t) ∧
      ∃ met, net.Traversal [] [1, 2] met [0, 4, 3] := by
  intro net
  have hedges : net.EdgesInRange := forall_edge (by decide)
  have hkept : net.Kept 0 := ⟨.terminal "a", rfl, by decide⟩
  obtain ⟨found, hfound, -, hmem, horder⟩ := visibleTargets_spec hedges hkept
  have hbelow : net.Traversal [2, 1] [1, 2, 0, 4] [4, 0, 2, 1] [0, 4] :=
    .again (by decide) (.again (by decide)
      (.note (by decide) rfl (by decide) (.note (by decide) rfl (by decide) (.done _))))
  have hlast : net.Traversal [4, 0, 2, 1] [3] [3, 4, 0, 2, 1] [3] :=
    .note (by decide) rfl (by decide) (.done _)
  have hsecond : net.Traversal [1] [2, 3] [3, 4, 0, 2, 1] ([0, 4] ++ [3]) :=
    .descend (by decide) rfl rfl hbelow hlast
  have hfirst : net.Traversal [] [1, 2] [3, 4, 0, 2, 1] ([0, 4] ++ [3] ++ []) :=
    .descend (by decide) rfl rfl (.again (by decide) hsecond) (.again (by decide) (.done _))
  obtain rfl : [0, 4, 3] = found := (horder [0, 4, 3]).1 ⟨_, hfirst⟩
  exact ⟨hedges, hkept, hfound, hmem, _, hfirst⟩

end PhraseSearch.Network
