import PhraseSearch.NameMap
import PhraseSearch.Network.Copy

/-!
# Grafting trees onto references

`graft` puts copies of trees in the place of references: every reference below a node whose rule
has a tree gets a copy of its own.
-/

namespace PhraseSearch.Network.Edit

/-- The tree that takes the place of a node: the one of its rule, if the node is a reference. -/
def scion? (rules : NameMap Nat) : NodeKind → Option Nat
  | .reference rule => rules.get? rule
  | _ => none

/-- Goes through the children of a node: puts a copy in the place of a reference to one of the
rules, and goes on below any other child.  Tells whether a copy was made. -/
def graftChildren (rules : NameMap Nat) (graftBelow : Nat → Edit Bool) (id : Nat) :
    List (Nat × Nat) → Edit Bool
  | [] => pure false
  | (child, slot) :: rest => do
    let changed ←
      match scion? rules (← kind child) with
      | some template => do
        putChild id slot (← copyBelow template)
        pure true
      | none => graftBelow child
    let changedRest ← graftChildren rules graftBelow id rest
    pure (changed || changedRest)

/-- Replaces the references below a node, down to the given depth. -/
def graftBelow (rules : NameMap Nat) : Nat → Nat → Edit Bool
  | 0, _ => throw .endless
  | depth + 1, id => do
    graftChildren rules (graftBelow rules depth) id (← kind id).children.zipIdx

/-- Replaces every reference below a node whose rule has a tree among `rules` by a copy of that
tree, and tells whether there was one.  A node that is reached again by another way may have grown
by then, but no path passes more nodes than the network holds. -/
def graft (id : Nat) (rules : NameMap Nat) : Edit Bool := fun net =>
  graftBelow rules (net.size + capacity) id net

/-! ## Lemmas -/

theorem graft_eq (id : Nat) (rules : NameMap Nat) :
    graft id rules = fun net => graftBelow rules (net.size + capacity) id net := rfl

theorem exists_graft_eq (id : Nat) (rules : NameMap Nat) (net : Network) :
    ∃ depth, net.size ≤ depth ∧ graft id rules net = graftBelow rules depth id net := by
  refine ⟨net.size + capacity, Nat.le_add_right _ _, ?_⟩
  rw [graft_eq]

end PhraseSearch.Network.Edit
