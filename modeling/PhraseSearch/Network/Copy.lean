import PhraseSearch.Network.Basic
import Std.Data.TreeMap

/-!
# Copying trees

`copyBelow` copies what can be reached from a node by children and edges.  A node is entered in the
map when its copy is made, which is after its children have been copied and before its edges are
followed; what is in the map already is shared.
-/

namespace PhraseSearch

/-- The copies that nodes have been given so far, by id. -/
abbrev Network.Copies := Std.TreeMap Nat Nat

namespace Network.Edit

/-- Copies a list of nodes, one after the other. -/
def copyAll (copy : Nat → Copies → Edit (Nat × Copies)) :
    List Nat → Copies → Edit (List Nat × Copies)
  | [], map => pure ([], map)
  | id :: ids, map => do
    let (new, map) ← copy id map
    let (news, map) ← copyAll copy ids map
    pure (new :: news, map)

/-- Copies the children of a kind. -/
def copyChildren (copy : Nat → Copies → Edit (Nat × Copies)) (kind : NodeKind)
    (map : Copies) : Edit (NodeKind × Copies) :=
  match kind with
  | .sequence items => do
    let (news, map) ← copyAll copy items map
    pure (.sequence news, map)
  | .alternation alternatives => do
    let (news, map) ← copyAll copy alternatives map
    pure (.alternation news, map)
  | .repetition inner bounds => do
    let (new, map) ← copy inner map
    pure (.repetition new bounds, map)
  | kind => pure (kind, map)

/-- Gives a copy the edges to the copies of the targets. -/
def copyEdges (copy : Nat → Copies → Edit (Nat × Copies)) (new : Nat) :
    List Nat → Copies → Edit Copies
  | [], map => pure map
  | target :: targets, map => do
    let (newTarget, map) ← copy target map
    link new newTarget
    copyEdges copy new targets map

/-- The copy of a node: the one in the map, or a new one. -/
def copyNode : Nat → Nat → Copies → Edit (Nat × Copies)
  | 0, _, _ => throw .endless
  | depth + 1, id, map =>
    match map[id]? with
    | some new => pure (new, map)
    | none => do
      let (kind, map) ← copyChildren (copyNode depth) (← kind id) map
      let new ← addNode kind
      let map ← copyEdges (copyNode depth) new (← node id).edges.toList (map.insert id new)
      pure (new, map)

/-- Copies the tree below a node, with all that its edges lead to.  A call that waits for a child
has at most as many such calls above it as there are nodes before one of them waits for an edge
instead; that one is in the map, so the depth is at most the square of the number of nodes. -/
def copyBelow (id : Nat) : Edit Nat := fun net =>
  match copyNode ((net.size + capacity) * (net.size + capacity)) id ∅ net with
  | .ok (new, _) net => .ok new net
  | .error fault net => .error fault net

/-! ## Lemmas -/

-- An equation of functions: at a network, checking it would begin to run `copyNode`.
theorem copyBelow_eq (id : Nat) : copyBelow id = fun net =>
    match copyNode ((net.size + capacity) * (net.size + capacity)) id ∅ net with
    | .ok (new, _) net => .ok new net
    | .error fault net => .error fault net := rfl

theorem exists_copyBelow_eq (id : Nat) (net : Network) :
    ∃ depth, (net.size + 1) * (net.size + 1) ≤ depth ∧
      ∀ new map net', copyNode depth id ∅ net = .ok (new, map) net' →
        copyBelow id net = .ok new net' := by
  have hle : net.size + 1 ≤ net.size + capacity := Nat.add_le_add_left (by decide) _
  refine ⟨(net.size + capacity) * (net.size + capacity), ?_, fun new map net' h => ?_⟩
  · exact Nat.mul_le_mul hle hle
  · rw [copyBelow_eq]
    simp only [h]

end Network.Edit

end PhraseSearch
