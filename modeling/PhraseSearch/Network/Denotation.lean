import Mathlib.Data.List.Forall2
import PhraseSearch.Network.Walk
import PhraseSearch.Rule.Derivation

/-!
# What nodes stand for

`Denotes` says which sequences of list names the tree below a node allows.  It is read off the nodes
themselves, so nodes may be shared, and nothing is asked of what stands elsewhere in the network.
There is a tree below a node if all nodes in it are there and none is below itself; it can be
lowered if none of them is a reference.

    there are trees if children stand before their parents             (HasTree.of_lt)
-/

namespace PhraseSearch.Network

/-- Whether children lead from a node to another, in any number of steps, or none. -/
inductive Descends (net : Network) : Nat → Nat → Prop
  | refl (id : Nat) : Descends net id id
  | step {id next target : Nat} (child : net.Child id next) (rest : Descends net next target) :
      Descends net id target

/-- Whether there is a tree below a node. -/
structure HasTree (net : Network) (top : Nat) : Prop where
  /-- every node below is there -/
  lt_size : ∀ id, net.Descends top id → id < net.size
  /-- none of them is below itself -/
  acyclic : ∀ id child, net.Descends top id → net.Child id child → ¬ net.Descends child id

/-- Whether the tree below a node can be lowered. -/
structure Lowerable (net : Network) (top : Nat) : Prop where
  /-- every node below is there -/
  lt_size : ∀ id, net.Descends top id → id < net.size
  /-- none of them is below itself -/
  acyclic : ∀ id child, net.Descends top id → net.Child id child → ¬ net.Descends child id
  /-- none of them is a reference -/
  closed : ∀ id rule, net.Descends top id → net.kind? id ≠ some (.reference rule)

/-- Whether the tree below a node allows a sequence of list names: connectors, the start and the end
stand for no name, a word for its own list, a sequence for its items one after the other, an
alternation for any of its alternatives, and a repetition for as many rounds as its bounds allow. -/
inductive Denotes (net : Network) : Nat → List String → Prop
  | connector {id : Nat} {k : NodeKind} (kind : net.kind? id = some k)
      (silent : k = .join ∨ k = .start ∨ k = .finish) : Denotes net id []
  | terminal {id : Nat} {list : String} (kind : net.kind? id = some (.terminal list)) :
      Denotes net id [list]
  | sequence {id : Nat} {items : List Nat} {parts : List (List String)}
      (kind : net.kind? id = some (.sequence items))
      (each : List.Forall₂ (Denotes net) items parts) : Denotes net id parts.flatten
  | alternation {id alternative : Nat} {alternatives : List Nat} {w : List String}
      (kind : net.kind? id = some (.alternation alternatives)) (mem : alternative ∈ alternatives)
      (chosen : Denotes net alternative w) : Denotes net id w
  | repetition {id inner : Nat} {bounds : Bounds} {rounds : List (List String)}
      (kind : net.kind? id = some (.repetition inner bounds)) (times : bounds.Allows rounds.length)
      (each : ∀ w ∈ rounds, Denotes net inner w) : Denotes net id rounds.flatten

/-! ## Lemmas -/

theorem HasTree.of_child {net : Network} {top child : Nat} (h : net.HasTree top)
    (hchild : net.Child top child) : net.HasTree child where
  lt_size id hid := h.lt_size id (.step hchild hid)
  acyclic id next hid := h.acyclic id next (.step hchild hid)

theorem Lowerable.hasTree {net : Network} {top : Nat} (h : net.Lowerable top) : net.HasTree top where
  lt_size := h.lt_size
  acyclic := h.acyclic

/-- There are trees below all nodes if all children stand before their parents. -/
theorem HasTree.of_lt {net : Network} {top : Nat} (htop : top < net.size)
    (hlt : ∀ id < net.size, ∀ kind ∈ net.kind? id, ∀ child ∈ kind.children, child < id) :
    net.HasTree top := by
  have hchild : ∀ id child, id < net.size → net.Child id child → child < id := by
    rintro id child hid ⟨node, hnode, hmem⟩
    exact hlt id hid node.kind (Option.mem_def.2 (by rw [kind?, hnode]; rfl)) child hmem
  have hbelow : ∀ {id target}, net.Descends id target → id < net.size → target ≤ id := by
    intro id target h
    induction h with
    | refl id => exact fun _ => Nat.le_refl id
    | @step id next target child rest ih =>
      intro hid
      have hnext := hchild id next hid child
      exact Nat.le_trans (ih (Nat.lt_trans hnext hid)) (Nat.le_of_lt hnext)
  have hsize : ∀ id, net.Descends top id → id < net.size := fun id h =>
    Nat.lt_of_le_of_lt (hbelow h htop) htop
  refine ⟨hsize, ?_⟩
  intro id child h hid hback
  have hnext := hchild id child (hsize id h) hid
  exact absurd (hbelow hback (Nat.lt_trans hnext (hsize id h))) (by omega)

/-- They can be lowered if there are no references besides. -/
theorem Lowerable.of_lt {net : Network} {top : Nat} (htop : top < net.size)
    (hlt : ∀ id < net.size, ∀ kind ∈ net.kind? id, ∀ child ∈ kind.children, child < id)
    (hclosed : ∀ id < net.size, ∀ rule, net.kind? id ≠ some (.reference rule)) :
    net.Lowerable top := by
  have htree := HasTree.of_lt htop hlt
  exact ⟨htree.lt_size, htree.acyclic, fun id rule h => hclosed id (htree.lt_size id h) rule⟩

end PhraseSearch.Network
