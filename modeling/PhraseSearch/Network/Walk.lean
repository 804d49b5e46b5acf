import PhraseSearch.Network.Basic

/-!
# Walks along edges

`Walk net n i j` says that `n` edges lead from node `i` to node `j`.  `Sees` follows connectors
only: the nodes between are all connectors.  `Spans` also follows children, and so reaches all that
a copy of a tree has to hold.  The `Distance` to a node is the length of the shortest walks there.

    walks can be put together                                          (Walk.trans)
    every walk but the empty one has a last edge                       (Walk.exists_last)
-/

namespace PhraseSearch.Network

/-- Whether an edge leads from one node to another. -/
def Edge (net : Network) (source target : Nat) : Prop :=
  ∃ node, net.node? source = some node ∧ target ∈ node.edges

/-- Whether a node is a child of another. -/
def Child (net : Network) (parent child : Nat) : Prop :=
  ∃ node, net.node? parent = some node ∧ child ∈ node.kind.children

/-- Whether so many edges lead from one node to another. -/
inductive Walk (net : Network) : Nat → Nat → Nat → Prop
  | refl (id : Nat) : Walk net 0 id id
  | step {n source next target : Nat} (edge : net.Edge source next)
      (rest : Walk net n next target) : Walk net (n + 1) source target

/-- Whether the shortest walks from one node to another have so many edges. -/
structure Distance (net : Network) (source target n : Nat) : Prop where
  walk : net.Walk n source target
  least : ∀ m, net.Walk m source target → n ≤ m

/-- Whether edges lead from one node to another by way of connectors alone; there is at least one
edge. -/
inductive Sees (net : Network) : Nat → Nat → Prop
  | edge {source target : Nat} (edge : net.Edge source target) : Sees net source target
  | past {source between target : Nat} (edge : net.Edge source between)
      (join : net.kind? between = some .join) (rest : Sees net between target) :
      Sees net source target

/-- Whether children and edges lead from one node to another, in any number of steps. -/
inductive Spans (net : Network) : Nat → Nat → Prop
  | refl (id : Nat) : Spans net id id
  | child {source next target : Nat} (child : net.Child source next)
      (rest : Spans net next target) : Spans net source target
  | edge {source next target : Nat} (edge : net.Edge source next)
      (rest : Spans net next target) : Spans net source target

/-- Whether no node is its own descendant by children. -/
def Acyclic (net : Network) : Prop :=
  ∃ rank : Nat → Nat, ∀ parent child, net.Child parent child → rank child < rank parent

/-- Whether every edge leads to a node. -/
def EdgesInRange (net : Network) : Prop :=
  ∀ source target, net.Edge source target → target < net.size

/-- Whether every child is a node. -/
def ChildrenInRange (net : Network) : Prop :=
  ∀ parent child, net.Child parent child → child < net.size

/-! ## Lemmas -/

theorem Walk.trans {net : Network} {m n i j k : Nat} (h : net.Walk m i j)
    (h' : net.Walk n j k) : net.Walk (m + n) i k := by
  induction h with
  | refl => simpa using h'
  | step edge _ ih => rw [Nat.add_right_comm]; exact .step edge (ih h')

theorem Walk.exists_last {net : Network} {n i k : Nat} (h : net.Walk (n + 1) i k) :
    ∃ j, net.Walk n i j ∧ net.Edge j k := by
  induction n generalizing i with
  | zero =>
    obtain _ | ⟨edge, rest⟩ := h
    cases rest
    exact ⟨i, .refl i, edge⟩
  | succ n ih =>
    obtain _ | ⟨edge, rest⟩ := h
    obtain ⟨j, hj, last⟩ := ih rest
    exact ⟨j, .step edge hj, last⟩

theorem Spans.trans {net : Network} {i j k : Nat} (h : net.Spans i j) (h' : net.Spans j k) :
    net.Spans i k := by
  induction h with
  | refl => exact h'
  | child child _ ih => exact .child child (ih h')
  | edge edge _ ih => exact .edge edge (ih h')

end PhraseSearch.Network
