import PhraseSearch.Grammar.Basic
import PhraseSearch.Network.Graft
import PhraseSearch.Network.Tree

/-!
# Inlining rules

A rule is *closed* when no reference is left below its root, otherwise it is *open*.  `inline`
works in rounds: copies of the closed rules take the place of the references to them.  It ends when
every rule is closed, or when a round has closed no further rule; then the references that are left
lead to a cycle or to a name that no rule has.
-/

namespace PhraseSearch

/-- Whether no reference is left below a root. -/
def Network.isClosedRoot (net : Network) (root : Nat) : Bool :=
  match net.isClosed root with
  | .ok closed => closed
  | .error _ => false

namespace Grammar

/-- Whether a rule is closed; nothing if there is no such rule. -/
def isClosed? (g : Grammar) (name : String) : Option Bool :=
  (g.roots.lookup name).map g.network.isClosedRoot

/-- Adds roots to those by name. -/
def addRoots (trees : NameMap Nat) (roots : List (String × Nat)) : NameMap Nat :=
  roots.foldl (fun trees (name, root) => trees.insert name root) trees

/-- Grafts trees onto the references below several roots, one after the other. -/
def graftAll (trees : NameMap Nat) : List (String × Nat) → Network.Edit Unit
  | [] => pure ()
  | (_, root) :: roots => do
    let _ ← Network.Edit.graft root trees
    graftAll trees roots

/-- The network after trees have been grafted onto the references below several roots. -/
def graftedNetwork (net : Network) (trees : NameMap Nat) (roots : List (String × Nat)) :
    Network :=
  match graftAll trees roots net with
  | .ok _ net => net
  | .error _ net => net

/-- The roots of closed rules, and those of open rules. -/
def splitRoots (net : Network) (roots : List (String × Nat)) :
    List (String × Nat) × List (String × Nat) :=
  roots.partition fun (_, root) => net.isClosedRoot root

theorem length_splitRoots {net : Network} {roots closed rest : List (String × Nat)}
    (h : splitRoots net roots = (closed, rest)) : closed.length + rest.length = roots.length := by
  rw [splitRoots, List.partition_eq_filter_filter, Prod.mk.injEq] at h
  obtain ⟨rfl, rfl⟩ := h
  rw [← List.countP_eq_length_filter, ← List.countP_eq_length_filter,
    List.length_eq_countP_add_countP fun (_, root) => net.isClosedRoot root]
  congr 1
  exact List.countP_congr fun _ _ => by simp

/-- Rounds, as long as each closes further rules: `trees` are the roots of the rules that have been
found closed, and `others` are the other roots.  A rule that is closed stays so, since there is
nothing left to be replaced below its root.  The answer is the network, and the roots of the rules
that stay open. -/
def inlineRounds (net : Network) (trees : NameMap Nat) (others : List (String × Nat)) :
    Network × List (String × Nat) :=
  match _split : splitRoots net others with
  | ([], rest) => (net, rest)
  | (root :: closed, rest) =>
    let trees := addRoots trees (root :: closed)
    inlineRounds (graftedNetwork net trees rest) trees rest
termination_by others.length
decreasing_by
  have := length_splitRoots ‹_›
  simp only [List.length_cons] at this
  omega

/-- Inlines rules as far as possible, and fails if some stay open. -/
def inline (g : Grammar) : Except Fault Unit × Grammar :=
  let (network, rest) := inlineRounds g.network .empty g.roots
  (if rest.isEmpty then .ok () else .error (.recursion (NameMap.ofList rest).names),
    { g with network })

end Grammar

end PhraseSearch
