import PhraseSearch.Grammar.Rounds
import PhraseSearch.Pattern.OfRules

/-!
# The grafts of inlining

A graft puts copies of closed trees in the place of references below the root of an open rule.
`Performs` lists the grafts that rounds make.  No node should belong to two trees, or to one tree
twice, since a change in one place would then show in the other; `Separate` says that none does.
-/

namespace PhraseSearch

/-- The node at the end of a path, which says at each node which child comes next. -/
def Network.follow? (net : Network) : Nat → List Nat → Option Nat
  | id, [] => some id
  | id, slot :: path =>
    (net.kind? id).bind fun kind => kind.children[slot]?.bind fun child => net.follow? child path

namespace Grammar

/-- Whether there are trees below roots, and every node is reached from one of them at most, and
along one path at most. -/
structure Separate (net : Network) (roots : List (String × Nat)) : Prop where
  tree : ∀ e ∈ roots, ∃ p, net.pattern? e.2 = some p
  path : ∀ e ∈ roots, ∀ e' ∈ roots, ∀ path path' id, net.follow? e.2 path = some id →
    net.follow? e'.2 path' = some id → e = e' ∧ path = path'

/-- Trees are grafted onto the references below the root of a rule. -/
structure Graft where
  before : Network
  /-- the roots of the trees, by name -/
  trees : NameMap Nat
  name : String
  root : Nat
  after : Network

/-- The graft that comes next in a round, after some others. -/
def Graft.inRound (roots : List (String × Nat)) (net : Network) (grafts : Nat) (name : String)
    (root : Nat) : Graft where
  before := part roots grafts net
  trees := addRoots .empty (splitRoots net roots).1
  name
  root
  after := part roots (grafts + 1) net

/-- Which grafts rounds make, if so many rules were closed before.  There is a round unless all rules
are closed, or no more of them than before. -/
inductive Performs (roots : List (String × Nat)) : Nat → Network → Graft → Prop
  | now {known : Nat} {net : Network} {grafts : Nat} {name : String} {root : Nat}
      (next : (splitRoots net roots).2[grafts]? = some (name, root))
      (more : (splitRoots net roots).1.length ≠ known) :
      Performs roots known net (.inRound roots net grafts name root)
  | later {known : Nat} {net : Network} {graft : Graft} (some : (splitRoots net roots).2 ≠ [])
      (more : (splitRoots net roots).1.length ≠ known)
      (rest : Performs roots (splitRoots net roots).1.length (round roots net) graft) :
      Performs roots known net graft

/-- Whether a graft does what it should: every reference below the root to a name that has a tree is
replaced by this tree, and nothing else is changed. -/
structure Graft.Replaces (graft : Graft) (roots : List (String × Nat)) : Prop where
  /-- the pattern below the root changes, and the graft tells whether there was such a reference -/
  own : ∃ p changed, graft.before.pattern? graft.root = some p ∧
    Network.Edit.graft graft.root graft.trees graft.before = .ok changed graft.after ∧
    graft.after.pattern? graft.root =
      some (p.replace fun rule => (graft.trees.get? rule).bind graft.before.pattern?) ∧
    (changed = true ↔ ∃ rule ∈ p.references, (graft.trees.get? rule).isSome = true)
  /-- other rules keep their patterns, and all their nodes -/
  others : ∀ e ∈ roots, e.1 ≠ graft.name →
    graft.after.pattern? e.2 = graft.before.pattern? e.2 ∧
    ∀ path id, graft.before.follow? e.2 path = some id →
      graft.after.node? id = graft.before.node? id

end Grammar

end PhraseSearch
