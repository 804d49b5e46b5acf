import PhraseSearch.Automaton.Basic
import PhraseSearch.Network.Lower
import Std.Data.TreeSet

/-!
# From networks to automata

`automatonBelow` lowers the tree below a node between a new start and a new end, and then removes
the connectors: every node that is kept gets edges to the kept nodes that it reaches through
connectors alone.  States are numbered in the order in which they are found from the start.
-/

namespace PhraseSearch

namespace Network

/-! ## Skipping connectors -/

/-- Works off a stack of ids, the top one first.  `seen` holds the nodes met so far, and `found`
those of them that are kept, in order. -/
def skipJoins (net : Network) :
    Nat → Std.TreeSet Nat → Array Nat → List Nat → Except Fault (Array Nat)
  | _, _, found, [] => .ok found
  | 0, _, _, _ :: _ => .error .endless
  | turns + 1, seen, found, id :: stack =>
    match net.node? id with
    | none => .error (.missing id)
    | some node =>
      if id ∈ seen then net.skipJoins turns seen found stack
      else if node.kind = .join then
        net.skipJoins turns (seen.insert id) found (node.edges.toList ++ stack)
      else net.skipJoins turns (seen.insert id) (found.push id) stack

/-- The kept nodes that a walk of so many turns meets. -/
def visibleWithin (net : Network) (turns id : Nat) : Except Fault (List Nat) :=
  match net.node? id with
  | none => .error (.missing id)
  | some node => (net.skipJoins turns ∅ #[] node.edges.toList).map (·.toList)

/-- The kept nodes that can be reached from a kept node through connectors alone, each once, in the
order in which a depth-first walk meets them.  Every edge is put on the stack at most once. -/
def visibleTargets (net : Network) (id : Nat) : Except Fault (List Nat) :=
  net.visibleWithin (net.edgeCount + 1) id

/-! ## Numbering -/

/-- The numbers given to nodes so far: `order` lists the nodes by number. -/
structure Numbering where
  numbers : Std.TreeMap Nat Nat
  order : Array Nat

/-- The number of a node, a new one if it has none yet. -/
def Numbering.number (m : Numbering) (id : Nat) : Nat × Numbering :=
  match m.numbers[id]? with
  | some n => (n, m)
  | none => (m.order.size, ⟨m.numbers.insert id m.order.size, m.order.push id⟩)

/-- The numbers of several nodes, one after the other. -/
def Numbering.numberAll (m : Numbering) : List Nat → List Nat × Numbering
  | [] => ([], m)
  | id :: ids =>
    let (n, m) := m.number id
    let (ns, m) := m.numberAll ids
    (n :: ns, m)

/-- The label of the state that a node becomes; combinators become none. -/
def stateLabel? : NodeKind → Option Automaton.Label
  | .start => some .start
  | .finish => some .finish
  | .terminal list => some (.word list none)
  | _ => none

/-- Makes the states of the nodes in the numbering from `states.size` on, while the numbering
grows.  `steps` is enough for the walk from any of them. -/
def numberStates (net : Network) (steps : Nat) :
    Nat → Numbering → Array Automaton.State → Except Fault (Array Automaton.State)
  | turns, numbering, states =>
    match numbering.order[states.size]? with
    | none => .ok states
    | some id =>
      match turns with
      | 0 => .error .endless
      | turns + 1 => do
        let successors ← net.visibleWithin steps id
        match (net.kind? id).bind stateLabel? with
        | none => .error (.missing id)
        | some label =>
          let (edges, numbering) := numbering.numberAll successors
          net.numberStates steps turns numbering (states.push ⟨label, edges⟩)

/-- The automaton of the plain nodes between a start and an end.  Every node is numbered at most
once. -/
def withoutJoins (net : Network) (start finish : Nat) : Except Fault Automaton := do
  let numbers := (∅ : Std.TreeMap Nat Nat).insert start Automaton.start
  let numbering : Numbering := ⟨numbers.insert finish Automaton.finish, #[start, finish]⟩
  return ⟨← net.numberStates (net.edgeCount + 1) (net.size + 1) numbering #[]⟩

end Network

/-! ## Building -/

namespace Network.Edit

/-- What hangs directly off the start: the alternatives of an alternation, or the node itself. -/
def branches (kind : NodeKind) (top : Nat) : List Nat :=
  match kind with
  | .alternation alternatives => alternatives
  | _ => [top]

/-- The automaton of the tree below a node: the tree is lowered between a new start and a new end,
and the connectors are removed. -/
def automatonBelow (top : Nat) : Edit Automaton := do
  let start ← addNode .start
  let finish ← addNode .finish
  let depth := (← get).size + 1
  lowerAlternatives (lowerNode depth) (branches (← kind top) top) start finish
  match (← get).withoutJoins start finish with
  | .ok automaton => pure automaton
  | .error fault => throw fault

end Network.Edit

end PhraseSearch
