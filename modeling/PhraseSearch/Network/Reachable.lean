import PhraseSearch.Network.Basic
import Std.Data.TreeSet

/-!
# Reachability along edges

`reachable` lists the nodes that can be reached from a node along edges, breadth first.
-/

namespace PhraseSearch.Network

/-- Works off a queue of ids from the position `next` on.  `found` holds the nodes met so far, in
order, and `seen` holds them as a set. -/
def reachableQueue (net : Network) (turns next : Nat) (queue : Array Nat) (seen : Std.TreeSet Nat)
    (found : Array Nat) : Except Fault (Array Nat) :=
  match queue[next]?, turns with
  | none, _ => .ok found
  | some _, 0 => .error .endless
  | some id, turns + 1 =>
    match net.node? id with
    | none => .error (.missing id)
    | some node =>
      if id ∈ seen then net.reachableQueue turns (next + 1) queue seen found
      else
        net.reachableQueue turns (next + 1) (queue ++ node.edges) (seen.insert id) (found.push id)

/-- The nodes reachable from a node, itself included, nearest first.  Every edge joins the queue at
most once. -/
def reachable (net : Network) (id : Nat) : Except Fault (List Nat) :=
  (net.reachableQueue (net.edgeCount + 1) 0 #[id] ∅ #[]).map (·.toList)

end PhraseSearch.Network
