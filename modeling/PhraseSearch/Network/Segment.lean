import PhraseSearch.Network.Copy

/-!
# Copying segments

A `Segment` is a part of a network with one way in and one way out.  `copySegment` copies every node
that can be reached from the entry, breadth first, and gives the copies the edges that lead to the
copies.
-/

namespace PhraseSearch

/-- Where a part of a network is entered and where it is left. -/
structure Segment where
  entry : Nat
  exit : Nat
deriving DecidableEq

namespace Network.Edit

/-- Gives a copy the edges to the copies of the targets.  A target without a copy gets one and
joins the queue. -/
def copySegmentEdges (new : Nat) :
    List Nat → Copies → Array (Nat × Nat) → Edit (Copies × Array (Nat × Nat))
  | [], map, queue => pure (map, queue)
  | target :: targets, map, queue =>
    match map[target]? with
    | some newTarget => do
      link new newTarget
      copySegmentEdges new targets map queue
    | none => do
      let newTarget ← addNode (← kind target)
      link new newTarget
      copySegmentEdges new targets (map.insert target newTarget) (queue.push (target, newTarget))

/-- Works off a queue of nodes and their copies: those from `next` on have no edges yet. -/
def copySegmentQueue (turns next : Nat) (map : Copies) (queue : Array (Nat × Nat)) :
    Edit Copies :=
  match queue[next]?, turns with
  | none, _ => pure map
  | some _, 0 => throw .endless
  | some (id, new), turns + 1 => do
    let (map, queue) ← copySegmentEdges new (← node id).edges.toList map queue
    copySegmentQueue turns (next + 1) map queue

/-- Copies all that can be reached from the entry of a segment.  An exit that cannot be reached
is copied without edges.  Every node joins the queue at most once, also those that only come to
exist on the way. -/
def copySegment (segment : Segment) : Edit Segment := do
  let turns := (← get).size + capacity
  let entry ← addNode (← kind segment.entry)
  let map ← copySegmentQueue turns 0 ((∅ : Copies).insert segment.entry entry)
    #[(segment.entry, entry)]
  match map[segment.exit]? with
  | some exit => pure ⟨entry, exit⟩
  | none => return ⟨entry, ← addNode (← kind segment.exit)⟩

end Network.Edit

end PhraseSearch
