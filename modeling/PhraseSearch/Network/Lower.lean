import PhraseSearch.Network.Segment

/-!
# Lowering trees to plain nodes

`lowerBelow` builds a segment of plain nodes for the tree below a node: its paths from the entry to
the exit are labelled with the sequences of list names that the tree allows.  Sequences,
alternations and repetitions get a connector at either end.  A repetition is built from a template
that is copied once more than it is used; what is left over stays unreachable.

A node is looked up when the work comes to it, so a child may be a node that has been made on the
way.
-/

namespace PhraseSearch.Network.Edit

/-! ## Repetitions -/

/-- Appends copies of the template, one after the other.  `copy` is the next copy to use; the
answer is the new open end and the next copy. -/
def appendCopies (template : Segment) : Nat → Nat → Segment → Edit (Nat × Segment)
  | 0, last, copy => pure (last, copy)
  | times + 1, last, copy => do
    link last copy.entry
    appendCopies template times copy.exit (← copySegment template)

/-- Appends copies of the template, each of which may be left out together with those after it. -/
def appendOptional (template : Segment) (finish : Nat) : Nat → Nat → Segment → Edit Nat
  | 0, last, _ => pure last
  | times + 1, last, copy => do
    link last finish
    link last copy.entry
    appendOptional template finish times copy.exit (← copySegment template)

/-- Appends one copy of the template that may be left out or run any number of times. -/
def appendLoop (finish last : Nat) (copy : Segment) : Edit Nat := do
  link last finish
  link last copy.entry
  link copy.exit copy.entry
  pure copy.exit

/-- Wires the repetitions of a template between two connectors. -/
def lowerRepetition (start finish : Nat) (template : Segment) (bounds : Bounds) : Edit Segment := do
  let (last, copy) ← appendCopies template bounds.low start (← copySegment template)
  let last ←
    match bounds.high with
    | none => appendLoop finish last copy
    | some high => appendOptional template finish (high - bounds.low) last copy
  link last finish
  pure ⟨start, finish⟩

/-! ## Trees -/

/-- A segment that is a single new node. -/
def single (kind : NodeKind) : Edit Segment := do
  let id ← addNode kind
  pure ⟨id, id⟩

/-- Builds the items of a sequence, each wired to the end of the one before; the answer is the
last end. -/
def lowerSequence (lower : Nat → Edit Segment) : List Nat → Nat → Edit Nat
  | [], last => pure last
  | item :: items, last => do
    let segment ← lower item
    link last segment.entry
    lowerSequence lower items segment.exit

/-- Builds alternatives side by side between two nodes. -/
def lowerAlternatives (lower : Nat → Edit Segment) : List Nat → Nat → Nat → Edit Unit
  | [], _, _ => pure ()
  | alternative :: alternatives, start, finish => do
    let segment ← lower alternative
    link start segment.entry
    link segment.exit finish
    lowerAlternatives lower alternatives start finish

/-- Builds the plain nodes of the tree below a node, down to the given depth. -/
def lowerNode : Nat → Nat → Edit Segment
  | 0, _ => throw .endless
  | depth + 1, id => do
    match ← kind id with
    | .join | .start | .finish => single .join
    | .terminal list => single (.terminal list)
    | .sequence items => do
      let start ← addNode .join
      let finish ← addNode .join
      let last ← lowerSequence (lowerNode depth) items start
      link last finish
      pure ⟨start, finish⟩
    | .alternation alternatives => do
      let start ← addNode .join
      let finish ← addNode .join
      lowerAlternatives (lowerNode depth) alternatives start finish
      pure ⟨start, finish⟩
    | .repetition inner bounds => do
      let start ← addNode .join
      let finish ← addNode .join
      lowerRepetition start finish (← lowerNode depth inner) bounds
    | .reference rule => throw (.openReference rule)

/-- Builds the plain nodes of the tree below a node.  The nodes that are made on the way have no
children, so a path that is longer than the number of nodes before, and one more, passes one of
them twice. -/
def lowerBelow (id : Nat) : Edit Segment := do
  lowerNode ((← get).size + 1) id

end PhraseSearch.Network.Edit
