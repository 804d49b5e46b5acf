import PhraseSearch.Rule.Basic

/-!
# Networks of nodes

A rule is compiled in a `Network`: an arena of nodes that are named by their index.  A node is
either *plain* (a connector, the start, the end, or one word of a list) or a combinator over other
nodes.  Plain nodes are wired by edges; combinators have children.  Nothing is ever removed, and
neither children nor edge targets are checked when a node is made, so a network may name nodes
that do not exist.

`Edit` is the type of the operations that change a network.  An operation that fails keeps the
nodes it has made before.

    a new node is the last one, without edges                          (node?_push_size)
    older nodes stay as they are                                       (node?_push_of_lt)
-/

namespace PhraseSearch

/-! ## Nodes -/

/-- What a node is. -/
inductive NodeKind where
  /-- a connector without a label -/
  | join
  /-- where every path begins -/
  | start
  /-- where every path ends -/
  | finish
  /-- one word of the named list -/
  | terminal (list : String)
  /-- the items one after another -/
  | sequence (items : List Nat)
  /-- any one of the alternatives -/
  | alternation (alternatives : List Nat)
  /-- the inner node, repeated -/
  | repetition (inner : Nat) (bounds : Bounds)
  /-- a rule that has not been put in its place yet -/
  | reference (rule : String)
deriving DecidableEq

namespace NodeKind

/-- Plain nodes are wired by edges; all others have to be lowered to such nodes. -/
def isPlain : NodeKind → Bool
  | .join | .start | .finish | .terminal _ => true
  | .sequence _ | .alternation _ | .repetition _ _ | .reference _ => false

/-- The ids of the nodes a combinator is made of, in order. -/
def children : NodeKind → List Nat
  | .sequence items => items
  | .alternation alternatives => alternatives
  | .repetition inner _ => [inner]
  | _ => []

/-- The kind with other children, one for each. -/
def withChild (kind : NodeKind) (slot child : Nat) : NodeKind :=
  match kind with
  | .sequence items => .sequence (items.set slot child)
  | .alternation alternatives => .alternation (alternatives.set slot child)
  | .repetition _ bounds => .repetition child bounds
  | kind => kind

end NodeKind

/-- A node and the targets of its edges. -/
structure Node where
  kind : NodeKind
  edges : Array Nat
deriving DecidableEq

/-- The node with an edge to `target`; an edge that exists already is not repeated. -/
def Node.link (node : Node) (target : Nat) : Node :=
  if node.edges.contains target then node else { node with edges := node.edges.push target }

/-- The node with further alternatives, if it is an alternation. -/
def Node.addAlternatives (node : Node) (more : List Nat) : Node :=
  match node.kind with
  | .alternation alternatives => { node with kind := .alternation (alternatives ++ more) }
  | _ => node

/-- An arena of nodes. -/
structure Network where
  nodes : Array Node
deriving DecidableEq

namespace Network

/-- Why an operation on a network fails. -/
inductive Fault where
  /-- there is no node of this id -/
  | missing (id : Nat)
  /-- a node is its own descendant, so that its tree has no end -/
  | endless
  /-- a reference stands where plain nodes are needed -/
  | openReference (rule : String)
deriving DecidableEq

def Fault.message : Fault → String
  | .missing id => s!"there is no node {id}"
  | .endless => "a node is its own descendant"
  | .openReference rule => s!"unresolved reference to rule '{rule}'"

/-- An operation on a network. -/
abbrev Edit := EStateM Fault Network

/-! ## Reading -/

/-- The network without nodes. -/
def empty : Network := ⟨#[]⟩

/-- The number of nodes. -/
def size (net : Network) : Nat := net.nodes.size

/-- Whether there is no node. -/
def isEmpty (net : Network) : Bool := net.nodes.isEmpty

/-- The node of an id. -/
def node? (net : Network) (id : Nat) : Option Node := net.nodes[id]?

/-- What the node of an id is. -/
def kind? (net : Network) (id : Nat) : Option NodeKind := (net.node? id).map (·.kind)

/-- More nodes than a network ever comes to hold, 2^32: ids have 32 bits. -/
def capacity : Nat := 4294967296

/-- The number of edges. -/
def edgeCount (net : Network) : Nat :=
  (net.nodes.toList.map (·.edges.size)).foldr (· + ·) 0

/-! ## Changing -/

/-- The network with one more node. -/
def push (net : Network) (kind : NodeKind) : Network := ⟨net.nodes.push ⟨kind, #[]⟩⟩

/-- The network with one node changed. -/
def update (net : Network) (id : Nat) (change : Node → Node) : Network :=
  ⟨net.nodes.modify id change⟩

namespace Edit

/-- The node of an id. -/
def node (id : Nat) : Edit Node := fun net =>
  match net.node? id with
  | some node => .ok node net
  | none => .error (.missing id) net

/-- What the node of an id is. -/
def kind (id : Nat) : Edit NodeKind := do
  return (← node id).kind

/-- Makes a node and returns its id. -/
def addNode (kind : NodeKind) : Edit Nat := fun net => .ok net.size (net.push kind)

/-- Changes a node. -/
def change (id : Nat) (f : Node → Node) : Edit Unit := fun net =>
  if id < net.size then .ok () (net.update id f) else .error (.missing id) net

/-- Adds an edge, unless the node has it already. -/
def link (source target : Nat) : Edit Unit := change source (·.link target)

/-- Adds an alternative to an alternation; other nodes are left alone. -/
def addAlternative (id alternative : Nat) : Edit Unit :=
  change id (·.addAlternatives [alternative])

/-- Puts a node in the place of a child. -/
def putChild (id slot child : Nat) : Edit Unit :=
  change id fun node => { node with kind := node.kind.withChild slot child }

end Edit

/-! ## Lemmas -/

@[simp] theorem size_push (net : Network) (kind : NodeKind) :
    (net.push kind).size = net.size + 1 := by
  simp [push, size]

theorem node?_push (net : Network) (kind : NodeKind) (id : Nat) :
    (net.push kind).node? id = if id = net.size then some ⟨kind, #[]⟩ else net.node? id := by
  simp only [push, node?, size]
  exact Array.getElem?_push

theorem node?_push_size (net : Network) (kind : NodeKind) :
    (net.push kind).node? net.size = some ⟨kind, #[]⟩ := by
  simp [node?_push]

theorem node?_push_of_lt {net : Network} {id : Nat} (kind : NodeKind) (h : id < net.size) :
    (net.push kind).node? id = net.node? id := by
  rw [node?_push, if_neg (Nat.ne_of_lt h)]

@[simp] theorem size_update (net : Network) (id : Nat) (f : Node → Node) :
    (net.update id f).size = net.size := by
  simp [update, size]

theorem node?_update (net : Network) (id : Nat) (f : Node → Node) (k : Nat) :
    (net.update id f).node? k = if k = id then (net.node? k).map f else net.node? k := by
  simp only [update, node?, Array.getElem?_modify]
  by_cases h : k = id
  · subst h; simp
  · have : ¬ id = k := fun e => h e.symm
    simp [h, this]

end Network

end PhraseSearch
