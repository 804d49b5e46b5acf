import Mathlib.Computability.Language
import Mathlib.Order.Interval.Set.Basic
import PhraseSearch.Proofs.Network.Edits

/-!
# Languages between nodes

A walk along edges reads the list names of the word nodes that it passes, both ends included.
`reads u v` is the language of the walks from `u` to `v`.  A `Region` is a set of nodes that no
edge leaves, so what is read from inside depends on nothing outside; a new edge inserts the language
of its detours, once for each time that it is used.

    what is read in a region is read in every network that has it      (Region.reads_eq)
    a new edge adds what is read by way of it                          (reads_link)
-/

open scoped Computability

namespace PhraseSearch.Network

/-! ## Edges -/

/-- The targets of a node's edges; none if there is no such node. -/
def targets (net : Network) (id : Nat) : List Nat :=
  match net.node? id with
  | some node => node.edges.toList
  | none => []

/-- The list name that a node stands for, if it is a word node. -/
def label (net : Network) (id : Nat) : List String :=
  match net.kind? id with
  | some (.terminal list) => [list]
  | _ => []

variable {net net' : Network}

theorem mem_targets {source target : Nat} :
    target ∈ net.targets source ↔ net.Edge source target := by
  unfold targets Edge
  cases hnode : net.node? source with
  | none => simp
  | some node => simp

theorem targets_of_node? {id : Nat} {node : Node} (h : net.node? id = some node) :
    net.targets id = node.edges.toList := by
  rw [targets, h]

/-- In a network that is written down, what holds of all edges can be checked. -/
theorem forall_edge {r : Nat → Nat → Prop} (h : ∀ id < net.size, ∀ t ∈ net.targets id, r id t)
    (source target : Nat) (hedge : net.Edge source target) : r source target := by
  obtain ⟨node, hnode, -⟩ := id hedge
  exact h source (lt_size_of_node? hnode) target (mem_targets.2 hedge)

theorem nodup_targets_of_lt (h : ∀ id < net.size, (net.targets id).Nodup) (id : Nat) :
    (net.targets id).Nodup := by
  cases hnode : net.node? id with
  | none =>
    rw [targets, hnode]
    exact List.nodup_nil
  | some node => exact h id (lt_size_of_node? hnode)

theorem targets_congr {id : Nat} (h : net'.node? id = net.node? id) :
    net'.targets id = net.targets id := by
  rw [targets, targets, h]

theorem label_congr {id : Nat} (h : net'.kind? id = net.kind? id) :
    net'.label id = net.label id := by
  rw [label, label, h]

theorem label_eq_nil {id : Nat} {k : NodeKind} (hkind : net.kind? id = some k)
    (hk : ∀ list, k ≠ .terminal list) : net.label id = [] := by
  rw [label, hkind]
  split
  · next list heq => exact absurd (Option.some.inj heq) (hk list)
  · rfl

theorem kind?_congr {id : Nat} (h : net'.node? id = net.node? id) :
    net'.kind? id = net.kind? id := by
  rw [kind?, kind?, h]

/-! ## New nodes -/

theorem targets_push (net : Network) (k : NodeKind) (id : Nat) :
    (net.push k).targets id = if id = net.size then [] else net.targets id := by
  by_cases hid : id = net.size
  · rw [if_pos hid, targets, node?_push, if_pos hid]
  · rw [if_neg hid, targets, node?_push, if_neg hid, targets]

theorem kind?_push_of_ne {id : Nat} (k : NodeKind) (h : id ≠ net.size) :
    (net.push k).kind? id = net.kind? id := by
  rw [kind?, kind?, node?_push, if_neg h]

/-! ## Linking -/

/-- The targets after one more, which is not repeated. -/
theorem targets_link {source target id : Nat} (hsource : source < net.size) :
    (net.update source (·.link target)).targets id =
      if id = source ∧ target ∉ net.targets id then net.targets id ++ [target]
      else net.targets id := by
  by_cases hid : id = source
  · subst hid
    obtain ⟨node, hnode⟩ := exists_node?_of_lt hsource
    have hnode' : (net.update id (·.link target)).node? id = some (node.link target) := by
      rw [node?_update, if_pos rfl, hnode]
      rfl
    rw [targets_of_node? hnode', targets_of_node? hnode, Node.link]
    by_cases hmem : target ∈ node.edges.toList
    · have hcontains : node.edges.contains target = true := by simpa using hmem
      rw [if_pos hcontains, if_neg fun h => h.2 hmem]
    · have hcontains : ¬ node.edges.contains target = true := by simpa using hmem
      rw [if_neg hcontains, if_pos ⟨rfl, hmem⟩]
      exact Array.toList_push
  · have hsame : (net.update source (·.link target)).node? id = net.node? id := by
      rw [node?_update, if_neg hid]
    rw [targets_congr hsame, if_neg fun h => hid h.1]

theorem edge_link {source target i j : Nat} (hsource : source < net.size) :
    (net.update source (·.link target)).Edge i j ↔ net.Edge i j ∨ i = source ∧ j = target := by
  rw [← mem_targets, ← mem_targets, targets_link hsource]
  split
  · next h => simp [h.1]
  · next h =>
    constructor
    · exact .inl
    · rintro (hj | ⟨rfl, rfl⟩)
      · exact hj
      · exact Classical.byContradiction fun hmem => h ⟨rfl, hmem⟩

theorem kind?_link (source target id : Nat) :
    (net.update source (·.link target)).kind? id = net.kind? id := by
  rw [kind?, kind?, node?_update]
  split
  · cases net.node? id with
    | none => rfl
    | some node =>
      simp only [Option.map_some, Node.link]
      split <;> rfl
  · rfl

theorem label_link (source target id : Nat) :
    (net.update source (·.link target)).label id = net.label id :=
  label_congr (kind?_link source target id)

/-! ## Reading -/

/-- Whether a walk along edges reads a sequence of list names, both of its ends included. -/
inductive Reads (net : Network) : Nat → List String → Nat → Prop
  | here (id : Nat) : Reads net id (net.label id) id
  | step {source next target : Nat} {w : List String} (edge : net.Edge source next)
      (rest : Reads net next w target) : Reads net source (net.label source ++ w) target

/-- What is read on the walks from one node to another. -/
def reads (net : Network) (source target : Nat) : Language String :=
  {w | net.Reads source w target}

theorem mem_reads {source target : Nat} {w : List String} :
    w ∈ net.reads source target ↔ net.Reads source w target := Iff.rfl

theorem Reads.link {u x y v : Nat} {p q : List String} (h : net.Reads u p x)
    (edge : net.Edge x y) (h' : net.Reads y q v) : net.Reads u (p ++ q) v := by
  induction h with
  | here => exact .step edge h'
  | step first _ ih =>
    rw [List.append_assoc]
    exact .step first (ih edge)

/-- What no edge leaves is not left by a walk. -/
theorem Walk.mem_of_closed {s : Set Nat} (hs : ∀ i j, i ∈ s → net.Edge i j → j ∈ s)
    {n u v : Nat} (h : net.Walk n u v) (hu : u ∈ s) : v ∈ s := by
  induction h with
  | refl => exact hu
  | step edge _ ih => exact ih (hs _ _ hu edge)

theorem Reads.exists_walk {u v : Nat} {w : List String} (h : net.Reads u w v) :
    ∃ n, net.Walk n u v := by
  induction h with
  | here id => exact ⟨0, .refl id⟩
  | step edge _ ih =>
    obtain ⟨n, hn⟩ := ih
    exact ⟨n + 1, .step edge hn⟩

theorem Reads.mem_of_closed {s : Set Nat} (hs : ∀ i j, i ∈ s → net.Edge i j → j ∈ s)
    {u v : Nat} {w : List String} (h : net.Reads u w v) (hu : u ∈ s) : v ∈ s := by
  obtain ⟨n, hn⟩ := h.exists_walk
  exact hn.mem_of_closed hs hu

theorem reads_eq_zero_of_closed {s : Set Nat} (hs : ∀ i j, i ∈ s → net.Edge i j → j ∈ s)
    {u v : Nat} (hu : u ∈ s) (hv : v ∉ s) : net.reads u v = 0 := by
  ext w
  exact iff_of_false (fun h => hv (h.mem_of_closed hs hu)) (Language.notMem_zero w)

/-- From a node without edges nothing else can be reached. -/
theorem reads_eq_zero_of_sink {u v : Nat} (hu : net.targets u = []) (hne : v ≠ u) :
    net.reads u v = 0 := by
  refine reads_eq_zero_of_closed (s := {u}) (fun i j hi hedge => ?_) rfl hne
  obtain rfl : i = u := hi
  rw [← mem_targets, hu] at hedge
  cases hedge

/-- A node that is on no cycle is read once. -/
theorem reads_self {u : Nat} (hu : ∀ v, net.Edge u v → net.reads v u = 0) :
    net.reads u u = {net.label u} := by
  ext w
  constructor
  · intro h
    cases h with
    | here => rfl
    | step edge rest =>
      have hrest : _ ∈ net.reads _ u := rest
      rw [hu _ edge] at hrest
      exact (Language.notMem_zero _ hrest).elim
  · rintro rfl
    exact .here u

theorem reads_self_of_sink {u : Nat} (hu : net.targets u = []) :
    net.reads u u = {net.label u} := by
  refine reads_self fun v hedge => ?_
  rw [← mem_targets, hu] at hedge
  cases hedge

/-- Where no edge leads nothing else can be read up to. -/
theorem reads_eq_zero_of_source {s : Set Nat} (hs : ∀ i j, i ∈ s → net.Edge i j → j ∈ s)
    {u v : Nat} (hsource : ∀ i ∈ s, ¬ net.Edge i v) (hu : u ∈ s) (hne : u ≠ v) :
    net.reads u v = 0 := by
  refine reads_eq_zero_of_closed (s := s \ {v}) (fun i j hi hedge => ?_) ⟨hu, hne⟩ (by simp)
  refine ⟨hs i j hi.1 hedge, ?_⟩
  rintro rfl
  exact hsource i hi.1 hedge

/-! ## A new edge -/

/-- After a link a walk either is as before, or it comes to the new edge, takes it and comes back
to it any number of times, and goes on from its target. -/
theorem reads_link {x y : Nat} (hx : x < net.size) (u v : Nat) :
    (net.update x (·.link y)).reads u v =
      net.reads u v + net.reads u x * (net.reads y x)∗ * net.reads y v := by
  ext w
  rw [Language.mem_add, mem_reads]
  constructor
  · intro h
    induction h with
    | here id => rw [label_link]; exact .inl (.here id)
    | @step source next target w edge rest ih =>
      rw [label_link]
      rcases (edge_link hx).1 edge with hold | ⟨rfl, rfl⟩
      · rcases ih with hbefore | hdetour
        · exact .inl (Reads.step hold hbefore)
        · obtain ⟨_, ⟨p, hp, m, hm, rfl⟩, q, hq, rfl⟩ := hdetour
          refine .inr ⟨_, ⟨net.label source ++ p, Reads.step hold hp, m, hm, rfl⟩, q, hq, ?_⟩
          simp only [List.append_assoc]
      · rcases ih with hbefore | hdetour
        · refine .inr ⟨_, ⟨net.label source, .here source, [], Language.nil_mem_kstar _, rfl⟩, w,
            hbefore, ?_⟩
          simp only [List.append_nil]
        · -- the rest begins with a walk back to the edge, which is one more round
          obtain ⟨_, ⟨p, hp, m, hm, rfl⟩, q, hq, rfl⟩ := hdetour
          have hround : p ++ m ∈ (net.reads next source)∗ := by
            rw [← Language.one_add_self_mul_kstar_eq_kstar]
            exact .inr ⟨p, hp, m, hm, rfl⟩
          refine .inr ⟨_, ⟨net.label source, .here source, p ++ m, hround, rfl⟩, q, hq, ?_⟩
          simp only [List.append_assoc]
  · have hmono : ∀ {i j : Nat} {p : List String}, net.Reads i p j →
        (net.update x (·.link y)).Reads i p j := by
      intro i j p h
      induction h with
      | here id => rw [← label_link x y]; exact .here id
      | step edge _ ih =>
        rw [← label_link x y]
        exact .step ((edge_link hx).2 (.inl edge)) ih
    have hnew : (net.update x (·.link y)).Edge x y := (edge_link hx).2 (.inr ⟨rfl, rfl⟩)
    rintro (hbefore | ⟨_, ⟨p, hp, m, hm, rfl⟩, q, hq, rfl⟩)
    · exact hmono hbefore
    · obtain ⟨rounds, rfl, hrounds⟩ := Language.mem_kstar.1 hm
      have hrest : (net.update x (·.link y)).Reads y (rounds.flatten ++ q) v := by
        clear hm
        induction rounds with
        | nil => exact hmono hq
        | cons r rounds ih =>
          obtain ⟨hr, hrounds⟩ := List.forall_mem_cons.1 hrounds
          rw [List.flatten_cons, List.append_assoc]
          exact (hmono hr).link hnew (ih hrounds)
      show (net.update x (·.link y)).Reads u (p ++ rounds.flatten ++ q) v
      rw [List.append_assoc]
      exact (hmono hp).link hnew hrest

/-! ## Regions -/

/-- A set of nodes that no edge leaves, each of whose nodes has its edges only once. -/
structure Region (net : Network) (s : Set Nat) : Prop where
  lt_size : ∀ id ∈ s, id < net.size
  closed : ∀ i j, i ∈ s → net.Edge i j → j ∈ s
  nodup : ∀ id ∈ s, (net.targets id).Nodup

namespace Region

variable {s t : Set Nat}

theorem congr (h : Region net s) (hsize : net.size ≤ net'.size)
    (hsame : ∀ id ∈ s, net'.node? id = net.node? id) : Region net' s where
  lt_size id hid := Nat.lt_of_lt_of_le (h.lt_size id hid) hsize
  closed i j hi hedge := by
    rw [← mem_targets, targets_congr (hsame i hi), mem_targets] at hedge
    exact h.closed i j hi hedge
  nodup id hid := by
    rw [targets_congr (hsame id hid)]
    exact h.nodup id hid

theorem union (h : Region net s) (h' : Region net t) : Region net (s ∪ t) where
  lt_size id hid := hid.elim (h.lt_size id) (h'.lt_size id)
  closed i j hi hedge := hi.imp (fun hi => h.closed i j hi hedge) fun hi => h'.closed i j hi hedge
  nodup id hid := hid.elim (h.nodup id) (h'.nodup id)

theorem link (h : Region net s) {x y : Nat} (hx : x ∈ s) (hy : y ∈ s) :
    Region (net.update x (·.link y)) s where
  lt_size id hid := by
    rw [size_update]
    exact h.lt_size id hid
  closed i j hi hedge := by
    rcases (edge_link (h.lt_size x hx)).1 hedge with hold | ⟨-, rfl⟩
    · exact h.closed i j hi hold
    · exact hy
  nodup id hid := by
    rw [targets_link (h.lt_size x hx)]
    split
    · next hnew =>
      refine List.nodup_append.2 ⟨h.nodup id hid, List.nodup_singleton y, ?_⟩
      rintro a ha b hb rfl
      rw [List.mem_singleton] at hb
      exact hnew.2 (hb ▸ ha)
    · exact h.nodup id hid

theorem reads_congr (h : Region net s) (hsame : ∀ id ∈ s, net'.node? id = net.node? id)
    {u v : Nat} {w : List String} (hu : u ∈ s) (hw : net.Reads u w v) : net'.Reads u w v := by
  induction hw with
  | here id => rw [← label_congr (kind?_congr (hsame id hu))]; exact .here id
  | @step source next target w edge rest ih =>
    have hedge : net'.Edge source next := by
      rw [← mem_targets, targets_congr (hsame source hu), mem_targets]
      exact edge
    rw [← label_congr (kind?_congr (hsame source hu))]
    exact .step hedge (ih (h.closed _ _ hu edge))

theorem reads_eq (h : Region net s) (hsize : net.size ≤ net'.size)
    (hsame : ∀ id ∈ s, net'.node? id = net.node? id) {u : Nat} (hu : u ∈ s) (v : Nat) :
    net'.reads u v = net.reads u v := by
  ext w
  constructor
  · exact (h.congr hsize hsame).reads_congr (fun id hid => (hsame id hid).symm) hu
  · exact h.reads_congr hsame hu

end Region

end PhraseSearch.Network
