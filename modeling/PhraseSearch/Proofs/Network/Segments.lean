import PhraseSearch.Proofs.Network.Liveness

/-!
# Copies of segments

`copySegment` copies the nodes that it meets in the order in which they join its queue, so that the
copy of the `k`th of them is the `k`th new node.  `Copied` says what holds of the list of originals
in the end: it is closed under edges, and the copies have the kinds and the edges of the originals.

A segment lies `Within` a set of nodes if the set is a region that it can be read in on its own: its
exit has no edges, no edge leads to its entry, and all nodes are connectors or words.

    the copies of the targets of a node are the targets of its copy    (Copied.targets_copy)
    between copies the same is read as between originals               (Copied.reads_eq)
    a copy of a live segment is live                                   (Copied.live)
    a copy of a segment reads the same, in new nodes                   (gives_copySegment)
-/

namespace PhraseSearch

namespace Network

/-! ## Originals and copies -/

/-- The copy of a node, given the originals in the order in which they were copied. -/
def copyOf (net : Network) (originals : List Nat) (id : Nat) : Nat :=
  net.size + originals.idxOf id

/-- Whether a network is another one with copies of some of its nodes after it. -/
structure Copied (net net' : Network) (originals : List Nat) : Prop where
  extends_ : Extends net net'
  size_eq : net'.size = net.size + originals.length
  nodup : originals.Nodup
  closed : ∀ i j, i ∈ originals → net.Edge i j → j ∈ originals
  kind : ∀ id ∈ originals, net'.kind? (net.copyOf originals id) = net.kind? id
  targets_copy : ∀ id ∈ originals,
    net'.targets (net.copyOf originals id) = (net.targets id).map (net.copyOf originals)

variable {net net' : Network} {originals : List Nat}

theorem copyOf_inj {i j : Nat} (hi : i ∈ originals)
    (h : net.copyOf originals i = net.copyOf originals j) : i = j :=
  (List.idxOf_inj hi).1 (Nat.add_left_cancel h)

theorem copyOf_append {id : Nat} (hid : id ∈ originals) (more : List Nat) :
    net.copyOf (originals ++ more) id = net.copyOf originals id := by
  rw [copyOf, copyOf, List.idxOf_append_of_mem hid]

theorem copyOf_append_self {id : Nat} (hid : id ∉ originals) :
    net.copyOf (originals ++ [id]) id = net.size + originals.length := by
  rw [copyOf, List.idxOf_append_of_notMem hid, List.idxOf_cons_self, Nat.add_zero]

namespace Copied

theorem size_le_copyOf (id : Nat) : net.size ≤ net.copyOf originals id := Nat.le_add_right _ _

theorem copyOf_lt (h : Copied net net' originals) {id : Nat} (hid : id ∈ originals) :
    net.copyOf originals id < net'.size := by
  rw [h.size_eq, copyOf]
  exact Nat.add_lt_add_left (List.idxOf_lt_length_of_mem hid) _

/-- Every new node is the copy of an original. -/
theorem exists_original (h : Copied net net' originals) {id : Nat} (hge : net.size ≤ id)
    (hlt : id < net'.size) : ∃ original ∈ originals, net.copyOf originals original = id := by
  have hindex : id - net.size < originals.length := by
    have := h.size_eq
    omega
  refine ⟨originals[id - net.size], List.getElem_mem hindex, ?_⟩
  rw [copyOf, h.nodup.idxOf_getElem]
  omega

theorem label_eq (h : Copied net net' originals) {id : Nat} (hid : id ∈ originals) :
    net'.label (net.copyOf originals id) = net.label id := by
  rw [label, label, h.kind id hid]

theorem edge_iff (h : Copied net net' originals) {id target : Nat} (hid : id ∈ originals) :
    net'.Edge (net.copyOf originals id) target ↔
      ∃ t, net.Edge id t ∧ net.copyOf originals t = target := by
  rw [← mem_targets, h.targets_copy id hid, List.mem_map]
  simp only [mem_targets]

/-- The copies of the originals of a region are a region. -/
theorem region (h : Copied net net' originals) (hnodup : ∀ id ∈ originals, (net.targets id).Nodup) :
    Region net' (Set.Ico net.size net'.size) where
  lt_size id hid := hid.2
  closed i j hi hedge := by
    obtain ⟨id, hid, rfl⟩ := h.exists_original hi.1 hi.2
    obtain ⟨t, ht, rfl⟩ := (h.edge_iff hid).1 hedge
    exact ⟨size_le_copyOf t, h.copyOf_lt (h.closed id t hid ht)⟩
  nodup i hi := by
    obtain ⟨id, hid, rfl⟩ := h.exists_original hi.1 hi.2
    rw [h.targets_copy id hid]
    refine List.Nodup.map_on (fun a ha b _ hab => ?_) (hnodup id hid)
    exact copyOf_inj (h.closed id a hid (mem_targets.1 ha)) hab

theorem reads_copies (h : Copied net net' originals) {u v : Nat} {w : List String}
    (hu : u ∈ originals) (hw : net.Reads u w v) :
    net'.Reads (net.copyOf originals u) w (net.copyOf originals v) := by
  induction hw with
  | here id => rw [← h.label_eq hu]; exact .here _
  | @step source next target w edge _ ih =>
    rw [← h.label_eq hu]
    exact .step ((h.edge_iff hu).2 ⟨next, edge, rfl⟩) (ih (h.closed source next hu edge))

/-- A walk from a copy stays among the copies, so it can be followed among the originals. -/
theorem exists_reads_of_copy (h : Copied net net' originals) {x y : Nat} {w : List String}
    (hw : net'.Reads x w y) {u : Nat} (hu : u ∈ originals) (hx : net.copyOf originals u = x) :
    ∃ v ∈ originals, net.copyOf originals v = y ∧ net.Reads u w v := by
  induction hw generalizing u with
  | here id =>
    subst hx
    refine ⟨u, hu, rfl, ?_⟩
    rw [h.label_eq hu]
    exact .here u
  | step edge _ ih =>
    subst hx
    obtain ⟨t, ht, rfl⟩ := (h.edge_iff hu).1 edge
    obtain ⟨v, hv, hvy, hrest⟩ := ih (h.closed u t hu ht) rfl
    refine ⟨v, hv, hvy, ?_⟩
    rw [h.label_eq hu]
    exact .step ht hrest

theorem reads_eq (h : Copied net net' originals) {u v : Nat} (hu : u ∈ originals) :
    net'.reads (net.copyOf originals u) (net.copyOf originals v) = net.reads u v := by
  ext w
  constructor
  · intro hw
    obtain ⟨v', hv', heq, hread⟩ := h.exists_reads_of_copy hw hu rfl
    obtain rfl := copyOf_inj hv' heq
    exact hread
  · exact h.reads_copies hu

theorem live (h : Copied net net' originals) {segment : Segment}
    (hentry : segment.entry ∈ originals) (hlive : segment.Live net segment.exit) :
    Segment.Live net' ⟨net.copyOf originals segment.entry, net.copyOf originals segment.exit⟩
      (net.copyOf originals segment.exit) := by
  rintro _ ⟨w, hw⟩
  obtain ⟨v, hv, rfl, hread⟩ := h.exists_reads_of_copy hw hentry rfl
  obtain ⟨q, hq⟩ := hlive.leads_exit ⟨w, hread⟩
  exact .inl ⟨q, h.reads_copies hv hq⟩

end Copied

/-! ## The queue -/

namespace Edit

/-- What holds while the nodes of a set are copied: the originals up to `next` are done, and `part`
of the edges of the original at `next`. -/
structure Copying (s : Set Nat) (net₀ net : Network) (originals : List Nat) (next : Nat)
    (part : List Nat) (map : Copies) (queue : Array (Nat × Nat)) : Prop where
  extends_ : Extends net₀ net
  size_eq : net.size = net₀.size + originals.length
  nodup : originals.Nodup
  mem : ∀ id ∈ originals, id ∈ s
  map_get : ∀ id, map[id]? = if id ∈ originals then some (net₀.copyOf originals id) else none
  queue_get : ∀ k, queue[k]? = originals[k]?.map fun id => (id, net₀.size + k)
  kind : ∀ k id, originals[k]? = some id → net.kind? (net₀.size + k) = net₀.kind? id
  done : ∀ k id, originals[k]? = some id → k < next → (∀ t ∈ net₀.targets id, t ∈ originals) ∧
    net.targets (net₀.size + k) = (net₀.targets id).map (net₀.copyOf originals)
  part_mem : ∀ t ∈ part, t ∈ originals
  current : net.targets (net₀.size + next) = part.map (net₀.copyOf originals)
  fresh : ∀ k, next < k → net.targets (net₀.size + k) = []

variable {s : Set Nat} {net₀ : Network} {next : Nat} {part : List Nat} {map : Copies}
  {queue : Array (Nat × Nat)}

namespace Copying

/-- One more of the edges is followed to a node that has a copy. -/
theorem link (h : Copying s net₀ net originals next part map queue)
    (hnext : next < originals.length) {t : Nat} (ht : t ∈ originals) (hnew : t ∉ part) :
    Copying s net₀ (net.update (net₀.size + next) (·.link (net₀.copyOf originals t))) originals next
      (part ++ [t]) map queue := by
  have hlt : net₀.size + next < net.size := by
    have := h.size_eq
    omega
  have hothers : ∀ k, k ≠ next →
      (net.update (net₀.size + next) (·.link (net₀.copyOf originals t))).targets (net₀.size + k) =
        net.targets (net₀.size + k) := by
    intro k hk
    have hne : ¬ net₀.size + k = net₀.size + next := by omega
    rw [targets_link hlt, if_neg fun hk => hne hk.1]
  refine ⟨h.extends_.update (Nat.le_add_right _ _) _, ?_, h.nodup, h.mem, h.map_get, h.queue_get,
    ?_, ?_, ?_, ?_, ?_⟩
  · rw [size_update, h.size_eq]
  · intro k id hk
    rw [kind?_link, h.kind k id hk]
  · intro k id hk hlt'
    rw [hothers k (by omega)]
    exact h.done k id hk hlt'
  · intro u hu
    rcases List.mem_append.1 hu with hu | hu
    · exact h.part_mem u hu
    · rw [List.mem_singleton] at hu
      exact hu ▸ ht
  · have hnotin : net₀.copyOf originals t ∉ net.targets (net₀.size + next) := by
      rw [h.current, List.mem_map]
      rintro ⟨u, hu, heq⟩
      exact hnew (copyOf_inj (h.part_mem u hu) heq ▸ hu)
    rw [targets_link hlt, if_pos ⟨rfl, hnotin⟩, h.current, List.map_append]
    rfl
  · intro k hk
    rw [hothers k (by omega)]
    exact h.fresh k hk

theorem size_queue (h : Copying s net₀ net originals next part map queue) :
    queue.size = originals.length := by
  apply Nat.le_antisymm
  · have hnone := h.queue_get originals.length
    rw [List.getElem?_eq_none (Nat.le_refl _), Option.map_none] at hnone
    exact Array.getElem?_eq_none_iff.1 hnone
  · have hnone := h.queue_get queue.size
    rw [Array.getElem?_eq_none (Nat.le_refl _)] at hnone
    exact List.getElem?_eq_none_iff.1 (Option.map_eq_none_iff.1 hnone.symm)

theorem map_get_add (h : Copying s net₀ net originals next part map queue) {t : Nat}
    (hnew : t ∉ originals) (id : Nat) : (map.insert t net.size)[id]? =
      if id ∈ originals ++ [t] then some (net₀.copyOf (originals ++ [t]) id) else none := by
  rw [Std.TreeMap.getElem?_insert, h.map_get id]
  by_cases hid : t = id
  · subst hid
    simp [copyOf_append_self hnew, h.size_eq]
  · have hne : ¬ compare t id = .eq := by simpa using hid
    rw [if_neg hne]
    by_cases hmem : id ∈ originals
    · rw [if_pos hmem, if_pos (List.mem_append_left _ hmem), copyOf_append hmem]
    · rw [if_neg hmem, if_neg]
      simp [hmem, Ne.symm hid]

theorem queue_get_add (h : Copying s net₀ net originals next part map queue) (t j : Nat) :
    (queue.push (t, net.size))[j]? =
      (originals ++ [t])[j]?.map fun id => (id, net₀.size + j) := by
  rw [Array.getElem?_push, List.getElem?_append, h.queue_get j, h.size_queue, h.size_eq]
  by_cases hj : j = originals.length
  · subst hj
    simp
  · rw [if_neg hj]
    split
    · rfl
    · next hge =>
      have h1 : originals.length ≤ j := Nat.le_of_not_lt hge
      have h2 : [t].length ≤ j - originals.length := by
        show 1 ≤ _
        omega
      rw [List.getElem?_eq_none h1, List.getElem?_eq_none h2]

theorem kind_add (h : Copying s net₀ net originals next part map queue) {t : Nat} {k : NodeKind}
    (hkind : net₀.kind? t = some k) {j id : Nat} (hj : (originals ++ [t])[j]? = some id) :
    (net.push k).kind? (net₀.size + j) = net₀.kind? id := by
  have hsize := h.size_eq
  rw [List.getElem?_append] at hj
  split at hj
  · next hlt =>
    have hne : net₀.size + j ≠ net.size := by omega
    rw [kind?_push_of_ne k hne]
    exact h.kind j id hj
  · next hge =>
    obtain ⟨hzero, rfl⟩ : j - originals.length = 0 ∧ id = t := by
      cases hindex : j - originals.length with
      | zero =>
        rw [hindex] at hj
        exact ⟨rfl, (Option.some.inj hj).symm⟩
      | succ m =>
        rw [hindex] at hj
        cases hj
    have hj' : net₀.size + j = net.size := by omega
    rw [hj', kind?, node?_push_size, hkind]
    rfl

/-- A node without a copy is given one, and joins the queue. -/
theorem add (h : Copying s net₀ net originals next part map queue)
    (hnext : next < originals.length) {t : Nat} {k : NodeKind} (ht : t ∈ s)
    (hnew : t ∉ originals) (hkind : net₀.kind? t = some k) :
    Copying s net₀ (net.push k) (originals ++ [t]) next part (map.insert t net.size)
      (queue.push (t, net.size)) := by
  have hcopy : ∀ ts : List Nat, (∀ u ∈ ts, u ∈ originals) →
      ts.map (net₀.copyOf (originals ++ [t])) = ts.map (net₀.copyOf originals) := by
    intro ts hts
    exact List.map_congr_left fun u hu => copyOf_append (hts u hu) _
  have holder : ∀ j, j < originals.length → net₀.size + j ≠ net.size := by
    intro j hj
    have := h.size_eq
    omega
  refine ⟨h.extends_.trans (extends_push net k), ?_, ?_, ?_, h.map_get_add hnew,
    h.queue_get_add t, fun j id => h.kind_add hkind, ?_, ?_, ?_, ?_⟩
  · rw [size_push, h.size_eq, List.length_append, List.length_singleton, Nat.add_assoc]
  · refine List.nodup_append.2 ⟨h.nodup, List.nodup_singleton t, ?_⟩
    rintro a ha b hb rfl
    rw [List.mem_singleton] at hb
    exact hnew (hb ▸ ha)
  · intro id hid
    rcases List.mem_append.1 hid with hid | hid
    · exact h.mem id hid
    · rw [List.mem_singleton] at hid
      exact hid ▸ ht
  · intro j id hj hlt
    have hj' : j < originals.length := by omega
    rw [List.getElem?_append_left hj'] at hj
    obtain ⟨hclosed, htargets⟩ := h.done j id hj hlt
    refine ⟨fun u hu => List.mem_append_left _ (hclosed u hu), ?_⟩
    rw [targets_push, if_neg (holder j hj'), htargets, hcopy _ hclosed]
  · intro u hu
    exact List.mem_append_left _ (h.part_mem u hu)
  · rw [targets_push, if_neg (holder next hnext), h.current, hcopy _ h.part_mem]
  · intro j hj
    rw [targets_push]
    split
    · rfl
    · exact h.fresh j hj

end Copying

theorem gives_copySegmentEdges (hs : Region net₀ s) (hnext : next < originals.length)
    {ts : List Nat} (hts : ∀ t ∈ ts, t ∈ s) (hnodup : (part ++ ts).Nodup)
    (h : Copying s net₀ net originals next part map queue) :
    Gives (copySegmentEdges (net₀.size + next) ts map queue) net fun out net' =>
      ∃ more, Copying s net₀ net' (originals ++ more) next (part ++ ts) out.1 out.2 := by
  induction ts generalizing net originals part map queue with
  | nil =>
    refine gives_pure ⟨[], ?_⟩
    rw [List.append_nil, List.append_nil]
    exact h
  | cons t ts ih =>
    have hsplit : part ++ t :: ts = part ++ [t] ++ ts := by simp
    have hnew : t ∉ part := by
      intro hmem
      exact (List.nodup_append.1 hnodup).2.2 t hmem t (by simp) rfl
    have hlt : net₀.size + next < net.size := by
      have := h.size_eq
      omega
    rw [hsplit] at hnodup
    have hts' : ∀ u ∈ ts, u ∈ s := fun u hu => hts u (List.mem_cons_of_mem _ hu)
    rw [copySegmentEdges, h.map_get t]
    by_cases hmem : t ∈ originals
    · rw [if_pos hmem]
      refine .bind (gives_link hlt ?_)
      refine (ih hnext hts' hnodup (h.link hnext hmem hnew)).mono fun out net' hout => ?_
      rw [hsplit]
      exact hout
    · rw [if_neg hmem]
      have ht : t ∈ s := hts t (by simp)
      obtain ⟨node, hnode⟩ := exists_node?_of_lt (hs.lt_size t ht)
      have hkind : net₀.kind? t = some node.kind := by rw [kind?, hnode]; rfl
      refine .bind (gives_kind (h.extends_.kind? hkind) ?_)
      refine .bind (gives_addNode ?_)
      have hadd := h.add hnext ht hmem hkind
      have hnext' : next < (originals ++ [t]).length := by
        rw [List.length_append]
        omega
      have hlink := hadd.link hnext' (List.mem_append_right _ (List.mem_singleton_self t)) hnew
      rw [copyOf_append_self hmem, ← h.size_eq] at hlink
      have hlt' : net₀.size + next < (net.push node.kind).size := by
        rw [size_push]
        omega
      refine .bind (gives_link hlt' ?_)
      refine (ih hnext' hts' hnodup hlink).mono ?_
      rintro out net' ⟨more, hout⟩
      rw [hsplit]
      exact ⟨[t] ++ more, by rwa [← List.append_assoc]⟩

/-- When all edges of an original are followed, the next one is up. -/
theorem Copying.advance {id : Nat}
    (h : Copying s net₀ net originals next (net₀.targets id) map queue)
    (hid : originals[next]? = some id) :
    Copying s net₀ net originals (next + 1) [] map queue := by
  refine ⟨h.extends_, h.size_eq, h.nodup, h.mem, h.map_get, h.queue_get, h.kind, ?_, ?_, ?_, ?_⟩
  · intro k other hk hlt
    by_cases hlast : k = next
    · subst hlast
      rw [hid] at hk
      cases hk
      exact ⟨h.part_mem, h.current⟩
    · exact h.done k other hk (by omega)
  · intro t ht
    cases ht
  · exact h.fresh (next + 1) (Nat.lt_succ_self next)
  · intro k hk
    exact h.fresh k (by omega)

theorem length_le_of_mem (hs : Region net₀ s) (hnodup : originals.Nodup)
    (hmem : ∀ id ∈ originals, id ∈ s) : originals.length ≤ net₀.size := by
  have hsub : originals ⊆ List.range net₀.size := fun id hid =>
    List.mem_range.2 (hs.lt_size id (hmem id hid))
  have hle := (List.subperm_of_subset hnodup hsub).length_le
  rwa [List.length_range] at hle

/-- There are turns enough for every node of the set to come up once. -/
theorem gives_copySegmentQueue (hs : Region net₀ s) {turns : Nat}
    (hturns : net₀.size ≤ turns + next)
    (h : Copying s net₀ net originals next [] map queue) :
    Gives (copySegmentQueue turns next map queue) net fun map' net' => ∃ more next' queue',
      (originals ++ more).length ≤ next' ∧
      Copying s net₀ net' (originals ++ more) next' [] map' queue' := by
  induction turns generalizing net originals next map queue with
  | zero =>
    have hlength := length_le_of_mem hs h.nodup h.mem
    have hnone : queue[next]? = none := by
      rw [h.queue_get next, List.getElem?_eq_none (by omega), Option.map_none]
    unfold copySegmentQueue
    rw [hnone]
    refine gives_pure ⟨[], next, queue, ?_, by rwa [List.append_nil]⟩
    rw [List.append_nil]
    omega
  | succ turns ih =>
    cases hid : originals[next]? with
    | none =>
      have hnone : queue[next]? = none := by rw [h.queue_get next, hid, Option.map_none]
      unfold copySegmentQueue
      rw [hnone]
      refine gives_pure ⟨[], next, queue, ?_, by rwa [List.append_nil]⟩
      rw [List.append_nil]
      exact List.getElem?_eq_none_iff.1 hid
    | some id =>
      have hsome : queue[next]? = some (id, net₀.size + next) := by
        rw [h.queue_get next, hid, Option.map_some]
      have hmem : id ∈ s := h.mem id (List.mem_of_getElem? hid)
      have hnext : next < originals.length := (List.getElem?_eq_some_iff.1 hid).1
      obtain ⟨node, hnode⟩ := exists_node?_of_lt (hs.lt_size id hmem)
      have htargets := targets_of_node? hnode
      unfold copySegmentQueue
      rw [hsome]
      refine .bind (gives_node ((h.extends_.same id (hs.lt_size id hmem)).trans hnode) ?_)
      rw [← htargets]
      have hclosed : ∀ t ∈ net₀.targets id, t ∈ s := fun t ht =>
        hs.closed id t hmem (mem_targets.1 ht)
      refine .bind ((gives_copySegmentEdges hs hnext hclosed (hs.nodup id hmem) h).mono ?_)
      rintro ⟨map', queue'⟩ net' ⟨more, hmore⟩
      have hid' : (originals ++ more)[next]? = some id := by
        rw [List.getElem?_append_left hnext]
        exact hid
      refine (ih (by omega) (Copying.advance hmore hid')).mono ?_
      rintro map'' net'' ⟨rest, next', queue'', hle, hrest⟩
      rw [List.append_assoc] at hle hrest
      exact ⟨more ++ rest, next', queue'', hle, hrest⟩

/-- When all originals are done, what is there is a copy. -/
theorem Copying.copied (h : Copying s net₀ net originals next part map queue)
    (hle : originals.length ≤ next) : Copied net₀ net originals where
  extends_ := h.extends_
  size_eq := h.size_eq
  nodup := h.nodup
  closed i j hi hedge := by
    have hlt := List.idxOf_lt_length_of_mem hi
    exact (h.done _ i (List.getElem?_idxOf hi) (by omega)).1 j (mem_targets.2 hedge)
  kind id hid := h.kind _ id (List.getElem?_idxOf hid)
  targets_copy id hid := by
    have hlt := List.idxOf_lt_length_of_mem hid
    exact (h.done _ id (List.getElem?_idxOf hid) (by omega)).2

/-- A node without edges can be copied at any time. -/
theorem copied_push (h : Copied net₀ net originals) {id : Nat} {k : NodeKind}
    (hnew : id ∉ originals) (hkind : net₀.kind? id = some k) (hsink : net₀.targets id = []) :
    Copied net₀ (net.push k) (originals ++ [id]) := by
  have hcopy : ∀ u ∈ originals, net₀.copyOf (originals ++ [id]) u ≠ net.size := by
    intro u hu
    rw [copyOf_append hu]
    exact Nat.ne_of_lt (h.copyOf_lt hu)
  have hlast : net₀.copyOf (originals ++ [id]) id = net.size := by
    rw [copyOf_append_self hnew, h.size_eq]
  refine ⟨h.extends_.trans (extends_push net k), ?_, ?_, ?_, ?_, ?_⟩
  · rw [size_push, h.size_eq, List.length_append, List.length_singleton, Nat.add_assoc]
  · refine List.nodup_append.2 ⟨h.nodup, List.nodup_singleton id, ?_⟩
    rintro a ha b hb rfl
    rw [List.mem_singleton] at hb
    exact hnew (hb ▸ ha)
  · intro i j hi hedge
    rcases List.mem_append.1 hi with hi | hi
    · exact List.mem_append_left _ (h.closed i j hi hedge)
    · rw [List.mem_singleton] at hi
      rw [← mem_targets, hi, hsink] at hedge
      cases hedge
  · intro u hu
    rcases List.mem_append.1 hu with hu | hu
    · rw [kind?_push_of_ne k (hcopy u hu), copyOf_append hu]
      exact h.kind u hu
    · rw [List.mem_singleton] at hu
      rw [hu, hlast, kind?, node?_push_size, hkind]
      rfl
  · intro u hu
    rcases List.mem_append.1 hu with hu | hu
    · have hmap : (net₀.targets u).map (net₀.copyOf (originals ++ [id])) =
          (net₀.targets u).map (net₀.copyOf originals) :=
        List.map_congr_left fun t ht => copyOf_append (h.closed u t hu (mem_targets.1 ht)) _
      rw [targets_push, if_neg (hcopy u hu), copyOf_append hu, h.targets_copy u hu, hmap]
    · rw [List.mem_singleton] at hu
      rw [hu, hlast, targets_push, if_pos rfl, hsink]
      rfl

theorem copying_start {id : Nat} {k : NodeKind} (hid : id ∈ s) (hkind : net.kind? id = some k) :
    Copying s net (net.push k) [id] 0 [] ((∅ : Copies).insert id net.size)
      #[(id, net.size)] := by
  refine ⟨extends_push net k, size_push net k, List.nodup_singleton id, ?_, ?_, ?_, ?_, ?_, ?_, ?_,
    ?_⟩
  · intro other hother
    rw [List.mem_singleton] at hother
    exact hother ▸ hid
  · intro other
    rw [Std.TreeMap.getElem?_insert]
    by_cases heq : id = other
    · subst heq
      simp [copyOf]
    · simp [heq, Ne.symm heq]
  · intro j
    cases j with
    | zero => rfl
    | succ j => rfl
  · intro j other hj
    cases j with
    | zero =>
      cases hj
      rw [kind?, Nat.add_zero, node?_push_size, hkind]
      rfl
    | succ j => cases hj
  · intro j other _ hlt
    exact absurd hlt (Nat.not_lt_zero j)
  · intro t ht
    cases ht
  · rw [targets_push, Nat.add_zero, if_pos rfl]
    rfl
  · intro j hj
    have hnone : net.node? (net.size + j) = none := by
      rw [node?]
      exact Array.getElem?_eq_none (Nat.le_add_right _ _)
    have hne : ¬ net.size + j = net.size := by omega
    rw [targets_push, if_neg hne, targets, hnone]

/-- What is copied with a segment: the nodes that its entry leads to, and its exit. -/
theorem gives_copySegment_copied {segment : Segment} (hs : Region net s)
    (hentry : segment.entry ∈ s) (hexit : segment.exit ∈ s)
    (hleave : (∃ n, net.Walk n segment.entry segment.exit) ∨ net.targets segment.exit = []) :
    Gives (copySegment segment) net fun copy net' => ∃ originals, Copied net net' originals ∧
      (∀ id ∈ originals, id ∈ s) ∧ segment.entry ∈ originals ∧ segment.exit ∈ originals ∧
      net.copyOf originals segment.entry = net.size ∧
      copy = ⟨net.copyOf originals segment.entry, net.copyOf originals segment.exit⟩ := by
  obtain ⟨entryNode, hentryNode⟩ := exists_node?_of_lt (hs.lt_size _ hentry)
  obtain ⟨exitNode, hexitNode⟩ := exists_node?_of_lt (hs.lt_size _ hexit)
  have hentryKind : net.kind? segment.entry = some entryNode.kind := by
    rw [kind?, hentryNode]
    rfl
  have hexitKind : net.kind? segment.exit = some exitNode.kind := by
    rw [kind?, hexitNode]
    rfl
  unfold copySegment
  refine .bind (gives_get ?_)
  refine .bind (gives_kind hentryKind ?_)
  refine .bind (gives_addNode ?_)
  have hstart := copying_start hentry hentryKind
  have hturns : net.size ≤ net.size + capacity + 0 := by omega
  have hqueue := gives_copySegmentQueue hs hturns hstart
  refine .bind (hqueue.mono ?_)
  rintro map net' ⟨more, next, queue, hle, hcopy⟩
  have hcopied := hcopy.copied hle
  have hfirst : segment.entry ∈ [segment.entry] ++ more := by simp
  have hzero : net.copyOf ([segment.entry] ++ more) segment.entry = net.size := by
    rw [copyOf, List.singleton_append, List.idxOf_cons_self, Nat.add_zero]
  have hfirstCopy : map[segment.entry]? = some net.size := by
    rw [hcopy.map_get, if_pos hfirst, hzero]
  rw [hcopy.map_get]
  by_cases hreached : segment.exit ∈ [segment.entry] ++ more
  · rw [if_pos hreached]
    refine gives_pure ⟨_, hcopied, hcopy.mem, hfirst, hreached, hzero, ?_⟩
    rw [hzero]
  · rw [if_neg hreached]
    refine .bind (gives_kind (hcopied.extends_.kind? hexitKind) ?_)
    refine .bind (gives_addNode (gives_pure ?_))
    have hsink : net.targets segment.exit = [] := by
      refine hleave.resolve_left ?_
      rintro ⟨n, hwalk⟩
      exact hreached (hwalk.mem_of_closed (s := {id | id ∈ [segment.entry] ++ more}) hcopied.closed
        hfirst)
    have hpush := copied_push hcopied hreached hexitKind hsink
    refine ⟨_, hpush, ?_, List.mem_append_left _ hfirst,
      List.mem_append_right _ (List.mem_singleton_self _), ?_, ?_⟩
    · intro id hid
      rcases List.mem_append.1 hid with hid | hid
      · exact hcopy.mem id hid
      · rw [List.mem_singleton] at hid
        exact hid ▸ hexit
    · rw [copyOf_append hfirst, hzero]
    · rw [copyOf_append hfirst, hzero, copyOf_append_self hreached, hcopied.size_eq]

end Edit

/-! ## Segments -/

/-- Whether a node is a connector or a word. -/
def Simple (net : Network) (id : Nat) : Prop :=
  net.kind? id = some .join ∨ ∃ list, net.kind? id = some (.terminal list)

end Network

open Network

/-- A segment in a set of nodes, and what is read from its entry to its exit. -/
structure Segment.Within (net : Network) (s : Set Nat) (segment : Segment)
    (l : Language String) : Prop where
  region : net.Region s
  entry : segment.entry ∈ s
  exit : segment.exit ∈ s
  sink : net.targets segment.exit = []
  source : ∀ id ∈ s, ¬ net.Edge id segment.entry
  simple : ∀ id ∈ s, net.Simple id
  reads : net.reads segment.entry segment.exit = l

variable {net net' : Network} {s : Set Nat} {segment : Segment} {l : Language String}

/-- A segment stays as it is while nothing changes in the nodes that it lies in. -/
theorem Segment.Within.congr (h : segment.Within net s l) (hsize : net.size ≤ net'.size)
    (hsame : ∀ id ∈ s, net'.node? id = net.node? id) : segment.Within net' s l where
  region := h.region.congr hsize hsame
  entry := h.entry
  exit := h.exit
  sink := by
    rw [targets_congr (hsame _ h.exit)]
    exact h.sink
  source id hid hedge := by
    rw [← mem_targets, targets_congr (hsame id hid), mem_targets] at hedge
    exact h.source id hid hedge
  simple id hid := by
    rw [Simple, kind?_congr (hsame id hid)]
    exact h.simple id hid
  reads := by
    rw [h.region.reads_eq hsize hsame h.entry]
    exact h.reads

/-- The copy of a segment consists of new nodes only, and reads the same; it is live if the segment
is. -/
theorem Network.Edit.gives_copySegment (h : segment.Within net s l) :
    Gives (copySegment segment) net fun copy net' =>
      Extends net net' ∧ copy.Within net' (Set.Ico net.size net'.size) l ∧
      (segment.Live net segment.exit → copy.Live net' copy.exit) := by
  refine (gives_copySegment_copied h.region h.entry h.exit (.inr h.sink)).mono ?_
  rintro copy net' ⟨originals, hcopied, hmem, hentry, hexit, hzero, rfl⟩
  refine ⟨hcopied.extends_, ⟨hcopied.region fun id hid => h.region.nodup id (hmem id hid), ?_, ?_,
    ?_, ?_, ?_, ?_⟩, hcopied.live hentry⟩
  · exact ⟨Copied.size_le_copyOf _, hcopied.copyOf_lt hentry⟩
  · exact ⟨Copied.size_le_copyOf _, hcopied.copyOf_lt hexit⟩
  · show net'.targets (net.copyOf originals segment.exit) = []
    rw [hcopied.targets_copy _ hexit, h.sink]
    rfl
  · intro id hid hedge
    obtain ⟨u, hu, rfl⟩ := hcopied.exists_original hid.1 hid.2
    obtain ⟨t, ht, heq⟩ := (hcopied.edge_iff hu).1 hedge
    obtain rfl := copyOf_inj (hcopied.closed u t hu ht) heq
    exact h.source u (hmem u hu) ht
  · intro id hid
    obtain ⟨u, hu, rfl⟩ := hcopied.exists_original hid.1 hid.2
    rw [Simple, hcopied.kind u hu]
    exact h.simple u (hmem u hu)
  · show net'.reads (net.copyOf originals segment.entry) (net.copyOf originals segment.exit) = l
    rw [hcopied.reads_eq hentry]
    exact h.reads

end PhraseSearch
