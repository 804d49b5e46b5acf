import PhraseSearch.Proofs.Network.Segments

/-!
# Images

What an edit adds to a network may be an image of some of the older nodes: one new node for each of
them, of the kind that is made of its kind, and with the images of the targets of its edges in their
order.  The copy of a segment is such an image of all that the entry leads to, and of the exit.

    images keep among themselves                                       (Images.mem_of_edge)
    the copy of a segment is an image of it                            (copySegment_spec)
-/

namespace PhraseSearch.Network

variable {net net' : Network}

/-! ## Images -/

/-- Whether the new nodes of a network are the images of some older ones. -/
structure Images (net net' : Network) (originals : Set Nat) (image : Nat → Nat)
    (onKind : NodeKind → NodeKind) : Prop where
  /-- the older nodes have not changed -/
  extends_ : Extends net net'
  /-- every original has an image of its own -/
  injOn : Set.InjOn image originals
  /-- and there are no other new nodes -/
  image_eq : image '' originals = Set.Ico net.size net'.size
  kind : ∀ id ∈ originals, net'.kind? (image id) = (net.kind? id).map onKind
  targets : ∀ id ∈ originals, net'.targets (image id) = (net.targets id).map image

namespace Images

variable {originals : Set Nat} {image : Nat → Nat} {onKind : NodeKind → NodeKind}

theorem image_mem (h : Images net net' originals image onKind) {id : Nat} (hid : id ∈ originals) :
    image id ∈ Set.Ico net.size net'.size := by
  rw [← h.image_eq]
  exact Set.mem_image_of_mem image hid

/-- No edge leads from an image to an older node. -/
theorem mem_of_edge (h : Images net net' originals image onKind)
    (hclosed : ∀ i j, i ∈ originals → net.Edge i j → j ∈ originals) {new target : Nat}
    (hnew : new ∈ Set.Ico net.size net'.size) (hedge : net'.Edge new target) :
    target ∈ Set.Ico net.size net'.size := by
  rw [← h.image_eq] at hnew
  obtain ⟨id, hid, rfl⟩ := hnew
  rw [← mem_targets, h.targets id hid, List.mem_map] at hedge
  obtain ⟨t, ht, rfl⟩ := hedge
  exact h.image_mem (hclosed id t hid (mem_targets.1 ht))

end Images

theorem Copied.images {originals : List Nat} (h : Copied net net' originals) :
    Images net net' {id | id ∈ originals} (net.copyOf originals) (fun kind => kind) where
  extends_ := h.extends_
  injOn _ hi _ _ heq := copyOf_inj hi heq
  image_eq := by
    ext new
    constructor
    · rintro ⟨id, hid, rfl⟩
      exact ⟨size_le_copyOf id, h.copyOf_lt hid⟩
    · intro hnew
      exact h.exists_original hnew.1 hnew.2
  kind id hid := by rw [h.kind id hid, Option.map_id']
  targets := h.targets_copy

/-! ## Copies of segments -/

/-- What the copy of a segment is made from: all that the entry leads to, and the exit. -/
def originalsOf (net : Network) (segment : Segment) : Set Nat :=
  {id | (∃ n, net.Walk n segment.entry id) ∨ id = segment.exit}

theorem region_originalsOf {segment : Segment} (hedges : net.EdgesInRange)
    (hnodup : ∀ id, (net.targets id).Nodup) (hentry : segment.entry < net.size)
    (hexit : (∃ n, net.Walk n segment.entry segment.exit) ∨
      segment.exit < net.size ∧ net.targets segment.exit = []) :
    Region net (net.originalsOf segment) := by
  have hwalk : ∀ {n id}, net.Walk n segment.entry id → id < net.size := fun h =>
    h.mem_of_closed (s := {id | id < net.size}) (fun i j _ => hedges i j) hentry
  refine ⟨?_, ?_, fun id _ => hnodup id⟩
  · rintro id (⟨n, h⟩ | rfl)
    · exact hwalk h
    · rcases hexit with ⟨n, h⟩ | h
      · exact hwalk h
      · exact h.1
  · rintro i j (⟨n, h⟩ | rfl) hedge
    · exact .inl ⟨n + 1, h.trans (.step hedge (.refl j))⟩
    · rcases hexit with ⟨n, h⟩ | h
      · exact .inl ⟨n + 1, h.trans (.step hedge (.refl j))⟩
      · rw [← mem_targets, h.2] at hedge
        cases hedge

/-- A segment whose entry leads to its exit, or whose exit has no edges, is copied, whatever cycles
there are in it.  The new nodes are the images of what the entry leads to, and of the exit: of the
same kinds, with edges in the same order, and with none that leads back to older nodes. -/
theorem copySegment_spec {segment : Segment} (hedges : net.EdgesInRange)
    (hnodup : ∀ id, (net.targets id).Nodup) (hentry : segment.entry < net.size)
    (hexit : (∃ n, net.Walk n segment.entry segment.exit) ∨
      segment.exit < net.size ∧ net.targets segment.exit = []) :
    ∃ copy net' image, Edit.copySegment segment net = .ok copy net' ∧
      Images net net' (net.originalsOf segment) image (fun kind => kind) ∧
      copy.entry = image segment.entry ∧ copy.exit = image segment.exit ∧
      ∀ new ∈ Set.Ico net.size net'.size, ∀ target, net'.Edge new target →
        target ∈ Set.Ico net.size net'.size := by
  have hregion := region_originalsOf hedges hnodup hentry hexit
  have hleave := hexit.imp_right And.right
  obtain ⟨copy, net', hcopy, originals, hcopied, hmem, hfirst, hlast, -, rfl⟩ :=
    Edit.gives_copySegment_copied hregion (.inl ⟨0, .refl _⟩) (.inr rfl) hleave
  have hset : {id | id ∈ originals} = net.originalsOf segment := by
    refine Set.Subset.antisymm hmem ?_
    rintro id (⟨n, h⟩ | rfl)
    · exact h.mem_of_closed (s := {id | id ∈ originals}) hcopied.closed hfirst
    · exact hlast
  have himages := hcopied.images
  rw [hset] at himages
  exact ⟨_, net', _, hcopy, himages, rfl, rfl, fun new hnew target =>
    himages.mem_of_edge hregion.closed hnew⟩

/-- From the first entry a cycle leads on to an exit that is on a cycle itself; the second exit is
not reached, and is no plain node. -/
theorem copySegment_spec_of_cycles :
    let net : Network := ⟨#[⟨.join, #[1, 2]⟩, ⟨.terminal "a", #[1, 0]⟩, ⟨.join, #[2]⟩,
      ⟨.sequence [0], #[]⟩]⟩
    net.EdgesInRange ∧ (∀ id, (net.targets id).Nodup) ∧ net.Walk 1 0 1 ∧ net.targets 3 = [] ∧
      (∃ copy net' image, Edit.copySegment ⟨0, 1⟩ net = .ok copy net' ∧
        Images net net' (net.originalsOf ⟨0, 1⟩) image (fun kind => kind) ∧
        copy.entry = image 0 ∧ copy.exit = image 1) ∧
      ∃ copy net' image, Edit.copySegment ⟨2, 3⟩ net = .ok copy net' ∧
        Images net net' (net.originalsOf ⟨2, 3⟩) image (fun kind => kind) ∧
        copy.entry = image 2 ∧ copy.exit = image 3 := by
  intro net
  have hedges : net.EdgesInRange := forall_edge (by decide)
  have hnodup : ∀ id, (net.targets id).Nodup := nodup_targets_of_lt (by decide)
  have hwalk : net.Walk 1 0 1 := .step (mem_targets.1 (by decide)) (.refl 1)
  let first : Segment := ⟨0, 1⟩
  let second : Segment := ⟨2, 3⟩
  have hfirst : first.entry < net.size := by decide
  have hsecond : second.entry < net.size := by decide
  obtain ⟨copy, net', image, hcopy, himages, hentry, hexit, -⟩ :=
    copySegment_spec hedges hnodup hfirst (.inl ⟨1, hwalk⟩)
  obtain ⟨copy₂, net₂, image₂, hcopy₂, himages₂, hentry₂, hexit₂, -⟩ :=
    copySegment_spec hedges hnodup hsecond (.inr ⟨by decide, by decide⟩)
  exact ⟨hedges, hnodup, hwalk, by decide, ⟨copy, net', image, hcopy, himages, hentry, hexit⟩,
    copy₂, net₂, image₂, hcopy₂, himages₂, hentry₂, hexit₂⟩

end PhraseSearch.Network
