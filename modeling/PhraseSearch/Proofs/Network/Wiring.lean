import Mathlib.Order.Interval.Set.LinearOrder
import PhraseSearch.Proofs.Network.Segments

/-!
# Wiring segments between two ends

Combinators are built between two silent nodes, the ends.  While this goes on, `Wiring` says what
can be read: up to the last node that has been appended, and up to the end that the segment will be
left by.  No edge leads to the first of the ends, and none leaves the other.

    appending a segment multiplies what can be read up to the last node
                                                                       (Wiring.append)
    leaving at the last node adds what can be read up to it            (Wiring.leave)
    a loop adds all further rounds                                     (Wiring.appendLoop)
-/

open scoped Computability

namespace PhraseSearch

open Network

/-- What has been built between two ends of the given kinds, from the nodes of `base` on and below
`hi`. -/
structure Wiring (base net : Network) (ends : Segment) (kinds : NodeKind × NodeKind)
    (hi last : Nat) (opened left : Language String) : Prop where
  extends_ : Extends base net
  region : net.Region (Set.Ico base.size hi)
  entry_mem : ends.entry ∈ Set.Ico base.size hi
  exit_mem : ends.exit ∈ Set.Ico base.size hi
  last_mem : last ∈ Set.Ico base.size hi
  entry_ne : ends.entry ≠ ends.exit
  last_ne : last ≠ ends.exit
  sink : net.targets ends.exit = []
  source : ∀ id ∈ Set.Ico base.size hi, ¬ net.Edge id ends.entry
  entry_kind : net.kind? ends.entry = some kinds.1
  exit_kind : net.kind? ends.exit = some kinds.2
  entry_label : net.label ends.entry = []
  exit_label : net.label ends.exit = []
  simple : ∀ id ∈ Set.Ico base.size hi, id ≠ ends.entry → id ≠ ends.exit → net.Simple id
  /-- what is read from the first end up to the last node -/
  reads_last : net.reads ends.entry last = opened
  /-- what is read from one end to the other -/
  reads_exit : net.reads ends.entry ends.exit = left

namespace Wiring

variable {base net net' : Network} {ends segment : Segment} {kinds : NodeKind × NodeKind}
  {hi last : Nat} {a f l : Language String}

theorem hi_le (h : Wiring base net ends kinds hi last a f) : hi ≤ net.size := by
  apply Classical.byContradiction
  intro hlt
  have hmem : hi - 1 ∈ Set.Ico base.size hi := by
    have := h.entry_mem.1
    have := h.entry_mem.2
    exact ⟨by omega, by omega⟩
  have := h.region.lt_size _ hmem
  omega

/-- Nodes that come later do not matter. -/
theorem congr (h : Wiring base net ends kinds hi last a f) (hext : Extends net net') :
    Wiring base net' ends kinds hi last a f := by
  have hsame : ∀ id ∈ Set.Ico base.size hi, net'.node? id = net.node? id := fun id hid =>
    hext.same id (h.region.lt_size id hid)
  have hkind : ∀ id ∈ Set.Ico base.size hi, net'.kind? id = net.kind? id := fun id hid =>
    kind?_congr (hsame id hid)
  refine ⟨h.extends_.trans hext, h.region.congr hext.size_le hsame, h.entry_mem, h.exit_mem,
    h.last_mem,
    h.entry_ne, h.last_ne, ?_, ?_, ?_, ?_, ?_, ?_, ?_, ?_, ?_⟩
  · rw [targets_congr (hsame _ h.exit_mem)]
    exact h.sink
  · intro id hid hedge
    rw [← mem_targets, targets_congr (hsame id hid), mem_targets] at hedge
    exact h.source id hid hedge
  · rw [hkind _ h.entry_mem]
    exact h.entry_kind
  · rw [hkind _ h.exit_mem]
    exact h.exit_kind
  · rw [label_congr (hkind _ h.entry_mem)]
    exact h.entry_label
  · rw [label_congr (hkind _ h.exit_mem)]
    exact h.exit_label
  · intro id hid hentry hexit
    rw [Simple, hkind id hid]
    exact h.simple id hid hentry hexit
  · rw [h.region.reads_eq hext.size_le hsame h.entry_mem]
    exact h.reads_last
  · rw [h.region.reads_eq hext.size_le hsame h.entry_mem]
    exact h.reads_exit

/-- Nodes that come later and keep to themselves may be counted in. -/
theorem absorb (h : Wiring base net ends kinds hi last a f)
    (hregion : net.Region (Set.Ico hi net.size))
    (hsimple : ∀ id ∈ Set.Ico hi net.size, net.Simple id) :
    Wiring base net ends kinds net.size last a f := by
  have hsplit : Set.Ico base.size net.size = Set.Ico base.size hi ∪ Set.Ico hi net.size :=
    (Set.Ico_union_Ico_eq_Ico (Nat.le_of_lt (Nat.lt_of_le_of_lt h.entry_mem.1 h.entry_mem.2))
      h.hi_le).symm
  have hsub : Set.Ico base.size hi ⊆ Set.Ico base.size net.size := by
    rw [hsplit]
    exact Set.subset_union_left
  refine ⟨h.extends_, ?_, hsub h.entry_mem, hsub h.exit_mem, hsub h.last_mem, h.entry_ne, h.last_ne,
    h.sink,
    ?_, h.entry_kind, h.exit_kind, h.entry_label, h.exit_label, ?_, h.reads_last, h.reads_exit⟩
  · rw [hsplit]
    exact h.region.union hregion
  · rw [hsplit]
    rintro id (hid | hid) hedge
    · exact h.source id hid hedge
    · have := (hregion.closed id _ hid hedge).1
      have := h.entry_mem.2
      omega
  · rw [hsplit]
    rintro id (hid | hid) hentry hexit
    · exact h.simple id hid hentry hexit
    · exact hsimple id hid

/-- What is appended next may begin at the first end again. -/
theorem restart (h : Wiring base net ends kinds hi last a f) :
    Wiring base net ends kinds hi ends.entry 1 f := by
  refine ⟨h.extends_, h.region, h.entry_mem, h.exit_mem, h.entry_mem, h.entry_ne, h.entry_ne,
    h.sink, h.source, h.entry_kind, h.exit_kind, h.entry_label, h.exit_label, h.simple, ?_,
    h.reads_exit⟩
  have hself : net.reads ends.entry ends.entry = {net.label ends.entry} := by
    refine reads_self fun v hedge => ?_
    refine reads_eq_zero_of_source h.region.closed h.source
      (h.region.closed _ v h.entry_mem hedge) ?_
    rintro rfl
    exact h.source _ h.entry_mem hedge
  rw [hself, h.entry_label]
  rfl

/-- An edge between nodes of the region, neither from the last end nor to the first one, changes
nothing but what is read. -/
theorem link (h : Wiring base net ends kinds hi last a f) {x y last' : Nat}
    (hx : x ∈ Set.Ico base.size hi) (hy : y ∈ Set.Ico base.size hi)
    (hlast : last' ∈ Set.Ico base.size hi) (hxexit : x ≠ ends.exit) (hyentry : y ≠ ends.entry)
    (hlast_ne : last' ≠ ends.exit) :
    Wiring base (net.update x (·.link y)) ends kinds hi last'
      (net.reads ends.entry last' +
        net.reads ends.entry x * (net.reads y x)∗ * net.reads y last')
      (f + net.reads ends.entry x * (net.reads y x)∗ * net.reads y ends.exit) := by
  have hlt : x < net.size := h.region.lt_size x hx
  refine ⟨h.extends_.update hx.1 _, h.region.link hx hy, h.entry_mem, h.exit_mem, hlast, h.entry_ne,
    hlast_ne, ?_, ?_, ?_, ?_, ?_, ?_, ?_, ?_, ?_⟩
  · rw [targets_link hlt, if_neg fun heq => hxexit heq.1.symm]
    exact h.sink
  · intro id hid hedge
    rcases (edge_link hlt).1 hedge with hold | ⟨-, heq⟩
    · exact h.source id hid hold
    · exact hyentry heq.symm
  · rw [kind?_link]
    exact h.entry_kind
  · rw [kind?_link]
    exact h.exit_kind
  · rw [label_link]
    exact h.entry_label
  · rw [label_link]
    exact h.exit_label
  · intro id hid hentry hexit
    rw [Simple, kind?_link]
    exact h.simple id hid hentry hexit
  · exact reads_link hlt _ _
  · rw [reads_link hlt, h.reads_exit]

/-- From the last node the segment may be left. -/
theorem leave (h : Wiring base net ends kinds hi last a f) :
    Wiring base (net.update last (·.link ends.exit)) ends kinds hi last a (f + a) := by
  have hlink := h.link h.last_mem h.exit_mem h.last_mem h.last_ne h.entry_ne.symm h.last_ne
  have hback : net.reads ends.exit last = 0 := reads_eq_zero_of_sink h.sink h.last_ne
  have hself : net.reads ends.exit ends.exit = 1 := by
    rw [reads_self_of_sink h.sink, h.exit_label]
    rfl
  rw [hback, hself, kstar_zero, h.reads_last, mul_one, mul_one, mul_zero, add_zero] at hlink
  exact hlink

section Append

/-! ## Appending segments -/

/-- What can be read when a segment in new nodes is about to be appended: nothing leads from one
part to the other. -/
theorem append_reads (h : Wiring base net ends kinds hi last a f)
    (hsegment : segment.Within net (Set.Ico hi net.size) l) :
    Wiring base net ends kinds net.size last a f ∧ net.reads ends.entry segment.exit = 0 ∧
      net.reads segment.entry last = 0 ∧ net.reads segment.entry ends.exit = 0 ∧
      last ≠ segment.entry ∧ segment.exit ≠ ends.exit ∧ segment.entry ≠ ends.entry := by
  have hafter : ∀ {id : Nat}, id ∈ Set.Ico base.size hi → id ∉ Set.Ico hi net.size := by
    intro id hid hmem
    have := hid.2
    have := hmem.1
    omega
  have hne : ∀ {i j : Nat}, i ∈ Set.Ico base.size hi → j ∈ Set.Ico hi net.size → i ≠ j := by
    rintro i j hi' hj rfl
    exact hafter hi' hj
  refine ⟨h.absorb hsegment.region hsegment.simple, ?_, ?_, ?_, hne h.last_mem hsegment.entry,
    (hne h.exit_mem hsegment.exit).symm, (hne h.entry_mem hsegment.entry).symm⟩
  · refine reads_eq_zero_of_closed h.region.closed h.entry_mem fun hmem => ?_
    exact hafter hmem hsegment.exit
  · exact reads_eq_zero_of_closed hsegment.region.closed hsegment.entry (hafter h.last_mem)
  · exact reads_eq_zero_of_closed hsegment.region.closed hsegment.entry (hafter h.exit_mem)

theorem mem_of_within (h : Wiring base net ends kinds hi last a f) {id : Nat}
    (hid : id ∈ Set.Ico hi net.size) : id ∈ Set.Ico base.size net.size := by
  have := h.entry_mem.1
  have := h.entry_mem.2
  have := hid.1
  exact ⟨by omega, hid.2⟩

theorem append (h : Wiring base net ends kinds hi last a f)
    (hsegment : segment.Within net (Set.Ico hi net.size) l) :
    Wiring base (net.update last (·.link segment.entry)) ends kinds net.size segment.exit
      (a * l) f := by
  obtain ⟨hwiring, hexit, hback, hleave, -, hexit_ne, hentry_ne⟩ := h.append_reads hsegment
  have hlink := hwiring.link hwiring.last_mem (h.mem_of_within hsegment.entry)
    (h.mem_of_within hsegment.exit) h.last_ne hentry_ne hexit_ne
  rw [hexit, hback, hleave, hsegment.reads, kstar_zero, h.reads_last, mul_one, mul_zero, zero_add,
    add_zero] at hlink
  exact hlink

/-- A segment that may be run again before it is left, any number of times. -/
theorem appendLoop (h : Wiring base net ends kinds hi last a f)
    (hsegment : segment.Within net (Set.Ico hi net.size) l) :
    Wiring base ((net.update last (·.link segment.entry)).update segment.exit
        (·.link segment.entry)) ends kinds net.size segment.exit (a * (l * l∗)) f := by
  obtain ⟨-, -, -, -, -, hexit_ne, hentry_ne⟩ := h.append_reads hsegment
  have happend := h.append hsegment
  -- the edge from outside changes nothing in the segment
  have hsame : ∀ id ∈ Set.Ico hi net.size,
      (net.update last (·.link segment.entry)).node? id = net.node? id := by
    intro id hid
    have hne : id ≠ last := by
      have := h.last_mem.2
      have := hid.1
      omega
    rw [node?_update, if_neg hne]
  have hsize : net.size ≤ (net.update last (·.link segment.entry)).size := by
    rw [size_update]
  have hinner := hsegment.congr hsize hsame
  have hexit : ends.exit ∉ Set.Ico hi net.size := by
    intro hmem
    have := h.exit_mem.2
    have := hmem.1
    omega
  have hleave : (net.update last (·.link segment.entry)).reads segment.entry ends.exit = 0 :=
    reads_eq_zero_of_closed hinner.region.closed hinner.entry hexit
  have hentry := h.mem_of_within hsegment.entry
  have hlink := happend.link happend.last_mem hentry happend.last_mem hexit_ne
    hentry_ne hexit_ne
  have hrounds : a * l + a * l * l∗ * l = a * (l * l∗) := by
    calc a * l + a * l * l∗ * l = a * l * (1 + l∗ * l) := by
          rw [mul_add, mul_one, mul_assoc (a * l)]
      _ = a * l * l∗ := by rw [Language.one_add_kstar_mul_self_eq_kstar]
      _ = a * (l * l∗) := mul_assoc a l l∗
  rw [hinner.reads, happend.reads_last, hleave, mul_zero, add_zero, hrounds] at hlink
  exact hlink

end Append

/-! ## Ends -/

/-- The two ends, when there is nothing between them yet. -/
theorem start (base : Network) {k k' : NodeKind} (hk : ∀ list, k ≠ .terminal list)
    (hk' : ∀ list, k' ≠ .terminal list) :
    Wiring base ((base.push k).push k') ⟨base.size, base.size + 1⟩ (k, k') (base.size + 2)
      base.size 1 0 := by
  have hkind : ((base.push k).push k').kind? base.size = some k := by
    rw [Network.kind?, node?_push_of_lt k' (by rw [size_push]; omega), node?_push_size]
    rfl
  have hkind' : ((base.push k).push k').kind? (base.size + 1) = some k' := by
    have hlast := node?_push_size (base.push k) k'
    rw [size_push] at hlast
    rw [Network.kind?, hlast]
    rfl
  have hlabel := label_eq_nil hkind hk
  have hlabel' := label_eq_nil hkind' hk'
  have hcases : ∀ id ∈ Set.Ico base.size (base.size + 2), id = base.size ∨ id = base.size + 1 := by
    intro id hid
    have := hid.1
    have := hid.2
    omega
  have htargets : ∀ id ∈ Set.Ico base.size (base.size + 2),
      ((base.push k).push k').targets id = [] := by
    intro id hid
    rw [targets_push, targets_push, size_push]
    rcases hcases id hid with rfl | rfl
    · rw [if_neg (by omega), if_pos rfl]
    · rw [if_pos rfl]
  have hentry : base.size ∈ Set.Ico base.size (base.size + 2) := ⟨by omega, by omega⟩
  have hexit : base.size + 1 ∈ Set.Ico base.size (base.size + 2) := ⟨by omega, by omega⟩
  have hedge : ∀ i j, i ∈ Set.Ico base.size (base.size + 2) →
      ¬ ((base.push k).push k').Edge i j := by
    intro i j hi hedge
    rw [← mem_targets, htargets i hi] at hedge
    cases hedge
  refine ⟨(extends_push base k).trans (extends_push _ k'), ⟨?_, ?_, ?_⟩, hentry, hexit, hentry,
    by simp, by simp, htargets _ hexit, ?_, hkind, hkind', hlabel, hlabel', ?_, ?_, ?_⟩
  · intro id hid
    rw [size_push, size_push]
    exact hid.2
  · intro i j hi h
    exact absurd h (hedge i j hi)
  · intro id hid
    rw [htargets id hid]
    exact List.nodup_nil
  · intro id hid
    exact hedge id _ hid
  · intro id hid hentry_ne hexit_ne
    rcases hcases id hid with rfl | rfl
    · exact absurd rfl hentry_ne
    · exact absurd rfl hexit_ne
  · show ((base.push k).push k').reads base.size base.size = 1
    rw [reads_self_of_sink (htargets _ hentry), hlabel]
    rfl
  · exact reads_eq_zero_of_sink (htargets _ hentry) (by simp)

/-- As long as there is nothing between them, the first end leads to itself only. -/
theorem live_start (base : Network) (k k' : NodeKind) :
    Segment.Live ((base.push k).push k') ⟨base.size, base.size + 1⟩ base.size := by
  refine .of_sink ?_
  show ((base.push k).push k').targets base.size = []
  rw [targets_push, size_push, if_neg (by omega), targets_push, if_pos rfl]

/-- What is wired between two connectors is a segment. -/
theorem within (h : Wiring base net ends (.join, .join) net.size last a f) :
    ends.Within net (Set.Ico base.size net.size) f where
  region := h.region
  entry := h.entry_mem
  exit := h.exit_mem
  sink := h.sink
  source := h.source
  simple id hid := by
    by_cases hentry : id = ends.entry
    · exact .inl (hentry ▸ h.entry_kind)
    · by_cases hexit : id = ends.exit
      · exact .inl (hexit ▸ h.exit_kind)
      · exact h.simple id hid hentry hexit
  reads := h.reads_exit

end Wiring

end PhraseSearch
