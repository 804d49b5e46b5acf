import Mathlib.Data.List.Forall2
import PhraseSearch.Proofs.Network.Descendants
import PhraseSearch.Proofs.Network.Grafting

/-!
# Copies of nodes

`copyNode` follows children before it enters a node in its map, and edges afterwards.  So an edge
may lead back to a node whose children are still being copied, and that node is then copied a second
time.  What holds in any case is told by the list of `origins`: what the new nodes are copies of, in
the order in which they were made.  `Grown` says how the list, the map and the network have grown:
every node that has been added is `Done`, which means that its children and the targets of its edges
are copies of those of its origin, in the same order.

The induction is on the depth that is left.  It is enough for the nodes that are not in the map yet,
each of which may have a tree of any height below it.

    copying succeeds, and all that it adds is done                     (gives_copyNode)
    if no child leads back to its parent, no node is copied twice      (Grown.distinct)
-/

namespace PhraseSearch.Network

/-! ## Copies and origins -/

/-- Whether a new node is a copy of an older one, given what the new nodes are copies of. -/
def IsCopy (base : Network) (origins : List Nat) (new old : Nat) : Prop :=
  ∃ k, new = base.size + k ∧ origins[k]? = some old

variable {base net net' : Network} {origins more : List Nat} {new old : Nat}

namespace IsCopy

theorem append (h : IsCopy base origins new old) (more : List Nat) :
    IsCopy base (origins ++ more) new old := by
  obtain ⟨k, hnew, hk⟩ := h
  refine ⟨k, hnew, ?_⟩
  rw [List.getElem?_append_left (List.getElem?_eq_some_iff.1 hk).1]
  exact hk

/-- What was a copy before more copies were made. -/
theorem of_append (h : IsCopy base (origins ++ more) new old)
    (hlt : new < base.size + origins.length) : IsCopy base origins new old := by
  obtain ⟨k, rfl, hk⟩ := h
  refine ⟨k, rfl, ?_⟩
  rw [List.getElem?_append_left (by omega)] at hk
  exact hk

theorem last (base : Network) (origins : List Nat) (old : Nat) :
    IsCopy base (origins ++ [old]) (base.size + origins.length) old :=
  ⟨origins.length, rfl, by simp⟩

theorem unique {old' : Nat} (h : IsCopy base origins new old) (h' : IsCopy base origins new old') :
    old = old' := by
  obtain ⟨k, rfl, hk⟩ := h
  obtain ⟨k', heq, hk'⟩ := h'
  obtain rfl : k = k' := Nat.add_left_cancel heq
  exact Option.some.inj (hk.symm.trans hk')

theorem mem (h : IsCopy base origins new old) : old ∈ origins := by
  obtain ⟨k, -, hk⟩ := h
  exact List.mem_of_getElem? hk

theorem mem_Ico (h : IsCopy base origins new old) :
    new ∈ Set.Ico base.size (base.size + origins.length) := by
  obtain ⟨k, rfl, hk⟩ := h
  have := (List.getElem?_eq_some_iff.1 hk).1
  exact ⟨Nat.le_add_right _ _, by omega⟩

end IsCopy

theorem exists_isCopy (h : new ∈ Set.Ico base.size (base.size + origins.length)) :
    ∃ old, IsCopy base origins new old := by
  have := h.1
  have := h.2
  have hlt : new - base.size < origins.length := by omega
  exact ⟨origins[new - base.size], new - base.size, by omega, List.getElem?_eq_getElem hlt⟩

theorem mem_of_forall₂_isCopy {news olds : List Nat}
    (h : List.Forall₂ (IsCopy base origins) news olds) (hold : old ∈ olds) : old ∈ origins := by
  induction h with
  | nil => cases hold
  | cons hcopy _ ih =>
    rcases List.mem_cons.1 hold with rfl | hold
    · exact hcopy.mem
    · exact ih hold

theorem exists_isCopy_of_mem {news olds : List Nat}
    (h : List.Forall₂ (IsCopy base origins) news olds) (hnew : new ∈ news) :
    ∃ old ∈ olds, IsCopy base origins new old := by
  induction h with
  | nil => cases hnew
  | cons hcopy _ ih =>
    rcases List.mem_cons.1 hnew with rfl | hnew
    · exact ⟨_, List.mem_cons_self, hcopy⟩
    · obtain ⟨old, hold, hcopy⟩ := ih hnew
      exact ⟨old, List.mem_cons_of_mem _ hold, hcopy⟩

theorem forall₂_isCopy_append {news olds : List Nat}
    (h : List.Forall₂ (IsCopy base origins) news olds) (more : List Nat) :
    List.Forall₂ (IsCopy base (origins ++ more)) news olds :=
  h.imp fun _ _ hcopy => hcopy.append more

/-- Whether a copy has copies of the children and of the targets of its origin. -/
structure Done (base net : Network) (origins : List Nat) (new old : Nat) : Prop where
  kind : ∃ k ids, base.kind? old = some k ∧ List.Forall₂ (IsCopy base origins) ids k.children ∧
    net.kind? new = some (k.withChildren ids)
  targets : List.Forall₂ (IsCopy base origins) (net.targets new) (base.targets old)

theorem Done.mono (h : Done base net origins new old) (hsame : net'.node? new = net.node? new)
    (more : List Nat) : Done base net' (origins ++ more) new old where
  kind := by
    obtain ⟨k, ids, hk, hids, hnew⟩ := h.kind
    exact ⟨k, ids, hk, forall₂_isCopy_append hids more, (kind?_congr hsame).trans hnew⟩
  targets := by
    rw [targets_congr hsame]
    exact forall₂_isCopy_append h.targets more

/-! ## Nodes that lead back -/

/-- Whether, among all that a node spans, no child leads back to its parent. -/
def Untangled (net : Network) (top : Nat) : Prop :=
  ∀ parent child, net.Spans top parent → net.Child parent child → ¬ net.Spans child parent

theorem Untangled.of_spans {top id : Nat} (h : net.Untangled top)
    (hid : ∀ target, net.Spans id target → net.Spans top target) : net.Untangled id :=
  fun parent child hparent => h parent child (hid parent hparent)

/-! ## Growth -/

/-- What holds between the steps: all new nodes are copies, and the map leads to them. -/
structure Tracing (base net : Network) (origins : List Nat) (map : Copies) : Prop where
  extends_ : Extends base net
  size_eq : net.size = base.size + origins.length
  map_copy : ∀ old new, map[old]? = some new → IsCopy base origins new old

/-- What has become of a network and a map when what the sources span has been copied. -/
structure Grown (base : Network) (sources : List Nat) (net : Network) (origins : List Nat)
    (map : Copies) (net' : Network) (more : List Nat) (map' : Copies) : Prop where
  tracing : Tracing base net' (origins ++ more) map'
  done : ∀ new old, IsCopy base (origins ++ more) new old → net.size ≤ new →
    Done base net' (origins ++ more) new old
  mapped : ∀ old, old ∈ map' ↔ old ∈ map ∨ old ∈ more
  spanned : ∀ old ∈ more, ∃ i ∈ sources, base.Spans i old
  /-- if no child leads back, then nothing is copied again -/
  distinct : (∀ i ∈ sources, base.Untangled i) → more.Nodup ∧ ∀ old ∈ more, old ∉ map

variable {map map' : Copies} {sources : List Nat}

theorem Tracing.lt_of_isCopy (h : Tracing base net origins map)
    (hcopy : IsCopy base origins new old) : new < net.size := by
  rw [h.size_eq]
  exact hcopy.mem_Ico.2

/-- A new node is entered in the map. -/
theorem Tracing.push (h : Tracing base net origins map) (k : NodeKind) (old : Nat) :
    Tracing base (net.push k) (origins ++ [old]) (map.insert old net.size) where
  extends_ := h.extends_.trans (extends_push net k)
  size_eq := by
    rw [size_push, h.size_eq, List.length_append, List.length_singleton, Nat.add_assoc]
  map_copy id new hid := by
    rw [Std.TreeMap.getElem?_insert] at hid
    split at hid
    · next heq =>
      obtain rfl : old = id := by simpa using heq
      obtain rfl := Option.some.inj hid
      rw [h.size_eq]
      exact .last base origins old
    · exact (h.map_copy id new hid).append [old]

namespace Grown

theorem refl (h : Tracing base net origins map) (sources : List Nat) :
    Grown base sources net origins map net [] map where
  tracing := by rwa [List.append_nil]
  done new old hcopy hle := by
    rw [List.append_nil] at hcopy
    have := h.lt_of_isCopy hcopy
    omega
  mapped old := by simp
  spanned old hold := by cases hold
  distinct _ := ⟨List.nodup_nil, fun old hold => by cases hold⟩

/-- Copying goes on with other sources, and what has been done so far stays as it is. -/
theorem trans {net₁ net₂ : Network} {map₁ map₂ : Copies} {first second before after : List Nat}
    (h : Grown base first net origins map net₁ before map₁)
    (h' : Grown base second net₁ (origins ++ before) map₁ net₂ after map₂)
    (hsame : ∀ i ∈ Set.Ico net.size net₁.size, net₂.node? i = net₁.node? i) :
    Grown base (first ++ second) net origins map net₂ (before ++ after) map₂ := by
  have happend : origins ++ (before ++ after) = origins ++ before ++ after :=
    (List.append_assoc _ _ _).symm
  refine ⟨happend ▸ h'.tracing, ?_, ?_, ?_, ?_⟩
  · intro new old hcopy hle
    rw [happend] at hcopy ⊢
    by_cases hlt : new < net₁.size
    · have hbefore := hcopy.of_append (h.tracing.size_eq ▸ hlt)
      exact (h.done new old hbefore hle).mono (hsame new ⟨hle, hlt⟩) after
    · exact h'.done new old hcopy (Nat.le_of_not_lt hlt)
  · intro old
    rw [h'.mapped, h.mapped, List.mem_append, or_assoc]
  · intro old hold
    rcases List.mem_append.1 hold with hold | hold
    · obtain ⟨i, hi, hspans⟩ := h.spanned old hold
      exact ⟨i, List.mem_append_left _ hi, hspans⟩
    · obtain ⟨i, hi, hspans⟩ := h'.spanned old hold
      exact ⟨i, List.mem_append_right _ hi, hspans⟩
  · intro huntangled
    obtain ⟨hbefore, haway⟩ := h.distinct fun i hi => huntangled i (List.mem_append_left _ hi)
    obtain ⟨hafter, haway'⟩ := h'.distinct fun i hi => huntangled i (List.mem_append_right _ hi)
    refine ⟨List.nodup_append.2 ⟨hbefore, hafter, ?_⟩, fun old hold => ?_⟩
    · rintro i hi j hj rfl
      exact haway' i hj ((h.mapped i).2 (.inr hi))
    · rcases List.mem_append.1 hold with hold | hold
      · exact haway old hold
      · exact fun hmap => haway' old hold ((h.mapped old).2 (.inl hmap))

/-- A change of a node that was there before. -/
theorem update (h : Grown base sources net origins map net' more map') {id : Nat}
    (hge : base.size ≤ id) (hlt : id < net.size) (f : Node → Node) :
    Grown base sources net origins map (net'.update id f) more map' where
  tracing := ⟨h.tracing.extends_.update hge f, (size_update _ _ _).trans h.tracing.size_eq,
    h.tracing.map_copy⟩
  done new old hcopy hle := by
    have hne : new ≠ id := by omega
    have hsame : (net'.update id f).node? new = net'.node? new := by
      rw [node?_update, if_neg hne]
    have hdone := (h.done new old hcopy hle).mono hsame []
    rwa [List.append_nil] at hdone
  mapped := h.mapped
  spanned := h.spanned
  distinct := h.distinct

/-- The origins are closed if all copies are done. -/
theorem mem_of_spans {origins : List Nat} (h : Grown base sources base [] map net' origins map')
    {id target : Nat} (hid : id ∈ origins) (hspans : base.Spans id target) : target ∈ origins := by
  have hdone : ∀ {i}, i ∈ origins → ∃ new, Done base net' origins new i := by
    intro i hi
    obtain ⟨k, hk⟩ := List.mem_iff_getElem?.1 hi
    exact ⟨base.size + k, h.done _ i ⟨k, rfl, hk⟩ (Nat.le_add_right _ _)⟩
  induction hspans with
  | refl => exact hid
  | child hchild _ ih =>
    obtain ⟨new, hnew⟩ := hdone hid
    obtain ⟨k, ids, hk, hids, -⟩ := hnew.kind
    exact ih (mem_of_forall₂_isCopy hids ((child_iff hk).1 hchild))
  | edge hedge _ ih =>
    obtain ⟨new, hnew⟩ := hdone hid
    exact ih (mem_of_forall₂_isCopy hnew.targets (mem_targets.2 hedge))

/-- A node is made after its children have been copied, and its edges are followed then. -/
theorem node {net₁ net₂ : Network} {map₁ map₂ : Copies} {before after : List Nat} {id : Nat}
    {k : NodeKind} (h : Grown base (base.childrenOf id) net origins map net₁ before map₁)
    (h' : Grown base (base.targets id) (net₁.push k) (origins ++ before ++ [id])
      (map₁.insert id net₁.size) net₂ after map₂)
    (hnew : Done base net₂ (origins ++ before ++ [id] ++ after) net₁.size id)
    (hsame : ∀ i ∈ Set.Ico net.size net₁.size, net₂.node? i = net₁.node? i)
    (hid : id ∉ map) :
    Grown base [id] net origins map net₂ (before ++ id :: after) map₂ := by
  have happend : origins ++ (before ++ id :: after) = origins ++ before ++ [id] ++ after := by
    simp only [List.append_assoc, List.singleton_append]
  have hmapped : ∀ old, old ∈ map₁.insert id net₁.size ↔ old = id ∨ old ∈ map ∨ old ∈ before := by
    intro old
    rw [Std.TreeMap.mem_insert, h.mapped, Std.LawfulEqCmp.compare_eq_iff_eq, eq_comm]
  have hspanned : ∀ old ∈ before, ∃ child, base.Child id child ∧ base.Spans child old := by
    intro old hold
    obtain ⟨child, hmem, hspans⟩ := h.spanned old hold
    exact ⟨child, mem_childrenOf.1 hmem, hspans⟩
  refine ⟨happend ▸ h'.tracing, ?_, ?_, ?_, ?_⟩
  · intro new old hcopy hle
    rw [happend] at hcopy ⊢
    have hsize := h.tracing.size_eq
    rcases Nat.lt_trichotomy new net₁.size with hlt | rfl | hgt
    · rw [List.append_assoc (origins ++ before)] at hcopy ⊢
      exact (h.done new old (hcopy.of_append (hsize ▸ hlt)) hle).mono (hsame new ⟨hle, hlt⟩) _
    · rw [hsize] at hcopy
      obtain rfl := hcopy.unique ((IsCopy.last base (origins ++ before) id).append after)
      exact hnew
    · refine h'.done new old hcopy ?_
      rw [size_push]
      exact hgt
  · intro old
    rw [h'.mapped, hmapped, List.mem_append, List.mem_cons]
    tauto
  · intro old hold
    refine ⟨id, List.mem_singleton_self id, ?_⟩
    rcases List.mem_append.1 hold with hold | hold
    · obtain ⟨child, hchild, hspans⟩ := hspanned old hold
      exact .child hchild hspans
    rcases List.mem_cons.1 hold with rfl | hold
    · exact .refl old
    · obtain ⟨target, htarget, hspans⟩ := h'.spanned old hold
      exact .edge (mem_targets.1 htarget) hspans
  · intro huntangled
    have hself := huntangled id (List.mem_singleton_self id)
    obtain ⟨hbefore, haway⟩ := h.distinct fun child hchild =>
      hself.of_spans fun _ => .child (mem_childrenOf.1 hchild)
    obtain ⟨hafter, haway'⟩ := h'.distinct fun target htarget =>
      hself.of_spans fun _ => .edge (mem_targets.1 htarget)
    have hback : id ∉ before := by
      intro hmem
      obtain ⟨child, hchild, hspans⟩ := hspanned id hmem
      exact hself id child (.refl id) hchild hspans
    have haway'' : ∀ old ∈ after, old ≠ id ∧ old ∉ map ∧ old ∉ before := fun old hold => by
      have hout := haway' old hold
      rwa [hmapped, not_or, not_or] at hout
    refine ⟨List.nodup_append.2 ⟨hbefore, List.nodup_cons.2 ⟨fun hmem => ?_, hafter⟩, ?_⟩, ?_⟩
    · exact (haway'' id hmem).1 rfl
    · rintro i hi j hj rfl
      rcases List.mem_cons.1 hj with rfl | hj
      · exact hback hi
      · exact (haway'' i hj).2.2 hi
    · intro old hold
      rcases List.mem_append.1 hold with hold | hold
      · exact haway old hold
      rcases List.mem_cons.1 hold with rfl | hold
      · exact hid
      · exact (haway'' old hold).2.1

end Grown

/-! ## What is left to copy -/

/-- How many nodes are not in a map. -/
def unmapped (base : Network) (map : Copies) : Nat :=
  ((Finset.range base.size).filter (· ∉ map)).card

theorem unmapped_empty (base : Network) : base.unmapped ∅ = base.size := by
  rw [unmapped, Finset.filter_true_of_mem fun i _ => Std.TreeMap.not_mem_emptyc,
    Finset.card_range]

theorem filter_notMem_subset (h : ∀ old ∈ map, old ∈ map') :
    (Finset.range base.size).filter (· ∉ map') ⊆ (Finset.range base.size).filter (· ∉ map) :=
  Finset.monotone_filter_right _ fun i _ hout hmem => hout (h i hmem)

theorem unmapped_le (h : ∀ old ∈ map, old ∈ map') : base.unmapped map' ≤ base.unmapped map :=
  Finset.card_le_card (filter_notMem_subset h)

theorem unmapped_lt (h : ∀ old ∈ map, old ∈ map') {id : Nat} (hlt : id < base.size)
    (hout : id ∉ map) (hin : id ∈ map') : base.unmapped map' < base.unmapped map := by
  refine Finset.card_lt_card ((Finset.ssubset_iff_of_subset (filter_notMem_subset h)).2
    ⟨id, ?_, ?_⟩)
  · exact Finset.mem_filter.2 ⟨Finset.mem_range.2 hlt, hout⟩
  · exact fun hmem => (Finset.mem_filter.1 hmem).2 hin

/-! ## Copying -/

namespace Edit

/-- Whether nodes are copied with all that they span, if so much depth is enough for those that are
not in the map yet. -/
def CopiesNodes (base : Network) (depth : Nat) : Prop :=
  ∀ net origins map id height p, Tracing base net origins map →
    base.unfold height id = some p → base.unmapped map * (base.size + 1) + height ≤ depth →
    Gives (copyNode depth id map) net fun out net' => ∃ more,
      Grown base [id] net origins map net' more out.2 ∧ Extends net net' ∧
      IsCopy base (origins ++ more) out.1 id

variable {depth height id : Nat} {ids : List Nat}

theorem grown_copyAll (hcopy : CopiesNodes base depth) (h : Tracing base net origins map)
    (hids : ∀ i ∈ ids, ∃ p, base.unfold height i = some p)
    (hdepth : base.unmapped map * (base.size + 1) + height ≤ depth) :
    Gives (copyAll (copyNode depth) ids map) net fun out net' => ∃ more,
      Grown base ids net origins map net' more out.2 ∧ Extends net net' ∧
      List.Forall₂ (IsCopy base (origins ++ more)) out.1 ids := by
  induction ids generalizing net origins map with
  | nil => exact gives_pure ⟨[], .refl h [], .refl net, .nil⟩
  | cons id ids ih =>
    obtain ⟨p, hp⟩ := hids id List.mem_cons_self
    refine .bind ((hcopy net origins map id height p h hp hdepth).mono ?_)
    rintro ⟨new, map₁⟩ net₁ ⟨before, hgrown, hext, hnew⟩
    have hle : base.unmapped map₁ ≤ base.unmapped map :=
      unmapped_le fun old hold => (hgrown.mapped old).2 (.inl hold)
    have hdepth₁ : base.unmapped map₁ * (base.size + 1) + height ≤ depth :=
      Nat.le_trans (Nat.add_le_add_right (Nat.mul_le_mul_right _ hle) _) hdepth
    refine .bind ((ih hgrown.tracing (fun i hi => hids i (List.mem_cons_of_mem _ hi))
      hdepth₁).mono ?_)
    rintro ⟨news, map₂⟩ net₂ ⟨after, hgrown₂, hext₂, hnews⟩
    refine gives_pure ⟨before ++ after, ?_, hext.trans hext₂, ?_⟩
    · exact hgrown.trans hgrown₂ fun i hi => hext₂.same i hi.2
    · rw [← List.append_assoc]
      exact .cons (hnew.append after) hnews

/-- What holds of the copy of a node, and of the nodes made before it, while its edges are followed:
only its edges have changed. -/
structure Follows (net net' : Network) (new : Nat) : Prop where
  size_le : net.size ≤ net'.size
  same : ∀ i < net.size, i ≠ new → net'.node? i = net.node? i
  kind : net'.kind? new = net.kind? new

theorem grown_copyEdges (hcopy : CopiesNodes base depth) (h : Tracing base net origins map)
    {new : Nat} {part ts : List Nat} (hnew : new ∈ Set.Ico base.size net.size)
    (hts : ∀ t ∈ ts, ∃ p, base.unfold base.size t = some p) (hnodup : (part ++ ts).Nodup)
    (hpart : List.Forall₂ (IsCopy base origins) (net.targets new) part)
    (hdepth : base.unmapped map * (base.size + 1) + base.size ≤ depth) :
    Gives (copyEdges (copyNode depth) new ts map) net fun map' net' => ∃ more,
      Grown base ts net origins map net' more map' ∧ Follows net net' new ∧
      List.Forall₂ (IsCopy base (origins ++ more)) (net'.targets new) (part ++ ts) := by
  induction ts generalizing net origins map part with
  | nil =>
    refine gives_pure ⟨[], .refl h [], ⟨Nat.le_refl _, fun _ _ _ => rfl, rfl⟩, ?_⟩
    rwa [List.append_nil, List.append_nil]
  | cons t ts ih =>
    obtain ⟨p, hp⟩ := hts t List.mem_cons_self
    refine .bind ((hcopy net origins map t base.size p h hp hdepth).mono ?_)
    rintro ⟨target, map₁⟩ net₁ ⟨before, hgrown, hext, htarget⟩
    have hlt : new < net₁.size := Nat.lt_of_lt_of_le hnew.2 hext.size_le
    refine .bind (gives_link hlt ?_)
    have hgrown₁ := hgrown.update hnew.1 hnew.2 (·.link target)
    have htargets₁ : net₁.targets new = net.targets new := targets_congr (hext.same new hnew.2)
    have hpart₁ := forall₂_isCopy_append hpart before
    -- the target is another one than those that have been copied, and so is its copy
    have hfresh : target ∉ net₁.targets new := by
      intro hmem
      rw [htargets₁] at hmem
      obtain ⟨old, hold, hcopy'⟩ := exists_isCopy_of_mem hpart₁ hmem
      obtain rfl := htarget.unique hcopy'
      exact (List.nodup_append.1 hnodup).2.2 t hold t List.mem_cons_self rfl
    have hlinked : (net₁.update new (·.link target)).targets new = net.targets new ++ [target] := by
      rw [targets_link hlt, if_pos ⟨rfl, hfresh⟩, htargets₁]
    have hle : base.unmapped map₁ ≤ base.unmapped map :=
      unmapped_le fun old hold => (hgrown.mapped old).2 (.inl hold)
    have hdepth₁ : base.unmapped map₁ * (base.size + 1) + base.size ≤ depth :=
      Nat.le_trans (Nat.add_le_add_right (Nat.mul_le_mul_right _ hle) _) hdepth
    have hpart₂ : List.Forall₂ (IsCopy base (origins ++ before))
        ((net₁.update new (·.link target)).targets new) (part ++ [t]) := by
      rw [hlinked]
      exact List.rel_append hpart₁ (.cons htarget .nil)
    refine (ih hgrown₁.tracing ⟨hnew.1, ?_⟩ (fun i hi => hts i (List.mem_cons_of_mem _ hi)) ?_
      hpart₂ hdepth₁).mono ?_
    · rw [size_update]
      exact hlt
    · rwa [List.append_assoc, List.singleton_append]
    · rintro map₂ net₂ ⟨after, hgrown₂, hfollows, hall⟩
      have hsize : net.size ≤ net₁.size := hext.size_le
      have hsize₂ := hfollows.size_le
      rw [size_update] at hsize₂
      refine ⟨before ++ after, ?_, ⟨Nat.le_trans hsize hsize₂, ?_, ?_⟩, ?_⟩
      · refine hgrown₁.trans hgrown₂ fun i hi => hfollows.same i hi.2 ?_
        exact Nat.ne_of_gt (Nat.lt_of_lt_of_le hnew.2 hi.1)
      · intro i hi hne
        rw [hfollows.same i (by rw [size_update]; omega) hne, node?_update, if_neg hne,
          hext.same i hi]
      · rw [hfollows.kind, kind?_link, kind?_congr (hext.same new hnew.2)]
      · rwa [← List.append_assoc, ← List.singleton_append, ← List.append_assoc]

/-- A node that is not in the map yet is copied after its children and before what its edges lead
to, and one node less is missing from the map then. -/
theorem grown_copyNew (hcopy : CopiesNodes base depth) (hedges : base.EdgesInRange)
    (hnodup : ∀ i, (base.targets i).Nodup)
    (htrees : ∀ i < base.size, ∃ p, base.unfold base.size i = some p)
    (h : Tracing base net origins map) {p : Pattern} (hp : base.unfold (height + 1) id = some p)
    (hid : id ∉ map) (hdepth : base.unmapped map * (base.size + 1) + height ≤ depth) :
    Gives (copyNode (depth + 1) id map) net fun out net' => ∃ net₁ map₁ before after,
      Grown base (base.childrenOf id) net origins map net₁ before map₁ ∧
      (∀ child, base.Child id child → child ∈ origins ++ before) ∧
      Grown base [id] net origins map net' (before ++ id :: after) out.2 ∧ Extends net net' ∧
      IsCopy base (origins ++ (before ++ id :: after)) out.1 id := by
  obtain ⟨k, ps, hk, hps, -⟩ := exists_unfold_child hp
  obtain ⟨node, hnode⟩ := exists_node?_of_lt (lt_size_of_kind? hk)
  have hnone : map[id]? = none := Std.TreeMap.getElem?_eq_none hid
  rw [copyNode, hnone]
  refine .bind (gives_kind (h.extends_.kind? hk) ?_)
  rw [copyChildren_eq]
  refine .bind (.bind ((grown_copyAll hcopy h (fun i hi => exists_of_mapM hps hi) hdepth).mono ?_))
  rintro ⟨news, map₁⟩ net₁ ⟨before, hgrown, hext, hnews⟩
  refine gives_pure (.bind (gives_addNode ?_))
  have hpushed := hgrown.tracing.push (k.withChildren news) id
  refine .bind (gives_node ((hpushed.extends_.same id (lt_size_of_kind? hk)).trans hnode) ?_)
  rw [← targets_of_node? hnode]
  have hless : base.unmapped (map₁.insert id net₁.size) < base.unmapped map := by
    refine unmapped_lt (fun old hold => ?_) (lt_size_of_kind? hk) hid Std.TreeMap.mem_insert_self
    exact Std.TreeMap.mem_insert.2 (.inr ((hgrown.mapped old).2 (.inl hold)))
  have hdepth₁ :
      base.unmapped (map₁.insert id net₁.size) * (base.size + 1) + base.size ≤ depth := by
    have hrows := Nat.mul_le_mul_right (base.size + 1) hless
    rw [Nat.succ_mul] at hrows
    omega
  have hnew : net₁.size ∈ Set.Ico base.size (net₁.push (k.withChildren news)).size := by
    refine ⟨hgrown.tracing.extends_.size_le, ?_⟩
    rw [size_push]
    exact Nat.lt_succ_self _
  have hnone : List.Forall₂ (IsCopy base (origins ++ before ++ [id]))
      ((net₁.push (k.withChildren news)).targets net₁.size) [] := by
    rw [targets_push, if_pos rfl]
    exact .nil
  refine .bind ((grown_copyEdges hcopy hpushed hnew (fun t ht => htrees t ?_) (hnodup id) hnone
    hdepth₁).mono ?_)
  · exact hedges id t (mem_targets.1 ht)
  rintro map₂ net₂ ⟨after, hgrown₂, hfollows, htargets⟩
  have hdone : Done base net₂ (origins ++ before ++ [id] ++ after) net₁.size id := by
    refine ⟨⟨k, news, hk, ?_, ?_⟩, htargets⟩
    · exact forall₂_isCopy_append (forall₂_isCopy_append hnews [id]) after
    · rw [hfollows.kind, kind?, node?_push_size]
      rfl
  have hext₁ : Extends net₁ net₂ := by
    refine ⟨?_, fun i hi => ?_⟩
    · have hsize := hfollows.size_le
      rw [size_push] at hsize
      omega
    · rw [hfollows.same i (by rw [size_push]; omega) (Nat.ne_of_lt hi), node?_push_of_lt _ hi]
  rw [← childrenOf_eq hk] at hgrown hnews
  refine gives_pure ⟨net₁, map₁, before, after, hgrown, fun child hchild => ?_,
    hgrown.node hgrown₂ hdone (fun i hi => hext₁.same i hi.2) hid, hext.trans hext₁, ?_⟩
  · exact mem_of_forall₂_isCopy hnews (mem_childrenOf.2 hchild)
  · have hlast := (IsCopy.last base (origins ++ before) id).append after
    rw [← hgrown.tracing.size_eq, List.append_assoc, List.append_assoc] at hlast
    exact hlast

/-- The induction is on the depth that is left. -/
theorem grown_copyNode (hedges : base.EdgesInRange) (hnodup : ∀ i, (base.targets i).Nodup)
    (htrees : ∀ i < base.size, ∃ p, base.unfold base.size i = some p) (depth : Nat) :
    CopiesNodes base depth := by
  induction depth with
  | zero =>
    intro net origins map id height p _ hp hdepth
    obtain rfl : height = 0 := by omega
    cases hp
  | succ depth ih =>
    intro net origins map id height p h hp hdepth
    obtain ⟨height, rfl⟩ : ∃ n, height = n + 1 := by
      cases height with
      | zero => cases hp
      | succ height => exact ⟨height, rfl⟩
    by_cases hid : id ∈ map
    · obtain ⟨new, hnew⟩ := Option.isSome_iff_exists.1 (Std.TreeMap.mem_iff_isSome_getElem?.1 hid)
      rw [copyNode, hnew]
      refine gives_pure ⟨[], .refl h [id], .refl net, ?_⟩
      exact (h.map_copy id new hnew).append []
    · refine (grown_copyNew ih hedges hnodup htrees h hp hid (by omega)).mono ?_
      rintro out net' ⟨net₁, map₁, before, after, -, -, hgrown, hext, hcopy⟩
      exact ⟨before ++ id :: after, hgrown, hext, hcopy⟩

end Edit

end PhraseSearch.Network
