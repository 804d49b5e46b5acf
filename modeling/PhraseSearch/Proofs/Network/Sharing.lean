import Mathlib.Data.Set.Card
import Mathlib.Order.Interval.Finset.Nat
import PhraseSearch.Proofs.Network.Copies
import PhraseSearch.Proofs.Network.Images

/-!
# What copies share

A copy covers all that a node spans: every new node has an origin there, whose kind and edges it
has, and every node there is an origin.  The copy is an image if no two new nodes have the same
origin.  This is so if no child leads back to its parent.  If a child does, then the copy of its
parent is not an image: the parent is copied a first time before its own copy is made.

    a copy covers what a node spans, and is an image of it             (copyBelow_spec)
        as long as no child leads back to its parent
    a word that leads back to its sequence is enough                   (not_copiesOnce_of_edge_back)
-/

namespace PhraseSearch.Network

variable {net net' : Network} {originals : Set Nat} {origin : Nat → Nat}

/-! ## Coverings -/

/-- Whether the new nodes of a network are copies of some older ones, each of which has been copied
at least once, and belong together as these do. -/
structure Covers (net net' : Network) (originals : Set Nat) (origin : Nat → Nat) : Prop where
  /-- the older nodes have not changed -/
  extends_ : Extends net net'
  origin_eq : origin '' Set.Ico net.size net'.size = originals
  kind : ∀ new ∈ Set.Ico net.size net'.size, ∃ k ids, net.kind? (origin new) = some k ∧
    net'.kind? new = some (k.withChildren ids) ∧ ids.map origin = k.children ∧
    ∀ i ∈ ids, i ∈ Set.Ico net.size net'.size
  targets : ∀ new ∈ Set.Ico net.size net'.size,
    (net'.targets new).map origin = net.targets (origin new) ∧
    ∀ t ∈ net'.targets new, t ∈ Set.Ico net.size net'.size

namespace Covers

/-- If no two new nodes have the same origin, then each of them is its image. -/
theorem exists_images (h : Covers net net' originals origin)
    (hinj : Set.InjOn origin (Set.Ico net.size net'.size)) : ∃ image : Nat → Nat,
    Images net net' originals image (fun k => k.withChildren (k.children.map image)) ∧
      ∀ new ∈ Set.Ico net.size net'.size, image (origin new) = new := by
  obtain ⟨image, himage⟩ : ∃ image : Nat → Nat,
      ∀ new ∈ Set.Ico net.size net'.size, image (origin new) = new :=
    ⟨_, hinj.leftInvOn_invFunOn⟩
  have hmap : ∀ news : List Nat, (∀ i ∈ news, i ∈ Set.Ico net.size net'.size) →
      (news.map origin).map image = news := by
    intro news hnews
    rw [List.map_map]
    exact (List.map_congr_left fun i hi => himage i (hnews i hi)).trans (List.map_id news)
  refine ⟨image, ⟨h.extends_, ?_, ?_, ?_, ?_⟩, himage⟩
  · rw [← h.origin_eq]
    rintro _ ⟨new, hnew, rfl⟩ _ ⟨new', hnew', rfl⟩ heq
    rw [himage new hnew, himage new' hnew'] at heq
    rw [heq]
  · rw [← h.origin_eq, ← Set.image_comp]
    exact (Set.image_congr himage).trans (Set.image_id' _)
  · rw [← h.origin_eq]
    rintro _ ⟨new, hnew, rfl⟩
    obtain ⟨k, ids, hk, hnewkind, hids, hmem⟩ := h.kind new hnew
    rw [himage new hnew, hnewkind, hk, Option.map_some, ← hids, hmap ids hmem]
  · rw [← h.origin_eq]
    rintro _ ⟨new, hnew, rfl⟩
    obtain ⟨htargets, hmem⟩ := h.targets new hnew
    rw [himage new hnew, ← htargets, hmap _ hmem]

/-- There are as many images as originals, so no original has two copies. -/
theorem injOn_of_images (h : Covers net net' originals origin) {image : Nat → Nat}
    {onKind : NodeKind → NodeKind} (h' : Images net net' originals image onKind) :
    Set.InjOn origin (Set.Ico net.size net'.size) := by
  refine Set.injOn_of_ncard_image_eq ?_ (Set.finite_Ico _ _)
  rw [h.origin_eq, ← h'.injOn.ncard_image, h'.image_eq]

end Covers

/-! ## Origins -/

/-- What a new node is a copy of. -/
def originOf (net : Network) (origins : List Nat) (new : Nat) : Nat :=
  origins.getD (new - net.size) 0

variable {origins : List Nat} {new old : Nat}

theorem IsCopy.originOf_eq (h : IsCopy net origins new old) : net.originOf origins new = old := by
  obtain ⟨k, rfl, hk⟩ := h
  rw [originOf, Nat.add_sub_cancel_left, List.getD_eq_getElem?_getD, hk, Option.getD_some]

theorem map_originOf {news olds : List Nat} (h : List.Forall₂ (IsCopy net origins) news olds) :
    news.map (net.originOf origins) = olds ∧
      ∀ i ∈ news, i ∈ Set.Ico net.size (net.size + origins.length) := by
  induction h with
  | nil => exact ⟨rfl, fun i hi => by cases hi⟩
  | cons hcopy _ ih =>
    refine ⟨?_, List.forall_mem_cons.2 ⟨hcopy.mem_Ico, ih.2⟩⟩
    rw [List.map_cons, hcopy.originOf_eq, ih.1]

theorem injOn_originOf_iff :
    Set.InjOn (net.originOf origins) (Set.Ico net.size (net.size + origins.length)) ↔
      origins.Nodup := by
  constructor
  · intro h
    refine List.nodup_iff_getElem?_ne_getElem?.2 fun i j hij hj heq => ?_
    have hj' : origins[j]? = some origins[j] := List.getElem?_eq_getElem hj
    have hcopy : IsCopy net origins (net.size + j) origins[j] := ⟨j, rfl, hj'⟩
    have hcopy' : IsCopy net origins (net.size + i) origins[j] := ⟨i, rfl, heq.trans hj'⟩
    have hsame := h hcopy.mem_Ico hcopy'.mem_Ico (hcopy.originOf_eq.trans hcopy'.originOf_eq.symm)
    omega
  · intro h new hnew new' hnew' heq
    obtain ⟨old, hcopy⟩ := exists_isCopy hnew
    obtain ⟨old', hcopy'⟩ := exists_isCopy hnew'
    rw [hcopy.originOf_eq, hcopy'.originOf_eq] at heq
    subst heq
    obtain ⟨k, rfl, hk⟩ := hcopy
    obtain ⟨k', rfl, hk'⟩ := hcopy'
    have hlt : k < origins.length := (List.getElem?_eq_some_iff.1 hk).1
    rw [(List.getElem?_inj hlt h).1 (hk.trans hk'.symm)]

/-- What has been copied from the first node on covers all that it spans. -/
theorem Grown.covers {id : Nat} {map : Copies} (h : Grown net [id] net [] ∅ net' origins map)
    (hcopy : IsCopy net origins new id) :
    Covers net net' {i | net.Spans id i} (net.originOf origins) := by
  have hsize : net'.size = net.size + origins.length := h.tracing.size_eq
  have hdone : ∀ new ∈ Set.Ico net.size net'.size, ∃ old, IsCopy net origins new old ∧
      Done net net' origins new old := by
    intro new hnew
    obtain ⟨old, hold⟩ := exists_isCopy (hsize ▸ hnew)
    exact ⟨old, hold, h.done new old hold hnew.1⟩
  refine ⟨h.tracing.extends_, ?_, fun new hnew => ?_, fun new hnew => ?_⟩
  · ext i
    constructor
    · rintro ⟨new, hnew, rfl⟩
      obtain ⟨old, hold, -⟩ := hdone new hnew
      obtain ⟨top, htop, hspans⟩ := h.spanned old hold.mem
      rw [List.mem_singleton] at htop
      rw [hold.originOf_eq]
      exact htop ▸ hspans
    · intro hspans
      obtain ⟨k, hk⟩ := List.mem_iff_getElem?.1 (h.mem_of_spans hcopy.mem hspans)
      have hi : IsCopy net origins (net.size + k) i := ⟨k, rfl, hk⟩
      exact ⟨net.size + k, hsize ▸ hi.mem_Ico, hi.originOf_eq⟩
  · obtain ⟨old, hold, ⟨k, ids, hk, hids, hkind⟩, -⟩ := hdone new hnew
    obtain ⟨hmap, hmem⟩ := map_originOf hids
    rw [hold.originOf_eq, hsize]
    exact ⟨k, ids, hk, hkind, hmap, hmem⟩
  · obtain ⟨old, hold, -, htargets⟩ := hdone new hnew
    rw [hold.originOf_eq, hsize]
    exact map_originOf htargets

/-! ## Networks whose nodes can be copied -/

/-- Whether all ids lead to nodes, no edge is there twice, and children make no cycle. -/
structure Copyable (net : Network) : Prop where
  edges : net.EdgesInRange
  children : net.ChildrenInRange
  acyclic : net.Acyclic
  nodup : ∀ id, (net.targets id).Nodup

variable {top : Nat}

theorem Copyable.lt_size (h : net.Copyable) {id target : Nat} (hspans : net.Spans id target)
    (hid : id < net.size) : target < net.size := by
  induction hspans with
  | refl => exact hid
  | child hchild _ ih => exact ih (h.children _ _ hchild)
  | edge hedge _ ih => exact ih (h.edges _ _ hedge)

theorem Copyable.hasTree (h : net.Copyable) (htop : top < net.size) : net.HasTree top := by
  obtain ⟨rank, hrank⟩ := h.acyclic
  have hbelow : ∀ {id target}, net.Descends id target → rank target ≤ rank id ∧
      (id < net.size → target < net.size) := by
    intro id target hdescends
    induction hdescends with
    | refl id => exact ⟨Nat.le_refl _, fun hid => hid⟩
    | step hchild _ ih =>
      exact ⟨Nat.le_trans ih.1 (Nat.le_of_lt (hrank _ _ hchild)),
        fun _ => ih.2 (h.children _ _ hchild)⟩
  refine ⟨fun id hid => (hbelow hid).2 htop, fun id child _ hchild hback => ?_⟩
  exact Nat.not_lt.2 (hbelow hback).1 (hrank id child hchild)

/-- A node is copied, and what was copied before its own copy was made includes the node itself if
a child leads back to it. -/
theorem exists_copyBelow_grown (h : net.Copyable) (htop : top < net.size) :
    ∃ new net' map before after, Edit.copyBelow top net = .ok new net' ∧
      Grown net [top] net [] ∅ net' (before ++ top :: after) map ∧
      IsCopy net (before ++ top :: after) new top ∧
      ∀ child, net.Child top child → net.Spans child top → top ∈ before := by
  have htrees : ∀ i < net.size, ∃ p, net.unfold net.size i = some p := fun i hi =>
    (h.hasTree hi).exists_unfold_size
  obtain ⟨depth, hdepth, hbelow⟩ := Edit.exists_copyBelow_eq top net
  obtain ⟨p, hp⟩ := htrees top htop
  obtain ⟨height, hheight⟩ : ∃ n, net.size = n + 1 := ⟨net.size - 1, by omega⟩
  obtain ⟨depth, rfl⟩ : ∃ n, depth = n + 1 := ⟨depth - 1, by
    have := Nat.mul_le_mul (Nat.le_add_left 1 net.size) (Nat.le_add_left 1 net.size)
    omega⟩
  rw [hheight] at hp
  have hstart : Tracing net net [] ∅ := ⟨.refl net, rfl, fun old new hnew => by
    rw [Std.TreeMap.getElem?_emptyc] at hnew
    cases hnew⟩
  have henough : net.unmapped ∅ * (net.size + 1) + height ≤ depth := by
    rw [unmapped_empty]
    rw [Nat.succ_mul] at hdepth
    omega
  obtain ⟨⟨new, map⟩, net', hcopy, net₁, map₁, before, after, hbefore, hchildren, hgrown, -,
    hnew⟩ := Edit.grown_copyNew (Edit.grown_copyNode h.edges h.nodup htrees depth) h.edges h.nodup htrees
      hstart hp Std.TreeMap.not_mem_emptyc henough
  refine ⟨new, net', map, before, after, hbelow new map net' hcopy, hgrown, hnew, ?_⟩
  exact fun child hchild hspans => hbefore.mem_of_spans (hchildren child hchild) hspans

/-! ## Copies as images -/

/-- Whether a node is copied together with all that it spans, each node once. -/
def CopiesOnce (net : Network) (top : Nat) : Prop :=
  ∃ new net' image, Edit.copyBelow top net = .ok new net' ∧
    Images net net' {id | net.Spans top id} image
      (fun kind => kind.withChildren (kind.children.map image)) ∧
    new = image top

theorem Copyable.copiesOnce (h : net.Copyable) (htop : top < net.size)
    (huntangled : net.Untangled top) : net.CopiesOnce top := by
  obtain ⟨new, net', map, before, after, hcopy, hgrown, hnew, -⟩ := exists_copyBelow_grown h htop
  have hsize : net'.size = net.size + (before ++ top :: after).length := hgrown.tracing.size_eq
  have hnodup := (hgrown.distinct fun i hi => List.mem_singleton.1 hi ▸ huntangled).1
  obtain ⟨image, himages, himage⟩ :=
    (hgrown.covers hnew).exists_images (hsize ▸ injOn_originOf_iff.2 hnodup)
  refine ⟨new, net', image, hcopy, himages, ?_⟩
  rw [← hnew.originOf_eq, himage new (hsize ▸ hnew.mem_Ico)]

/-- If a child leads back to a node, then that node is not copied once. -/
theorem CopiesOnce.not_spans (h : net.CopiesOnce top) (hnet : net.Copyable) (htop : top < net.size)
    {child : Nat} (hchild : net.Child top child) : ¬ net.Spans child top := by
  intro hspans
  obtain ⟨new, net', map, before, after, hcopy, hgrown, hnew, hback⟩ :=
    exists_copyBelow_grown hnet htop
  obtain ⟨new', net'', image, hcopy', himages, -⟩ := h
  cases hcopy.symm.trans hcopy'
  have hsize : net'.size = net.size + (before ++ top :: after).length := hgrown.tracing.size_eq
  have hinj := (hgrown.covers hnew).injOn_of_images himages
  rw [hsize] at hinj
  have hnodup := (List.nodup_append.1 (injOn_originOf_iff.1 hinj)).2.2
  exact hnodup top (hback child hchild hspans) top List.mem_cons_self rfl

/-- Where all ids lead to nodes, no edge is there twice and children make no cycle, a node is copied
with all that it spans, in whatever way edges lead.  Each of the nodes is copied once, and so are
all that can be copied by themselves, if and only if no child leads back to its parent. -/
theorem copyBelow_spec (h : net.Copyable) (htop : top < net.size) :
    (∃ new net' origin, Edit.copyBelow top net = .ok new net' ∧
      Covers net net' {id | net.Spans top id} origin ∧ new ∈ Set.Ico net.size net'.size ∧
      origin new = top) ∧
    ((∀ id, net.Spans top id → net.CopiesOnce id) ↔ net.Untangled top) := by
  refine ⟨?_, fun honce parent child hparent hchild => ?_, fun huntangled id hid => ?_⟩
  · obtain ⟨new, net', map, before, after, hcopy, hgrown, hnew, -⟩ := exists_copyBelow_grown h htop
    have hsize : net'.size = net.size + (before ++ top :: after).length := hgrown.tracing.size_eq
    exact ⟨new, net', _, hcopy, hgrown.covers hnew, hsize ▸ hnew.mem_Ico, hnew.originOf_eq⟩
  · exact (honce parent hparent).not_spans h (h.lt_size hparent htop) hchild
  · refine h.copiesOnce (h.lt_size hid htop) (huntangled.of_spans fun target htarget => ?_)
    exact hid.trans htarget

/-- Levels that no edge raises and every child lowers show that no child leads back. -/
theorem Untangled.of_level {level : Nat → Nat}
    (hchild : ∀ parent child, net.Child parent child → level child < level parent)
    (hedge : ∀ source target, net.Edge source target → level target ≤ level source) (top : Nat) :
    net.Untangled top := by
  have hspans : ∀ {i j}, net.Spans i j → level j ≤ level i := by
    intro i j h
    induction h with
    | refl => exact Nat.le_refl _
    | child h _ ih => exact Nat.le_trans ih (Nat.le_of_lt (hchild _ _ h))
    | edge h _ ih => exact Nat.le_trans ih (hedge _ _ h)
  intro parent child _ h hback
  exact Nat.not_lt.2 (hspans hback) (hchild parent child h)

/-- Two words lead to each other and a sequence to itself; both words and the sequence stand twice
below the last node. -/
theorem copyBelow_spec_of_shared_nodes :
    let net : Network := ⟨#[⟨.terminal "a", #[1]⟩, ⟨.terminal "b", #[0]⟩,
      ⟨.sequence [0, 1, 0], #[3, 2]⟩, ⟨.repetition 1 ⟨0, none⟩, #[]⟩,
      ⟨.alternation [2, 3, 2], #[0]⟩]⟩
    net.Copyable ∧ 4 < net.size ∧ net.Untangled 4 ∧ ∀ id, net.Spans 4 id → net.CopiesOnce id := by
  intro net
  have hchild : ∀ parent child, net.Child parent child →
      [0, 0, 2, 1, 3].getD child 0 < [0, 0, 2, 1, 3].getD parent 0 := forall_child (by decide)
  have hedge : ∀ source target, net.Edge source target →
      [0, 0, 2, 1, 3].getD target 0 ≤ [0, 0, 2, 1, 3].getD source 0 := forall_edge (by decide)
  have hnet : net.Copyable :=
    ⟨forall_edge (by decide), forall_child (by decide), ⟨_, hchild⟩,
      nodup_targets_of_lt (by decide)⟩
  have huntangled : net.Untangled 4 := .of_level hchild hedge 4
  exact ⟨hnet, by decide, huntangled, (copyBelow_spec hnet (by decide)).2.2 huntangled⟩

/-- The word of a sequence leads back to the sequence, which is copied twice. -/
theorem not_copiesOnce_of_edge_back :
    let net : Network := ⟨#[⟨.terminal "a", #[1]⟩, ⟨.sequence [0], #[]⟩]⟩
    net.Copyable ∧ 1 < net.size ∧ ¬ net.CopiesOnce 1 ∧
      ∃ net', Edit.copyBelow 1 net = .ok 4 net' ∧ net'.nodes.toList.drop 2 =
        [⟨.terminal "a", #[3]⟩, ⟨.sequence [2], #[]⟩, ⟨.sequence [2], #[]⟩] := by
  intro net
  have hnet : net.Copyable := ⟨forall_edge (by decide), forall_child (by decide),
    ⟨fun id => id, forall_child (by decide)⟩, nodup_targets_of_lt (by decide)⟩
  have hchild : net.Child 1 0 := mem_childrenOf.1 (by decide)
  have hback : net.Spans 0 1 := .edge (mem_targets.1 (by decide)) (.refl 1)
  refine ⟨hnet, by decide, fun honce => honce.not_spans hnet (by decide) hchild hback, ?_⟩
  obtain ⟨depth, hdepth, hbelow⟩ := Edit.exists_copyBelow_eq 1 net
  obtain ⟨depth, rfl⟩ : ∃ n, depth = n + 4 := ⟨depth - 4, by
    have : 9 ≤ depth := hdepth
    omega⟩
  exact ⟨_, hbelow 4 _ _ rfl, by decide +kernel⟩

end PhraseSearch.Network
