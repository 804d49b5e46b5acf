import PhraseSearch.Proofs.Grammar.Inlining

/-!
# Rounds keep closed rules

What is grafted, and onto which rules, is settled when a round begins.  A rule that is still to be
grafted onto has not been touched in the round, so it is open; closed rules are therefore left alone
by all that follows, whether they were closed before the round or have been closed in it.

    the rest of a round keeps what is closed in the middle of it       (keeps_part)
    whatever has been closed is kept from then on                      (keeps_progress)
-/

namespace PhraseSearch

namespace Network

variable {net net' : Network} {depth id i : Nat} {p : Pattern}

/-- Without edges, a node spans the nodes of its tree. -/
theorem Spans.mem_below (hspans : net.Spans id i) (hbare : net.Bare)
    (h : net.unfold depth id = some p) : i ∈ net.below depth id := by
  induction hspans generalizing depth p with
  | refl => exact mem_below_self h
  | child hchild _ ih =>
    cases depth with
    | zero => cases h
    | succ depth =>
      obtain ⟨k, ps, hk, hps, -⟩ := exists_unfold_child h
      obtain ⟨node, hnode, hmem⟩ := hchild
      have hkind : node.kind = k := by
        rw [kind?, hnode] at hk
        exact Option.some.inj hk
      rw [hkind] at hmem
      obtain ⟨q, hq⟩ := exists_of_mapM hps hmem
      rw [Network.below, childrenOf_eq hk]
      exact List.mem_cons_of_mem _ (List.mem_flatMap.2 ⟨_, hmem, ih hq⟩)
  | @edge source _ _ hedge =>
    rw [← mem_targets, hbare source] at hedge
    cases hedge

theorem spans_of_mem_below (hi : i ∈ net.below depth id) : net.Spans id i := by
  induction depth generalizing id with
  | zero => cases hi
  | succ depth ih =>
    rcases List.mem_cons.1 hi with rfl | hi
    · exact .refl i
    · obtain ⟨child, hchild, hi⟩ := List.mem_flatMap.1 hi
      refine .child ?_ (ih hi)
      rw [childrenOf, kind?] at hchild
      cases hnode : net.node? id with
      | none =>
        rw [hnode] at hchild
        cases hchild
      | some node =>
        rw [hnode] at hchild
        exact ⟨node, hnode, hchild⟩

/-- If what a node spans is the same, it spans the same. -/
theorem Spans.congr (hsame : ∀ j, net.Spans id j → net'.node? j = net.node? j)
    (hspans : net.Spans id i) : net'.Spans id i := by
  induction hspans with
  | refl id => exact .refl id
  | @child source _ _ hchild _ ih =>
    obtain ⟨node, hnode, hmem⟩ := hchild
    refine .child ⟨node, ?_, hmem⟩ (ih fun j hj => hsame j (.child ⟨node, hnode, hmem⟩ hj))
    rw [hsame source (.refl source), hnode]
  | @edge source _ _ hedge _ ih =>
    obtain ⟨node, hnode, hmem⟩ := hedge
    refine .edge ⟨node, ?_, hmem⟩ (ih fun j hj => hsame j (.edge ⟨node, hnode, hmem⟩ hj))
    rw [hsame source (.refl source), hnode]

end Network

namespace Grammar

open Network Network.Edit Pattern

variable {net net' net'' : Network} {depth : Nat} {trees : NameMap Nat}
  {roots others : List (String × Nat)} {base pattern : String → Pattern}

/-! ## What is kept -/

theorem Keeps.refl (roots : List (String × Nat)) (net : Network) : Keeps roots net net :=
  fun _ _ _ _ _ => rfl

theorem Tended.keeps (h : Tended net roots base depth pattern)
    (hsame : ∀ e ∈ roots, (pattern e.1).references = [] →
      ∀ i ∈ net.below depth e.2, net'.node? i = net.node? i) : Keeps roots net net' := by
  intro e he hclosed id hspans
  exact hsame e he ((h.isClosedRoot_iff he).1 hclosed) id
    (hspans.mem_below h.rooted.bare (h.rooted.tree e he).unfold_eq)

/-- What has been kept may be kept further: what is closed stays closed. -/
theorem Keeps.trans (hkeeps : Keeps roots net net') (hkeeps' : Keeps roots net' net'')
    (h : Tended net roots base depth pattern) {depth' : Nat} {pattern' : String → Pattern}
    (h' : Tended net' roots base depth' pattern') : Keeps roots net net'' := by
  intro e he hclosed id hspans
  have hsame : ∀ i, net.Spans e.2 i → net'.node? i = net.node? i := hkeeps e he hclosed
  have htree : net'.Genuine depth e.2 (pattern e.1) :=
    (h.rooted.tree e he).congr fun i hi => kind?_congr (hsame i (spans_of_mem_below hi))
  have hpattern : pattern' e.1 = pattern e.1 :=
    Option.some.inj ((h'.rooted.tree e he).pattern?_eq.symm.trans htree.pattern?_eq)
  have hclosed' : net'.isClosedRoot e.2 = true := by
    rw [h'.isClosedRoot_iff he, hpattern]
    exact (h.isClosedRoot_iff he).1 hclosed
  rw [hkeeps' e he hclosed' id (hspans.congr hsame), hsame id hspans]

/-! ## Parts of a round -/

theorem nodup_rest (hnames : (roots.map Prod.fst).Nodup) (net : Network) :
    (splitRoots net roots).2.Nodup := by
  rw [splitRoots_eq]
  exact (List.Nodup.of_map _ hnames).filter _

theorem part_of_length_le {grafts : Nat} (h : (splitRoots net roots).2.length ≤ grafts) :
    part roots grafts net = round roots net := by
  rw [part, round, List.take_of_length_le h]

theorem part_zero (roots : List (String × Nat)) (net : Network) : part roots 0 net = net := rfl

theorem gives_graftAll_append {rest : List (String × Nat)} {post : Unit → Network → Prop}
    (h : Gives (graftAll trees others) net fun _ mid => Gives (graftAll trees rest) mid post) :
    Gives (graftAll trees (others ++ rest)) net post := by
  induction others generalizing net with
  | nil =>
    obtain ⟨_, mid, hmid, h⟩ := h
    cases hmid
    exact h
  | cons first others ih =>
    obtain ⟨_, mid, hmid, h⟩ := h
    obtain ⟨changed, first, hfirst, hothers⟩ := exists_of_bind_eq_ok hmid
    exact .bind ⟨changed, first, hfirst, ih ⟨_, mid, hothers, h⟩⟩

theorem part_eq {grafts : Nat} {net' : Network} (h : graftAll (closedRoots net roots)
    ((splitRoots net roots).2.take grafts) net = .ok () net') : part roots grafts net = net' := by
  rw [part, graftedNetwork, ← closedRoots, h]

/-- The rules that have not been grafted onto yet are as they were when the round began, and so are
the trees that are grafted. -/
theorem exists_part (h : Tended net roots base depth pattern) (grafts : Nat) :
    ∃ depth' pattern', graftAll (closedRoots net roots) ((splitRoots net roots).2.take grafts) net =
        .ok () (part roots grafts net) ∧
      Tended (part roots grafts net) roots base depth' pattern' ∧
      Ripe (closedRoots net roots) roots pattern' ∧
      ∀ e ∈ roots, e ∉ (splitRoots net roots).2.take grafts → pattern' e.1 = pattern e.1 := by
  have htake : ∀ e ∈ (splitRoots net roots).2.take grafts, e ∈ (splitRoots net roots).2 :=
    fun _ => List.mem_of_mem_take
  obtain ⟨_, mid, hmid, depth', pattern', h', hsame, -⟩ :=
    gives_graftAll_tended h h.ripe_closedRoots fun e he => h.open_rest (htake e he)
  obtain rfl : part roots grafts net = mid := part_eq hmid
  refine ⟨depth', pattern', hmid, h', fun rule root hrule => ?_, fun e he hnot => (hsame e he hnot).1⟩
  obtain ⟨hroot, hclosed⟩ := h.ripe_closedRoots rule root hrule
  refine ⟨hroot, ?_⟩
  rw [(hsame _ hroot fun hmem => ?_).1, hclosed]
  exact (h.mem_rest.1 (htake _ hmem)).2 hclosed

theorem tended_part (h : Tended net roots base depth pattern) (grafts : Nat) :
    ∃ depth' pattern', Tended (part roots grafts net) roots base depth' pattern' := by
  obtain ⟨depth', pattern', -, h', -⟩ := exists_part h grafts
  exact ⟨depth', pattern', h'⟩

/-- What is closed in the middle of a round is kept to its end: the rules that remain to be grafted
onto are as they were when the round began, and were open then. -/
theorem keeps_part (h : Tended net roots base depth pattern) {grafts grafts' : Nat}
    (hle : grafts ≤ grafts') : Keeps roots (part roots grafts net) (part roots grafts' net) := by
  obtain ⟨more, rfl⟩ := Nat.exists_eq_add_of_le hle
  have hdrop : ∀ e ∈ ((splitRoots net roots).2.drop grafts).take more,
      e ∈ (splitRoots net roots).2 ∧ e ∉ (splitRoots net roots).2.take grafts := by
    intro e he
    have hmem := List.mem_of_mem_take he
    refine ⟨List.mem_of_mem_drop hmem, fun htake => ?_⟩
    have hnodup := nodup_rest h.rooted.names net
    rw [← List.take_append_drop grafts (splitRoots net roots).2] at hnodup
    exact List.disjoint_of_nodup_append hnodup htake hmem
  obtain ⟨depth₁, pattern₁, hmid, h₁, hripe, hpattern⟩ := exists_part h grafts
  obtain ⟨_, net', hgraft, depth₂, pattern₂, h₂, hsame₂, -⟩ :=
    gives_graftAll_tended h₁ hripe fun e he => h.open_rest (hdrop e he).1
  have hboth : part roots (grafts + more) net = net' := by
    have hrest : Gives (graftAll (closedRoots net roots)
        (((splitRoots net roots).2.drop grafts).take more)) (part roots grafts net)
          fun _ out => out = net' :=
      ⟨(), net', hgraft, rfl⟩
    obtain ⟨_, _, hall, rfl⟩ := gives_graftAll_append ⟨(), _, hmid, hrest⟩
    refine part_eq ?_
    rw [List.take_add]
    exact hall
  rw [hboth]
  refine h₁.keeps fun e he hclosed => (hsame₂ e he fun hmem => ?_).2
  obtain ⟨hrest, hnot⟩ := hdrop e hmem
  rw [hpattern e he hnot] at hclosed
  exact (h.mem_rest.1 hrest).2 hclosed

/-! ## Rounds -/

theorem keeps_round (h : Tended net roots base depth pattern) :
    Keeps roots net (round roots net) := by
  have hkeeps := keeps_part h (Nat.zero_le (splitRoots net roots).2.length)
  rwa [part_zero, part_of_length_le (Nat.le_refl _)] at hkeeps

theorem tended_iterate (h : Tended net roots base depth pattern) (rounds : Nat) :
    ∃ depth' pattern', Tended ((round roots)^[rounds] net) roots base depth' pattern' := by
  induction rounds with
  | zero => exact ⟨depth, pattern, h⟩
  | succ rounds ih =>
    obtain ⟨depth', pattern', h'⟩ := ih
    obtain ⟨depth'', pattern'', h'', -⟩ := tended_round h'
    rw [Function.iterate_succ_apply']
    exact ⟨depth'', pattern'', h''⟩

theorem keeps_iterate (h : Tended net roots base depth pattern) (rounds : Nat) :
    Keeps roots net ((round roots)^[rounds] net) := by
  induction rounds with
  | zero => exact .refl roots net
  | succ rounds ih =>
    obtain ⟨depth', pattern', h'⟩ := tended_iterate h rounds
    rw [Function.iterate_succ_apply']
    exact ih.trans (keeps_round h') h h'

/-- Whatever is closed after some rounds and some grafts of the next is kept from then on. -/
theorem keeps_progress {g : Grammar} (h : Tended g.network g.roots base depth pattern)
    {rounds rounds' grafts grafts' : Nat}
    (hlater : rounds < rounds' ∨ rounds = rounds' ∧ grafts ≤ grafts') :
    Keeps g.roots (g.progress rounds grafts) (g.progress rounds' grafts') := by
  obtain ⟨depth₁, pattern₁, h₁⟩ := tended_iterate h rounds
  rcases hlater with hlt | ⟨rfl, hle⟩
  · obtain ⟨more, rfl⟩ := Nat.exists_eq_add_of_lt hlt
    obtain ⟨depth₂, pattern₂, h₂⟩ := tended_part h₁ grafts
    obtain ⟨depth₃, pattern₃, h₃⟩ := tended_iterate h (rounds + 1)
    obtain ⟨depth₄, pattern₄, h₄⟩ := tended_iterate h (rounds + more + 1)
    -- to the end of this round, through all rounds between, and into the last one
    have hround : Keeps g.roots (g.progress rounds grafts)
        ((round g.roots)^[rounds + 1] g.network) := by
      rw [Function.iterate_succ_apply', ← part_of_length_le (Nat.le_max_right grafts _)]
      exact keeps_part h₁ (Nat.le_max_left _ _)
    have hbetween : Keeps g.roots ((round g.roots)^[rounds + 1] g.network)
        ((round g.roots)^[rounds + more + 1] g.network) := by
      have hiterate := keeps_iterate h₃ more
      rwa [← Function.iterate_add_apply, ← Nat.add_assoc, Nat.add_comm more rounds] at hiterate
    have hlast := keeps_part h₄ (Nat.zero_le grafts')
    exact (hround.trans hbetween h₂ h₃).trans hlast h₂ h₄
  · exact keeps_part h₁ hle

end Grammar

end PhraseSearch
