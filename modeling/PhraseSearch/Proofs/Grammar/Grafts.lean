import Mathlib.Data.List.Nodup
import PhraseSearch.Grammar.Grafts
import PhraseSearch.Proofs.Grammar.Resolution

/-!
# What grafts do to trees

Inlining keeps the trees of all rules separate, in every network on its way.  Each graft replaces the
references below one root, and changes no other tree.

    no node of a genuine tree is reached by two paths                  (Genuine.follow?_inj)
    rooted trees are separate                                          (Rooted.separate)
    a graft in the middle of a round                                   (replaces_inRound)
    all grafts of inlining                                             (performs_spec)
-/

namespace PhraseSearch

namespace Network

variable {net : Network} {depth id i : Nat} {p : Pattern} {path path' : List Nat}

/-! ## Paths in trees -/

theorem follow?_cons {slot : Nat} : net.follow? id (slot :: path) = some i ↔
    ∃ child, (net.childrenOf id)[slot]? = some child ∧ net.follow? child path = some i := by
  rw [follow?, childrenOf]
  cases net.kind? id with
  | none => simp
  | some kind => rw [Option.bind_some, Option.bind_eq_some_iff]

theorem mem_below_of_follow? (h : net.unfold depth id = some p)
    (hfollow : net.follow? id path = some i) : i ∈ net.below depth id := by
  induction path generalizing depth id p with
  | nil =>
    cases hfollow
    exact mem_below_self h
  | cons slot path ih =>
    obtain ⟨child, hchild, hrest⟩ := follow?_cons.1 hfollow
    cases depth with
    | zero => cases h
    | succ depth =>
      obtain ⟨k, ps, hk, hps, -⟩ := exists_unfold_child h
      have hmem : child ∈ net.childrenOf id := List.mem_of_getElem? hchild
      obtain ⟨q, hq⟩ := exists_of_mapM hps (childrenOf_eq hk ▸ hmem)
      exact List.mem_cons_of_mem _ (List.mem_flatMap.2 ⟨child, hmem, ih hq hrest⟩)

section

variable {slot slot' child child' : Nat} (h : net.Genuine (depth + 1) id p)
  (hchild : (net.childrenOf id)[slot]? = some child)

include h hchild

/-- Below a child there is a genuine tree, and the node itself is not in it. -/
theorem Genuine.exists_child : ∃ q, net.Genuine depth child q ∧ id ∉ net.below depth child := by
  obtain ⟨k, ps, hk, hps, -⟩ := exists_unfold_child h.unfold_eq
  obtain ⟨hid, hchildren⟩ := List.nodup_cons.1 h.nodup
  have hmem : child ∈ net.childrenOf id := List.mem_of_getElem? hchild
  obtain ⟨q, hq⟩ := exists_of_mapM hps (childrenOf_eq hk ▸ hmem)
  refine ⟨q, ⟨hq, (List.nodup_flatMap.1 hchildren).1 child hmem⟩, fun hself => hid ?_⟩
  exact List.mem_flatMap.2 ⟨child, hmem, hself⟩

/-- The trees below two children share no node. -/
theorem Genuine.slot_eq (hchild' : (net.childrenOf id)[slot']? = some child')
    (hi : i ∈ net.below depth child) (hi' : i ∈ net.below depth child') : slot = slot' := by
  obtain ⟨-, hdisjoint⟩ := List.nodup_flatMap.1 (List.nodup_cons.1 h.nodup).2
  have hpairs := List.pairwise_iff_getElem.1 hdisjoint
  obtain ⟨hslot, rfl⟩ := List.getElem?_eq_some_iff.1 hchild
  obtain ⟨hslot', rfl⟩ := List.getElem?_eq_some_iff.1 hchild'
  rcases Nat.lt_trichotomy slot slot' with hlt | heq | hlt
  · exact absurd hi' (hpairs slot slot' hslot hslot' hlt hi)
  · exact heq
  · exact absurd hi (hpairs slot' slot hslot' hslot hlt hi')

end

/-- No path leads from a node of a genuine tree back to it. -/
theorem Genuine.follow?_cons_ne {slot : Nat} (h : net.Genuine depth id p) :
    net.follow? id (slot :: path) ≠ some id := by
  intro hpath
  cases depth with
  | zero => cases h.unfold_eq
  | succ depth =>
    obtain ⟨child, hchild, hrest⟩ := follow?_cons.1 hpath
    obtain ⟨q, htree, hid⟩ := h.exists_child hchild
    exact hid (mem_below_of_follow? htree.unfold_eq hrest)

/-- No node of a genuine tree is reached by two paths. -/
theorem Genuine.follow?_inj (h : net.Genuine depth id p) (hpath : net.follow? id path = some i)
    (hpath' : net.follow? id path' = some i) : path = path' := by
  induction path generalizing depth id p path' with
  | nil =>
    obtain rfl : id = i := Option.some.inj hpath
    cases path' with
    | nil => rfl
    | cons slot' path' => exact absurd hpath' h.follow?_cons_ne
  | cons slot path ih =>
    cases path' with
    | nil =>
      obtain rfl : id = i := Option.some.inj hpath'
      exact absurd hpath h.follow?_cons_ne
    | cons slot' path' =>
      cases depth with
      | zero => cases h.unfold_eq
      | succ depth =>
        obtain ⟨child, hchild, hrest⟩ := follow?_cons.1 hpath
        obtain ⟨child', hchild', hrest'⟩ := follow?_cons.1 hpath'
        obtain ⟨q, htree, -⟩ := h.exists_child hchild
        obtain ⟨q', htree', -⟩ := h.exists_child hchild'
        obtain rfl : slot = slot' := h.slot_eq hchild hchild'
          (mem_below_of_follow? htree.unfold_eq hrest) (mem_below_of_follow? htree'.unfold_eq hrest')
        obtain rfl : child = child' := Option.some.inj (hchild.symm.trans hchild')
        rw [ih htree hrest hrest']

end Network

namespace Grammar

open Network Network.Edit Pattern

variable {net : Network} {depth : Nat} {trees : NameMap Nat}
  {roots : List (String × Nat)} {base pattern : String → Pattern}

/-! ## Separate trees -/

theorem Rooted.separate (h : Rooted net depth roots pattern) : Separate net roots where
  tree e he := ⟨pattern e.1, (h.tree e he).pattern?_eq⟩
  path e he e' he' path path' id hpath hpath' := by
    have hbelow := mem_below_of_follow? (h.tree e he).unfold_eq hpath
    have hbelow' := mem_below_of_follow? (h.tree e' he').unfold_eq hpath'
    obtain rfl : e = e' := by
      by_contra hne
      exact h.disjoint e he e' he' (fun hname => hne (eq_of_name_eq h.names he he' hname))
        id hbelow hbelow'
    exact ⟨rfl, (h.tree e he).follow?_inj hpath hpath'⟩

/-! ## One graft of a round -/

/-- The trees that a graft puts in are those that stand below their roots at the time. -/
theorem Rooted.scions_eq (h : Rooted net depth roots pattern) (hripe : Ripe trees roots pattern) :
    scions trees pattern = fun rule => (trees.get? rule).bind net.pattern? := by
  funext rule
  rw [scions]
  cases hrule : trees.get? rule with
  | none => rfl
  | some root =>
    rw [Option.map_some, Option.bind_some]
    exact (h.tree _ (hripe rule root hrule).1).pattern?_eq.symm

theorem part_succ {grafts : Nat} {name : String} {root : Nat} {changed : Bool} {net' : Network}
    (hall : graftAll (closedRoots net roots) ((splitRoots net roots).2.take grafts) net =
      .ok () (part roots grafts net))
    (hnext : (splitRoots net roots).2[grafts]? = some (name, root))
    (hgraft : graft root (closedRoots net roots) (part roots grafts net) = .ok changed net') :
    part roots (grafts + 1) net = net' := by
  have hlast : Gives (graftAll (closedRoots net roots) [(name, root)]) (part roots grafts net)
      fun _ out => out = net' := .bind ⟨changed, net', hgraft, gives_pure rfl⟩
  obtain ⟨_, _, hboth, rfl⟩ := gives_graftAll_append ⟨(), _, hall, hlast⟩
  refine part_eq ?_
  rw [List.take_add_one, hnext, Option.toList_some]
  exact hboth

/-- A graft in the middle of a round does what it should, and keeps trees separate. -/
theorem replaces_inRound (h : Tended net roots base depth pattern) {grafts : Nat} {name : String}
    {root : Nat} (hnext : (splitRoots net roots).2[grafts]? = some (name, root)) :
    Separate (part roots grafts net) roots ∧
      (Graft.inRound roots net grafts name root).Replaces roots ∧
      Separate (part roots (grafts + 1) net) roots := by
  obtain ⟨depth₁, pattern₁, hall, h₁, hripe, -⟩ := exists_part h grafts
  obtain ⟨hroot, hname⟩ := h.open_rest (List.mem_of_getElem? hnext)
  obtain ⟨changed, net₂, hgraft, ⟨depth₂, h₂⟩, hframe, hchanged⟩ :=
    gives_graft_tended h₁ hripe hroot hname
  obtain rfl := part_succ hall hnext hgraft
  have hothers : ∀ e ∈ roots, e.1 ≠ name → (part roots (grafts + 1) net).pattern? e.2 =
      (part roots grafts net).pattern? e.2 := by
    intro e he hne
    rw [(h₁.rooted.tree e he).pattern?_eq, (h₂.rooted.tree e he).pattern?_eq,
      Function.update_of_ne hne]
  refine ⟨h₁.rooted.separate, ⟨⟨pattern₁ name, changed, ?_, hgraft, ?_, ?_⟩, fun e he hne =>
    ⟨hothers e he hne, ?_⟩⟩, h₂.rooted.separate⟩
  · exact (h₁.rooted.tree _ hroot).pattern?_eq
  · have hown := (h₂.rooted.tree _ hroot).pattern?_eq
    rw [Function.update_self, h₁.rooted.scions_eq hripe] at hown
    exact hown
  · rw [hchanged, anyTree, List.any_eq_true]
    rfl
  · intro path id hfollow
    exact hframe e he hne id (mem_below_of_follow? (h₁.rooted.tree e he).unfold_eq hfollow)

/-! ## All grafts -/

/-- The induction is on the rounds that are left. -/
theorem Performs.replaces {known : Nat} {c : Graft} (hc : Performs roots known net c)
    (h : Tended net roots base depth pattern) :
    Separate c.before roots ∧ c.Replaces roots ∧ Separate c.after roots := by
  induction hc generalizing depth pattern with
  | now next more => exact replaces_inRound h next
  | later some more rest ih =>
    obtain ⟨depth', pattern', h', -⟩ := tended_round h
    exact ih h'

/-- However often a grammar is inlined, with success or without, the trees of its rules stay
separate, also in the middle of a round.  Each graft on the way replaces the references below one
root to names that have trees by these trees, tells whether there were any, and leaves all other
trees as they are. -/
theorem performs_spec {lines : List String} {g : Grammar} (h : ofLines lines = .ok g)
    (times : Nat) : (g.inlined times).roots = g.roots ∧
      Separate (g.inlined times).network g.roots ∧
      (∃ rest, RoundsTo g.roots 0 (g.inlined times).network
        ((g.inlined (times + 1)).network, rest)) ∧
      ∀ c, Performs g.roots 0 (g.inlined times).network c →
        Separate c.before g.roots ∧ c.Replaces g.roots ∧ Separate c.after g.roots := by
  obtain ⟨rules, -, rfl⟩ := exists_of_ofLines h
  obtain ⟨n, depth, pattern, hn, htended⟩ := exists_inlined_eq rules times
  obtain ⟨rest, -, -, -, hrounds, -⟩ := exists_inline_inlined rules times
  exact ⟨by rw [hn], htended.rooted.separate, ⟨rest, hrounds⟩, fun c hc => hc.replaces htended⟩

/-- Of two rules, one refers to the other twice. -/
theorem performs_spec_of_two_rules : ∃ g c, ofLines ["pair -> word word", "word -> <noun>"] = .ok g ∧
    Performs g.roots 0 (g.inlined 0).network c ∧ c.name = "pair" ∧ c.Replaces g.roots ∧
    Separate c.after g.roots := by
  have hsplit : ((ofLines ["pair -> word word", "word -> <noun>"]).map fun g =>
      splitRoots g.network g.roots) = .ok ([("word", 5)], [("pair", 3)]) := by
    decide +kernel
  cases h : ofLines ["pair -> word word", "word -> <noun>"] with
  | error fault =>
    rw [h] at hsplit
    cases hsplit
  | ok g =>
    rw [h] at hsplit
    have hroots : splitRoots (g.inlined 0).network g.roots = ([("word", 5)], [("pair", 3)]) :=
      Except.ok.inj hsplit
    have hperforms : Performs g.roots 0 (g.inlined 0).network
        (.inRound g.roots (g.inlined 0).network 0 "pair" 3) :=
      .now (by rw [hroots]; rfl) (by rw [hroots]; decide)
    obtain ⟨-, -, -, hgrafts⟩ := performs_spec h 0
    obtain ⟨-, hreplaces, hafter⟩ := hgrafts _ hperforms
    exact ⟨g, _, rfl, hperforms, rfl, hreplaces, hafter⟩

end Grammar

end PhraseSearch
