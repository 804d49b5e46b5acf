import Mathlib.Logic.Function.Iterate
import PhraseSearch.Grammar.Rounds
import PhraseSearch.Proofs.Grammar.Roots
import PhraseSearch.Proofs.Pattern.Expansion

/-!
# What inlining keeps

Whatever has been grafted, the tree of a name is on its way to the expansion of the name; `Tended`
says so.  A graft keeps it, and so does a round, which leaves the closed trees alone and puts them
in the place of all references to them.  In the end no open rule refers to a closed one any more.

    one graft keeps the trees on their way                             (gives_graft_tended)
    a round keeps them, and closed trees as they are                   (tended_round)
    inlining is a number of rounds, until nothing more can be done     (inlineRounds_spec)
    inlined rules are closed and have their languages                  (closed_of_inline)
-/

namespace PhraseSearch

namespace Grammar

open Network Network.Edit Pattern

/-- Whether the trees below roots are on their way to the expansions of their names. -/
structure Tended (net : Network) (roots : List (String × Nat)) (base : String → Pattern)
    (depth : Nat) (pattern : String → Pattern) : Prop where
  rooted : Rooted net depth roots pattern
  expanding : ∀ e ∈ roots, Expanding base (roots.map Prod.fst) e.1 (pattern e.1)

/-- Whether the trees to be grafted are closed. -/
def Ripe (trees : NameMap Nat) (roots : List (String × Nat)) (pattern : String → Pattern) : Prop :=
  ∀ rule root, trees.get? rule = some root →
    (rule, root) ∈ roots ∧ (pattern rule).references = []

/-- The patterns that trees to be grafted put in the place of references. -/
def scions (trees : NameMap Nat) (pattern : String → Pattern) (rule : String) : Option Pattern :=
  (trees.get? rule).map fun _ => pattern rule

variable {net : Network} {depth : Nat} {trees : NameMap Nat} {roots others : List (String × Nat)}
  {base pattern : String → Pattern} {name : String} {root : Nat}

/-! ## One graft -/

theorem exists_pattern_alternation {ids : List Nat} {p : Pattern}
    (hkind : net.kind? root = some (.alternation ids)) (h : net.Genuine depth root p) :
    ∃ ps, p = .alternation ps := by
  cases depth with
  | zero => cases h.unfold_eq
  | succ depth =>
    obtain ⟨k, ps, hk, -, -, hp⟩ := h.exists_children
    obtain rfl : .alternation ids = k := Option.some.inj (hkind.symm.trans hk)
    exact ⟨ps, (Option.some.inj hp).symm⟩

theorem exists_kind_alternation {ps : List Pattern}
    (h : net.Genuine depth root (.alternation ps)) :
    ∃ ids, net.kind? root = some (.alternation ids) := by
  cases depth with
  | zero => cases h.unfold_eq
  | succ depth =>
    obtain ⟨k, qs, hk, -, -, hp⟩ := h.exists_children
    cases k with
    | alternation ids => exact ⟨ids, hk⟩
    | repetition inner bounds =>
      match qs with
      | [] => cases hp
      | [_] => cases hp
      | _ :: _ :: _ => cases hp
    | _ => cases hp

theorem ne_of_get? (hname : trees.get? name = none) {rule : String} {root : Nat}
    (hrule : trees.get? rule = some root) : rule ≠ name := by
  rintro rfl
  rw [hname] at hrule
  cases hrule

/-- The trees that are grafted have nothing in common with the tree of another name. -/
theorem Rooted.stock (h : Rooted net depth roots pattern) (hripe : Ripe trees roots pattern)
    (hroot : (name, root) ∈ roots) (hname : trees.get? name = none) :
    Stock net trees (scions trees pattern) (net.below depth root) where
  tree rule root' hrule := by
    obtain ⟨hmem, -⟩ := hripe rule root' hrule
    refine ⟨depth, pattern rule, ?_, h.tree _ hmem,
      h.disjoint _ hmem _ hroot (ne_of_get? hname hrule)⟩
    rw [scions, hrule]
    rfl
  none rule hrule := by
    rw [scions, hrule]
    rfl

theorem Tended.expands (h : Tended net roots base depth pattern) {e : String × Nat} (he : e ∈ roots)
    (hclosed : (pattern e.1).references = []) :
    Expands base (roots.map Prod.fst) e.1 (pattern e.1) :=
  (h.expanding e he).expands (List.mem_map_of_mem he) hclosed

theorem Tended.expands_scions (h : Tended net roots base depth pattern)
    (hripe : Ripe trees roots pattern) (rule : String) (q : Pattern)
    (hq : scions trees pattern rule = some q) : Expands base (roots.map Prod.fst) rule q := by
  obtain ⟨root, hrule, rfl⟩ := Option.map_eq_some_iff.1 hq
  obtain ⟨hmem, hclosed⟩ := hripe rule root hrule
  exact h.expands hmem hclosed

theorem node?_eq_of_bare {net' : Network} (h : net.Bare) (h' : net'.Bare) {id : Nat}
    (hkind : net'.kind? id = net.kind? id) : net'.node? id = net.node? id := by
  have hnode : ∀ {x : Network} {node : Node}, x.Bare → x.node? id = some node →
      node = ⟨node.kind, #[]⟩ := by
    intro x node hx hnode
    have hedges := hx id
    rw [targets_of_node? hnode, Array.toList_eq_nil_iff] at hedges
    rw [← hedges]
  rw [kind?, kind?] at hkind
  cases hold : net.node? id with
  | none =>
    rw [hold] at hkind
    exact Option.map_eq_none_iff.1 hkind
  | some node =>
    rw [hold] at hkind
    obtain ⟨node', hnew, heq⟩ := Option.map_eq_some_iff.1 hkind
    rw [hnew, hnode h hold, hnode h' hnew, heq]

/-- Grafting below the root of an open rule keeps all trees on their way, and all other trees. -/
theorem gives_graft_tended (h : Tended net roots base depth pattern)
    (hripe : Ripe trees roots pattern) (hroot : (name, root) ∈ roots)
    (hname : trees.get? name = none) :
    Gives (graft root trees) net fun changed net' => (∃ depth', Tended net' roots base depth'
        (Function.update pattern name ((pattern name).replace (scions trees pattern)))) ∧
      (∀ e ∈ roots, e.1 ≠ name → ∀ i ∈ net.below depth e.2, net'.node? i = net.node? i) ∧
      changed = anyTree trees (pattern name).references := by
  have htree := h.rooted.tree _ hroot
  obtain ⟨ids, hkind⟩ := h.rooted.alternation _ hroot
  obtain ⟨ps, hps⟩ := exists_pattern_alternation hkind htree
  refine (gives_graft htree h.rooted.bare (h.rooted.stock hripe hroot hname) hkind rfl).mono ?_
  rintro changed net' ⟨hgrafted, hchanged⟩
  have halternation : ∃ ids, net'.kind? root = some (.alternation ids) := by
    obtain ⟨depth', hone, -⟩ := hgrafted.tree
    change pattern name = _ at hps
    rw [hps] at hone
    exact exists_kind_alternation hone
  obtain ⟨depth', hrooted⟩ := h.rooted.replace hroot hgrafted halternation
    (Function.update_self name _ pattern) fun other hne => Function.update_of_ne hne _ pattern
  refine ⟨⟨depth', hrooted, fun e he => ?_⟩, fun e he hne i hi => ?_, hchanged⟩
  · by_cases heq : e.1 = name
    · rw [heq, Function.update_self]
      exact (h.expanding _ hroot).replace (h.expands_scions hripe)
    · rw [Function.update_of_ne heq]
      exact h.expanding e he
  · refine node?_eq_of_bare h.rooted.bare hgrafted.bare (hgrafted.same i ?_ ?_)
    · exact lt_size_of_mem_below (h.rooted.tree e he).unfold_eq hi
    · exact h.rooted.disjoint e he _ hroot hne i hi

/-! ## One round -/

theorem Tended.below_eq (h : Tended net roots base depth pattern) {net' : Network} {depth' : Nat}
    {pattern' : String → Pattern} (h' : Tended net' roots base depth' pattern') {e : String × Nat}
    (he : e ∈ roots) (hsame : ∀ i ∈ net.below depth e.2, net'.node? i = net.node? i) :
    net'.below depth' e.2 = net.below depth e.2 := by
  have htree := h.rooted.tree e he
  have hkinds : ∀ i ∈ net.below depth e.2, net'.kind? i = net.kind? i :=
    fun i hi => kind?_congr (hsame i hi)
  rw [Network.below_eq (h'.rooted.tree e he).unfold_eq (htree.congr hkinds).unfold_eq,
    (unfold_congr hkinds).2]

theorem gives_graftAll_tended (h : Tended net roots base depth pattern)
    (hripe : Ripe trees roots pattern) (hothers : ∀ e ∈ others, e ∈ roots ∧ trees.get? e.1 = none) :
    Gives (graftAll trees others) net fun _ net' => ∃ depth' pattern',
      Tended net' roots base depth' pattern' ∧
        (∀ e ∈ roots, e ∉ others → pattern' e.1 = pattern e.1 ∧
          ∀ i ∈ net.below depth e.2, net'.node? i = net.node? i) ∧
        ∀ e ∈ others, ∀ r ∈ (pattern' e.1).references, trees.get? r = none := by
  induction others generalizing net depth pattern with
  | nil => exact gives_pure ⟨depth, pattern, h, fun _ _ _ => ⟨rfl, fun _ _ => rfl⟩, nofun⟩
  | cons first others ih =>
    obtain ⟨hroot, hname⟩ := hothers first List.mem_cons_self
    refine .bind ((gives_graft_tended h hripe hroot hname).mono ?_)
    rintro _ net₁ ⟨⟨depth₁, h₁⟩, hframe, -⟩
    have hripe₁ : Ripe trees roots
        (Function.update pattern first.1 ((pattern first.1).replace (scions trees pattern))) := by
      intro rule root hrule
      rw [Function.update_of_ne (ne_of_get? hname hrule)]
      exact hripe rule root hrule
    refine (ih h₁ hripe₁ fun e he => hothers e (List.mem_cons_of_mem _ he)).mono ?_
    rintro _ net₂ ⟨depth₂, pattern₂, h₂, hsame, hopen⟩
    refine ⟨depth₂, pattern₂, h₂, fun e he hnot => ?_, fun e he => ?_⟩
    · rw [List.mem_cons, not_or] at hnot
      have hne : e.1 ≠ first.1 := fun heq => hnot.1 (eq_of_name_eq h.rooted.names he hroot heq)
      obtain ⟨hpattern, hnodes⟩ := hsame e he hnot.2
      rw [h.below_eq h₁ he (hframe e he hne)] at hnodes
      refine ⟨hpattern.trans (Function.update_of_ne hne _ pattern), fun i hi => ?_⟩
      exact (hnodes i hi).trans (hframe e he hne i hi)
    · by_cases hmem : e ∈ others
      · exact hopen e hmem
      · obtain rfl := (List.mem_cons.1 he).resolve_right hmem
        intro r hr
        rw [(hsame e hroot hmem).1, Function.update_self, mem_references_replace fun rule q hq =>
          (h.expands_scions hripe rule q hq).references_eq_nil] at hr
        exact Option.map_eq_none_iff.1 hr.2

/-! ## Closed and open rules -/

theorem Tended.isClosedRoot_iff (h : Tended net roots base depth pattern) {e : String × Nat}
    (he : e ∈ roots) : net.isClosedRoot e.2 = true ↔ (pattern e.1).references = [] := by
  rw [isClosedRoot, (h.rooted.tree e he).isClosed_eq]
  exact List.isEmpty_iff

theorem splitRoots_eq (net : Network) (roots : List (String × Nat)) : splitRoots net roots =
    (roots.filter fun e => net.isClosedRoot e.2, roots.filter fun e => !net.isClosedRoot e.2) := by
  rw [splitRoots, List.partition_eq_filter_filter]
  rfl

theorem get?_addRoots_of_not_mem (trees : NameMap Nat) {roots : List (String × Nat)}
    (h : name ∉ roots.map Prod.fst) : (addRoots trees roots).get? name = trees.get? name := by
  induction roots generalizing trees with
  | nil => rfl
  | cons e roots ih =>
    rw [List.map_cons, List.mem_cons, not_or] at h
    rw [addRoots, List.foldl_cons]
    refine (ih _ h.2).trans ?_
    rw [NameMap.get?_insert, if_neg h.1]

theorem get?_addRoots_of_mem (trees : NameMap Nat) {roots : List (String × Nat)}
    (hnames : (roots.map Prod.fst).Nodup) (h : (name, root) ∈ roots) :
    (addRoots trees roots).get? name = some root := by
  induction roots generalizing trees with
  | nil => cases h
  | cons e roots ih =>
    obtain ⟨hfirst, hrest⟩ := List.nodup_cons.1 hnames
    rw [addRoots, List.foldl_cons]
    rcases List.mem_cons.1 h with rfl | h
    · refine (get?_addRoots_of_not_mem _ hfirst).trans ?_
      rw [NameMap.get?_insert, if_pos rfl]
    · exact ih _ hrest h

/-- Roots by name, if no name has two. -/
theorem get?_addRoots_eq_some_iff (hnames : (roots.map Prod.fst).Nodup) :
    (addRoots .empty roots).get? name = some root ↔ (name, root) ∈ roots := by
  refine ⟨fun h => ?_, get?_addRoots_of_mem _ hnames⟩
  by_cases hmem : name ∈ roots.map Prod.fst
  · obtain ⟨⟨_, root'⟩, he, rfl⟩ := List.mem_map.1 hmem
    rw [get?_addRoots_of_mem _ hnames he] at h
    cases h
    exact he
  · rw [get?_addRoots_of_not_mem _ hmem] at h
    cases h

/-- The trees that a round grafts. -/
def closedRoots (net : Network) (roots : List (String × Nat)) : NameMap Nat :=
  addRoots .empty (splitRoots net roots).1

theorem Tended.get?_closedRoots (h : Tended net roots base depth pattern) :
    (closedRoots net roots).get? name = some root ↔
      (name, root) ∈ roots ∧ (pattern name).references = [] := by
  rw [closedRoots, splitRoots_eq]
  rw [get?_addRoots_eq_some_iff (h.rooted.names.sublist (List.filter_sublist.map Prod.fst)),
    List.mem_filter]
  exact and_congr_right fun he => h.isClosedRoot_iff he

theorem Tended.ripe_closedRoots (h : Tended net roots base depth pattern) :
    Ripe (closedRoots net roots) roots pattern :=
  fun _ _ hrule => h.get?_closedRoots.1 hrule

theorem Tended.get?_closedRoots_eq_none (h : Tended net roots base depth pattern)
    {e : String × Nat} (he : e ∈ roots) :
    (closedRoots net roots).get? e.1 = none ↔ (pattern e.1).references ≠ [] := by
  constructor
  · intro hnone hclosed
    rw [h.get?_closedRoots.2 ⟨he, hclosed⟩] at hnone
    cases hnone
  · intro hopen
    cases hsome : (closedRoots net roots).get? e.1 with
    | none => rfl
    | some root => exact absurd (h.get?_closedRoots.1 hsome).2 hopen

theorem Tended.mem_rest (h : Tended net roots base depth pattern) {e : String × Nat} :
    e ∈ (splitRoots net roots).2 ↔ e ∈ roots ∧ (pattern e.1).references ≠ [] := by
  rw [splitRoots_eq, List.mem_filter, Bool.not_eq_true', ← Bool.not_eq_true]
  exact and_congr_right fun he => not_congr (h.isClosedRoot_iff he)

/-- What a round grafts onto has no tree among those that are grafted. -/
theorem Tended.open_rest (h : Tended net roots base depth pattern) {e : String × Nat}
    (he : e ∈ (splitRoots net roots).2) : e ∈ roots ∧ (closedRoots net roots).get? e.1 = none :=
  ⟨(h.mem_rest.1 he).1, (h.get?_closedRoots_eq_none (h.mem_rest.1 he).1).2 (h.mem_rest.1 he).2⟩

/-- A round keeps all trees on their way, and leaves closed trees alone.  After it no open rule
refers to one that was closed before. -/
theorem tended_round (h : Tended net roots base depth pattern) : ∃ depth' pattern',
    Tended (round roots net) roots base depth' pattern' ∧
      (∀ e ∈ roots, (pattern e.1).references = [] → pattern' e.1 = pattern e.1 ∧
        ∀ i ∈ net.below depth e.2, (round roots net).node? i = net.node? i) ∧
      ∀ e ∈ roots, (pattern e.1).references ≠ [] →
        ∀ r ∈ (pattern' e.1).references, (closedRoots net roots).get? r = none := by
  obtain ⟨_, net', hgraft, depth', pattern', h', hsame, hopen⟩ :=
    gives_graftAll_tended h h.ripe_closedRoots fun e he => h.open_rest he
  have hround : round roots net = net' := by
    rw [round, graftedNetwork]
    rw [closedRoots] at hgraft
    rw [hgraft]
  rw [hround]
  refine ⟨depth', pattern', h', fun e he hclosed => hsame e he fun hmem => ?_, fun e he hne => ?_⟩
  · exact (h.mem_rest.1 hmem).2 hclosed
  · exact hopen e (h.mem_rest.2 ⟨he, hne⟩)

/-! ## All rounds -/

/-- What holds between two rounds: there are trees for the names that are not among the others, and
no other name refers to one that has a tree. -/
structure Underway (net : Network) (trees : NameMap Nat) (roots others : List (String × Nat))
    (base : String → Pattern) (depth : Nat) (pattern : String → Pattern) : Prop where
  tended : Tended net roots base depth pattern
  ripe : Ripe trees roots pattern
  others_eq : others = roots.filter fun e => (trees.get? e.1).isNone
  away : ∀ e ∈ others, ∀ r ∈ (pattern e.1).references, trees.get? r = none

theorem Tended.underway (h : Tended net roots base depth pattern) :
    Underway net .empty roots roots base depth pattern where
  tended := h
  ripe := nofun
  others_eq := by simp
  away := fun _ _ _ _ => rfl

variable {closed rest : List (String × Nat)}

/-- The others that stay open are all roots that are. -/
theorem Underway.rest_eq (h : Underway net trees roots others base depth pattern)
    (hsplit : splitRoots net others = (closed, rest)) : rest = (splitRoots net roots).2 := by
  rw [splitRoots_eq, Prod.mk.injEq] at hsplit
  rw [← hsplit.2, h.others_eq, List.filter_filter, splitRoots_eq]
  refine List.filter_congr fun e he => ?_
  cases htree : trees.get? e.1 with
  | none => simp
  | some root =>
    have hclosed : net.isClosedRoot e.2 = true :=
      (h.tended.isClosedRoot_iff he).2 (h.ripe _ _ htree).2
    simp [hclosed]

/-- With the others that are closed, all closed roots have their trees. -/
theorem Underway.addRoots_eq (h : Underway net trees roots others base depth pattern)
    (hsplit : splitRoots net others = (closed, rest)) :
    addRoots trees closed = closedRoots net roots := by
  have hmem : ∀ e, e ∈ closed ↔
      e ∈ roots ∧ trees.get? e.1 = none ∧ (pattern e.1).references = [] := by
    intro e
    rw [splitRoots_eq, Prod.mk.injEq] at hsplit
    rw [← hsplit.1, h.others_eq, List.mem_filter, List.mem_filter, Option.isNone_iff_eq_none,
      and_assoc]
    exact and_congr_right fun he => and_congr_right fun _ => h.tended.isClosedRoot_iff he
  have hnames : (closed.map Prod.fst).Nodup := by
    rw [splitRoots_eq, Prod.mk.injEq] at hsplit
    rw [← hsplit.1, h.others_eq]
    exact h.tended.rooted.names.sublist
      ((List.filter_sublist.trans List.filter_sublist).map Prod.fst)
  refine NameMap.ext_get? fun name => Option.ext fun root => ?_
  rw [h.tended.get?_closedRoots]
  by_cases hin : name ∈ closed.map Prod.fst
  · obtain ⟨⟨_, root'⟩, he, rfl⟩ := List.mem_map.1 hin
    obtain ⟨hroot, -, hclosed⟩ := (hmem _).1 he
    rw [get?_addRoots_of_mem _ hnames he]
    constructor
    · rintro ⟨⟩
      exact ⟨hroot, hclosed⟩
    · rintro ⟨hroot', -⟩
      cases eq_of_name_eq h.tended.rooted.names hroot hroot' rfl
      rfl
  · rw [get?_addRoots_of_not_mem _ hin]
    refine ⟨h.ripe name root, fun ⟨hroot, hclosed⟩ => ?_⟩
    cases htree : trees.get? name with
    | none =>
      exact absurd (List.mem_map.2 ⟨_, (hmem (name, root)).2 ⟨hroot, htree, hclosed⟩, rfl⟩) hin
    | some root' =>
      cases eq_of_name_eq h.tended.rooted.names hroot (h.ripe _ _ htree).1 rfl
      rfl

/-- A round goes on with the trees that it has grafted, and the roots that it has found open. -/
theorem Tended.underway_round (h : Tended net roots base depth pattern) : ∃ depth' pattern',
    Underway (round roots net) (closedRoots net roots) roots (splitRoots net roots).2 base depth'
      pattern' := by
  obtain ⟨depth', pattern', h', hsame, haway⟩ := tended_round h
  have hopen : ∀ e ∈ roots, net.isClosedRoot e.2 = false ↔
      (closedRoots net roots).get? e.1 = none := by
    intro e he
    rw [h.get?_closedRoots_eq_none he, ← Bool.not_eq_true]
    exact not_congr (h.isClosedRoot_iff he)
  refine ⟨depth', pattern', h', fun rule root hrule => ?_, ?_, fun e he => ?_⟩
  · obtain ⟨hroot, hclosed⟩ := h.get?_closedRoots.1 hrule
    exact ⟨hroot, by rw [(hsame _ hroot hclosed).1, hclosed]⟩
  · rw [splitRoots_eq]
    refine List.filter_congr fun e he => ?_
    rw [Bool.eq_iff_iff, Bool.not_eq_true', Option.isNone_iff_eq_none]
    exact hopen e he
  · rw [splitRoots_eq, List.mem_filter] at he
    exact haway e he.1
      ((h.get?_closedRoots_eq_none he.1).1 ((hopen e he.1).1 (by simpa using he.2)))

theorem Underway.length_others_le (h : Underway net trees roots others base depth pattern) :
    others.length ≤ roots.length := by
  rw [h.others_eq]
  exact List.length_filter_le _ _

theorem inlineRounds_nil (net : Network) (trees : NameMap Nat) :
    inlineRounds net trees [] = (net, []) := by
  rw [inlineRounds]
  rfl

/-- Inlining does rounds until no more rules are closed.  It ends where rounds end that know
only how many rules were closed before; no rule that is open then refers to one that is closed. -/
theorem inlineRounds_spec (h : Underway net trees roots others base depth pattern) :
    ∃ n depth' pattern',
      Underway (inlineRounds net trees others).1
        (closedRoots (inlineRounds net trees others).1 roots) roots
        (inlineRounds net trees others).2 base depth' pattern' ∧
      (inlineRounds net trees others).1 = (round roots)^[n] net ∧
      RoundsTo roots (roots.length - others.length) net (inlineRounds net trees others) := by
  fun_induction inlineRounds net trees others generalizing depth pattern with
  | case1 net trees others rest hsplit =>
    have hrest : rest = (splitRoots net roots).2 := h.rest_eq hsplit
    have htrees : trees = closedRoots net roots := h.addRoots_eq hsplit
    have hothers : others = rest := by
      obtain ⟨hnone, hopen⟩ := Prod.mk.inj ((splitRoots_eq net others).symm.trans hsplit)
      rw [← hopen, eq_comm, List.filter_eq_self]
      exact fun e he => by simpa using List.filter_eq_nil_iff.1 hnone e he
    have hlength : (splitRoots net roots).1.length + rest.length = roots.length := by
      rw [hrest]
      exact length_splitRoots rfl
    refine ⟨0, depth, pattern, ?_, rfl, ?_⟩
    · rw [← htrees, ← hothers]
      exact h
    · by_cases hnone : rest = []
      · rw [hnone]
        exact .closed (hrest ▸ hnone)
      · rw [hrest] at hnone ⊢
        exact .stalled hnone (by rw [hothers, ← hlength, Nat.add_sub_cancel])
  | case2 net trees others first closed rest hsplit trees' =>
    rename_i ih
    have hrest : rest = (splitRoots net roots).2 := h.rest_eq hsplit
    have htrees : trees' = closedRoots net roots := h.addRoots_eq hsplit
    have hround : graftedNetwork net trees' rest = round roots net := by
      rw [hrest, htrees]
      rfl
    obtain ⟨depth', pattern', hnext⟩ := h.tended.underway_round
    rw [← hround, ← htrees, ← hrest] at hnext
    obtain ⟨n, depth'', pattern'', hend, hiterate, hrounds⟩ := ih hnext
    refine ⟨n + 1, depth'', pattern'', hend, ?_, ?_⟩
    · rw [hiterate, hround, Function.iterate_succ_apply]
    · have hlength : (splitRoots net roots).1.length + rest.length = roots.length := by
        rw [hrest]
        exact length_splitRoots rfl
      have hfewer := length_splitRoots hsplit
      have hle := h.length_others_le
      rw [List.length_cons] at hfewer
      by_cases hnone : rest = []
      · subst hnone
        rw [inlineRounds_nil]
        exact .closed hrest.symm
      · have hknown : roots.length - rest.length = (splitRoots net roots).1.length := by omega
        rw [hknown, hround] at hrounds
        rw [hround]
        exact .next (hrest ▸ hnone) (by omega) hrounds

/-! ## Inlined rules -/

theorem Rooted.tended (h : Rooted net depth roots pattern) :
    Tended net roots pattern depth pattern :=
  ⟨h, fun e _ => expanding_base pattern _ e.1⟩

/-- What inlining a grammar does, and which rules stay open. -/
theorem exists_inline_eq {g : Grammar} (h : Tended g.network g.roots base depth pattern) :
    ∃ network rest n depth' pattern', inlineRounds g.network .empty g.roots = (network, rest) ∧
      g.inline = (if rest.isEmpty then .ok () else .error (.recursion (NameMap.ofList rest).names),
        { g with network }) ∧
      Underway network (closedRoots network g.roots) g.roots rest base depth' pattern' ∧
      network = (round g.roots)^[n] g.network ∧ RoundsTo g.roots 0 g.network (network, rest) := by
  obtain ⟨n, depth', pattern', hend, hiterate, hrounds⟩ := inlineRounds_spec h.underway
  rw [Nat.sub_self] at hrounds
  exact ⟨_, _, n, depth', pattern', rfl, rfl, hend, hiterate, hrounds⟩

/-- When all rules have been inlined, each has a tree that is the expansion of its name. -/
theorem expands_of_inline {g g' : Grammar} (h : Tended g.network g.roots base depth pattern)
    (hinline : g.inline = (.ok (), g')) : ∃ depth' pattern',
      Tended g'.network g.roots base depth' pattern' ∧ g'.roots = g.roots ∧
      ∀ e ∈ g.roots, Expands base (g.roots.map Prod.fst) e.1 (pattern' e.1) := by
  obtain ⟨network, rest, -, depth', pattern', -, heq, hend, -, -⟩ := exists_inline_eq h
  rw [heq, Prod.mk.injEq] at hinline
  obtain ⟨hrest, rfl⟩ := hinline
  have hnone : rest = [] := by
    cases rest with
    | nil => rfl
    | cons e rest => cases hrest
  refine ⟨depth', pattern', hend.tended, rfl, fun e he => ?_⟩
  cases htree : (closedRoots network g.roots).get? e.1 with
  | none =>
    have hmem : e ∈ rest := by
      rw [hend.others_eq, List.mem_filter]
      exact ⟨he, by rw [htree]; rfl⟩
    rw [hnone] at hmem
    cases hmem
  | some root => exact hend.tended.expands he (hend.ripe _ _ htree).2

/-- When all rules have been inlined, each has a closed tree with the language of its name. -/
theorem closed_of_inline {g g' : Grammar} {env : String → Language String}
    (h : Rooted g.network depth g.roots pattern)
    (henv : ∀ e ∈ g.roots, (pattern e.1).languageIn env = env e.1)
    (hinline : g.inline = (.ok (), g')) :
    g'.roots = g.roots ∧ ∀ e ∈ g.roots, ∃ p, g'.network.pattern? e.2 = some p ∧
      p.references = [] ∧ p.language = env e.1 := by
  obtain ⟨depth', pattern', hend, hroots, hexpands⟩ := expands_of_inline h.tended hinline
  refine ⟨hroots, fun e he => ?_⟩
  have hclosed := (hexpands e he).references_eq_nil
  refine ⟨pattern' e.1, (hend.rooted.tree e he).pattern?_eq, hclosed, ?_⟩
  rw [Pattern.language, Pattern.languageIn_of_closed _ env hclosed]
  refine (hexpands e he).languageIn_eq fun n hn => ?_
  obtain ⟨e', he', rfl⟩ := List.mem_map.1 hn
  exact henv e' he'

end Grammar

end PhraseSearch
