import PhraseSearch.Grammar.Basic
import PhraseSearch.Proofs.Network.Grafting
import PhraseSearch.Rule.References

/-!
# The roots of a grammar

Below the roots of a grammar there are genuine trees, which share no nodes; `Rooted` says so, and
which pattern each of them has.  A change that keeps to one of the trees keeps the others.

    one tree may be replaced                                           (Rooted.replace)
    the tree of a name has the pattern that the rules give it          (rooted_ofRules)
-/

namespace PhraseSearch

namespace Grammar

open Network Network.Planting Network.Edit

/-- Whether there are trees of the given patterns below roots, none of which shares nodes with
another. -/
structure Rooted (net : Network) (depth : Nat) (roots : List (String × Nat))
    (pattern : String → Pattern) : Prop where
  bare : net.Bare
  names : (roots.map Prod.fst).Nodup
  tree : ∀ e ∈ roots, net.Genuine depth e.2 (pattern e.1)
  disjoint : ∀ e ∈ roots, ∀ e' ∈ roots, e.1 ≠ e'.1 →
    ∀ i ∈ net.below depth e.2, i ∉ net.below depth e'.2
  alternation : ∀ e ∈ roots, ∃ ids, net.kind? e.2 = some (.alternation ids)

variable {net net' : Network} {depth : Nat} {roots : List (String × Nat)}
  {pattern pattern' : String → Pattern} {name : String} {root : Nat} {q : Pattern}

theorem eq_of_name_eq (h : (roots.map Prod.fst).Nodup) {e e' : String × Nat} (he : e ∈ roots)
    (he' : e' ∈ roots) (hname : e.1 = e'.1) : e = e' :=
  List.inj_on_of_nodup_map h he he' hname

/-- A tree of another pattern may take the place of one of the trees. -/
theorem Rooted.replace (h : Rooted net depth roots pattern) (hroot : (name, root) ∈ roots)
    (hgrafted : Grafted net net' (net.below depth root) (net.below depth root) [root] [q])
    (halternation : ∃ ids, net'.kind? root = some (.alternation ids)) (hq : pattern' name = q)
    (hothers : ∀ other, other ≠ name → pattern' other = pattern other) :
    ∃ depth', Rooted net' depth' roots pattern' := by
  obtain ⟨depth', hone, hnodes⟩ := hgrafted.tree
  have hname : ∀ e ∈ roots, e.1 = name → e = (name, root) := fun e he heq =>
    eq_of_name_eq h.names he hroot heq
  have hkinds : ∀ e ∈ roots, e.1 ≠ name → ∀ i ∈ net.below depth e.2,
      net'.kind? i = net.kind? i := by
    intro e he hne i hi
    exact hgrafted.same i (lt_size_of_mem_below (h.tree e he).unfold_eq hi)
      (h.disjoint e he _ hroot hne i hi)
  have hbelow : ∀ e ∈ roots, e.1 ≠ name →
      net'.below (max depth depth') e.2 = net.below depth e.2 := by
    intro e he hne
    exact (h.tree e he).below_of_same (hkinds e he hne) (Nat.le_max_left depth depth')
  have hnew : ∀ i ∈ net'.below (max depth depth') root,
      i ∈ net.below depth root ∨ net.size ≤ i := by
    rw [below_mono (Nat.le_max_right _ _) hone.unfold_eq]
    exact hnodes
  have haway : ∀ e ∈ roots, e.1 ≠ name → ∀ i ∈ net.below depth e.2,
      i ∉ net'.below (max depth depth') root := by
    intro e he hne i hi hmem
    rcases hnew i hmem with hold | hge
    · exact h.disjoint e he _ hroot hne i hi hold
    · have := lt_size_of_mem_below (h.tree e he).unfold_eq hi
      omega
  refine ⟨max depth depth', hgrafted.bare, h.names, ?_, ?_, ?_⟩
  · intro e he
    by_cases heq : e.1 = name
    · obtain rfl := hname e he heq
      rw [hq]
      exact hone.mono (Nat.le_max_right _ _)
    · rw [hothers e.1 heq]
      exact ((h.tree e he).congr (hkinds e he heq)).mono (Nat.le_max_left _ _)
  · intro e he e' he' hne i hi hi'
    by_cases heq : e.1 = name
    · obtain rfl := hname e he heq
      rw [hbelow e' he' hne.symm] at hi'
      exact haway e' he' hne.symm i hi' hi
    · rw [hbelow e he heq] at hi
      by_cases heq' : e'.1 = name
      · obtain rfl := hname e' he' heq'
        exact haway e he heq i hi hi'
      · rw [hbelow e' he' heq'] at hi'
        exact h.disjoint e he e' he' hne i hi hi'
  · intro e he
    by_cases heq : e.1 = name
    · obtain rfl := hname e he heq
      exact halternation
    · obtain ⟨ids, hids⟩ := h.alternation e he
      rw [hkinds e he heq e.2 (mem_below_self (h.tree e he).unfold_eq)]
      exact ⟨ids, hids⟩

/-- A tree in new nodes may be added. -/
theorem Rooted.add (h : Rooted net depth roots pattern) (hplanted : Planted net net' [root] [q])
    (hname : name ∉ roots.map Prod.fst)
    (halternation : ∃ ids, net'.kind? root = some (.alternation ids)) (hq : pattern' name = q)
    (hothers : ∀ other, other ≠ name → pattern' other = pattern other) :
    ∃ depth', Rooted net' depth' (roots ++ [(name, root)]) pattern' := by
  obtain ⟨depth', hone, hnew⟩ := hplanted.tree
  have hkinds : ∀ e ∈ roots, ∀ i ∈ net.below depth e.2, net'.kind? i = net.kind? i :=
    fun e he i hi =>
      kind?_congr (hplanted.extends_.same i (lt_size_of_mem_below (h.tree e he).unfold_eq hi))
  have hbelow : ∀ e ∈ roots, net'.below (max depth depth') e.2 = net.below depth e.2 := by
    intro e he
    exact (h.tree e he).below_of_same (hkinds e he) (Nat.le_max_left depth depth')
  have haway : ∀ e ∈ roots, ∀ i ∈ net.below depth e.2,
      i ∉ net'.below (max depth depth') root := by
    intro e he i hi hmem
    rw [below_mono (Nat.le_max_right _ _) hone.unfold_eq] at hmem
    have := hnew i hmem
    have := lt_size_of_mem_below (h.tree e he).unfold_eq hi
    omega
  have hne : ∀ e ∈ roots, e.1 ≠ name := by
    rintro e he rfl
    exact hname (List.mem_map.2 ⟨e, he, rfl⟩)
  refine ⟨max depth depth', hplanted.bare h.bare, ?_, ?_, ?_, ?_⟩
  · rw [List.map_append]
    refine List.nodup_append.2 ⟨h.names, List.nodup_singleton name, ?_⟩
    rintro a ha b hb rfl
    rw [List.map_cons, List.map_nil, List.mem_singleton] at hb
    obtain rfl : a = name := hb
    exact hname ha
  · intro e he
    rcases List.mem_append.1 he with he | he
    · rw [hothers e.1 (hne e he)]
      exact ((h.tree e he).congr (hkinds e he)).mono (Nat.le_max_left _ _)
    · obtain rfl := List.mem_singleton.1 he
      rw [hq]
      exact hone.mono (Nat.le_max_right _ _)
  · intro e he e' he' hname' i hi hi'
    rcases List.mem_append.1 he with he | he <;> rcases List.mem_append.1 he' with he' | he'
    · rw [hbelow e he] at hi
      rw [hbelow e' he'] at hi'
      exact h.disjoint e he e' he' hname' i hi hi'
    · obtain rfl := List.mem_singleton.1 he'
      rw [hbelow e he] at hi
      exact haway e he i hi hi'
    · obtain rfl := List.mem_singleton.1 he
      rw [hbelow e' he'] at hi'
      exact haway e' he' i hi' hi
    · obtain rfl := List.mem_singleton.1 he
      obtain rfl := List.mem_singleton.1 he'
      exact hname' rfl
  · intro e he
    rcases List.mem_append.1 he with he | he
    · obtain ⟨ids, hids⟩ := h.alternation e he
      exact ⟨ids, hplanted.extends_.kind? hids⟩
    · obtain rfl := List.mem_singleton.1 he
      exact halternation

/-! ## Planted rules -/

theorem ofRules_append_of_eq (rules : List Rule) (rule : Rule) :
    Pattern.ofRules (rules ++ [rule]) rule.name =
      .alternation ((Rule.alternativesOf rules rule.name).map Pattern.ofAlternative ++
        rule.alternatives.map Pattern.ofAlternative) := by
  simp [Pattern.ofRules, Rule.alternativesOf]

theorem ofRules_append_of_ne (rules : List Rule) {rule : Rule} {name : String}
    (h : name ≠ rule.name) :
    Pattern.ofRules (rules ++ [rule]) name = Pattern.ofRules rules name := by
  simp [Pattern.ofRules, Rule.alternativesOf, Ne.symm h]

theorem alternativesOf_eq_nil {rules : List Rule} {name : String}
    (h : ∀ r ∈ rules, r.name ≠ name) : Rule.alternativesOf rules name = [] := by
  rw [Rule.alternativesOf, List.filter_eq_nil_iff.2 fun r hr => by simpa using h r hr]
  rfl

/-- What there is below the root of an alternation. -/
theorem exists_alternatives {old : List Nat} {ps : List Pattern}
    (hkind : net.kind? root = some (.alternation old))
    (h : net.Genuine depth root (.alternation ps)) : ∃ depth', net.Grove depth' old ps ∧
      root ∉ old.flatMap (net.below depth') ∧
      net.below depth root = root :: old.flatMap (net.below depth') := by
  cases depth with
  | zero => cases h.unfold_eq
  | succ depth =>
    obtain ⟨k, ps', hk, hchildren, hroot, hp⟩ := h.exists_children
    obtain rfl : k = .alternation old := by
      rw [hkind] at hk
      exact (Option.some.inj hk).symm
    obtain rfl : ps' = ps := by
      cases hp
      rfl
    refine ⟨depth, hchildren, hroot, ?_⟩
    rw [below, childrenOf_eq hkind]
    rfl

/-- An alternation of old trees and of new ones, which have come after them. -/
theorem exists_genuine_alternation {net₁ : Network} {depth' : Nat} {old ids : List Nat}
    {ps qs : List Pattern} (hkind : net'.kind? root = some (.alternation (old ++ ids)))
    (hold : net.Grove depth old ps) (hroot : root ∉ old.flatMap (net.below depth))
    (hlt : root < net.size) (hnew : net₁.Grove depth' ids qs)
    (hge : ∀ i ∈ ids.flatMap (net₁.below depth'), net.size ≤ i)
    (holdKinds : ∀ i ∈ old.flatMap (net.below depth), net'.kind? i = net.kind? i)
    (hnewKinds : ∀ i ∈ ids.flatMap (net₁.below depth'), net'.kind? i = net₁.kind? i) :
    ∃ d, net'.Genuine d root (.alternation (ps ++ qs)) ∧ ∀ i ∈ net'.below d root,
      i ∈ root :: old.flatMap (net.below depth) ∨ net.size ≤ i := by
  have holdBelow := (hold.congr holdKinds).flatMap_below_mono (Nat.le_max_left depth depth')
  have hnewBelow := (hnew.congr hnewKinds).flatMap_below_mono (Nat.le_max_right depth depth')
  rw [Grove.flatMap_below_congr holdKinds] at holdBelow
  rw [Grove.flatMap_below_congr hnewKinds] at hnewBelow
  have hall := ((hold.congr holdKinds).mono (Nat.le_max_left depth depth')).append
    ((hnew.congr hnewKinds).mono (Nat.le_max_right depth depth')) (by
      intro i hi hmem
      rw [holdBelow] at hi
      rw [hnewBelow] at hmem
      have := hge i hmem
      have := hold.lt_size hi
      omega)
  have haway : root ∉ (old ++ ids).flatMap (net'.below (max depth depth')) := by
    rw [List.flatMap_append, holdBelow, hnewBelow, List.mem_append, not_or]
    refine ⟨hroot, fun hmem => ?_⟩
    have := hge root hmem
    omega
  refine ⟨max depth depth' + 1, .node hkind hall haway rfl, fun i hi => ?_⟩
  rw [below, childrenOf_eq hkind, NodeKind.children, List.flatMap_append, holdBelow,
    hnewBelow] at hi
  rw [List.mem_cons]
  rcases List.mem_cons.1 hi with rfl | hi
  · exact .inl (.inl rfl)
  · rcases List.mem_append.1 hi with hi | hi
    · exact .inl (.inr hi)
    · exact .inr (hge i hi)

/-- Further alternatives make a tree of further alternatives. -/
theorem grafted_addAlternatives {net₁ : Network} {old ids : List Nat} {ps qs : List Pattern}
    (hbare : net.Bare) (htree : net.Genuine depth root (.alternation ps))
    (hkind : net.kind? root = some (.alternation old)) (hplanted : Planted net net₁ ids qs) :
    Grafted net (net₁.update root (·.addAlternatives ids)) (net.below depth root)
        (net.below depth root) [root] [.alternation (ps ++ qs)] ∧
      (net₁.update root (·.addAlternatives ids)).kind? root = some (.alternation (old ++ ids)) := by
  obtain ⟨node, hnode, hnodeKind⟩ := Option.map_eq_some_iff.1 (hplanted.extends_.kind? hkind)
  have hkind' : (net₁.update root (·.addAlternatives ids)).kind? root =
      some (.alternation (old ++ ids)) := by
    rw [kind?_update_self _ hnode, Node.addAlternatives, hnodeKind]
  have hlt : root < net.size := lt_size_of_kind? hkind
  have hsame : ∀ i, i < net.size → i ≠ root →
      (net₁.update root (·.addAlternatives ids)).kind? i = net.kind? i := by
    intro i hi hne
    rw [kind?_update_of_ne net₁ _ hne, kind?_congr (hplanted.extends_.same i hi)]
  obtain ⟨_, hold, hroot, hbelow⟩ := exists_alternatives hkind htree
  obtain ⟨_, hnew, hge⟩ := hplanted.grove
  obtain ⟨d, hgenuine, hnodes⟩ := exists_genuine_alternation hkind' hold hroot hlt hnew hge
    (fun i hi => hsame i (hold.lt_size hi) fun heq => hroot (heq ▸ hi))
    (fun i hi => kind?_update_of_ne net₁ _ (by have := hge i hi; omega))
  refine ⟨⟨?_, ?_, ?_, d, hgenuine.grove, ?_⟩, hkind'⟩
  · rw [size_update]
    exact hplanted.extends_.size_le
  · intro i hi hmem
    refine hsame i hi ?_
    rintro rfl
    exact hmem (mem_below_self htree.unfold_eq)
  · refine (hplanted.bare hbare).update root fun node => ?_
    rw [Node.addAlternatives]
    split <;> rfl
  · rw [List.flatMap_singleton, hbelow]
    exact hnodes

/-- What has been planted so far: the tree of each name has the pattern of the rules read. -/
structure Sown (net : Network) (index : Std.TreeMap String Nat) (roots : List (String × Nat))
    (rules : List Rule) : Prop where
  rooted : ∃ depth, Rooted net depth roots (Pattern.ofRules rules)
  index : ∀ name root, index[name]? = some root ↔ (name, root) ∈ roots
  known : ∀ r ∈ rules, r.name ∈ roots.map Prod.fst
  given : ∀ e ∈ roots, Rule.Defined rules e.1

variable {index : Std.TreeMap String Nat} {rules : List Rule} {rule : Rule}

/-- A rule of a name that has been there adds its alternatives. -/
theorem Sown.again (h : Sown net index roots rules) (hroot : index[rule.name]? = some root)
    {net₁ : Network} {ids : List Nat}
    (hplanted : Planted net net₁ ids (rule.alternatives.map Pattern.ofAlternative)) :
    Sown (net₁.update root (·.addAlternatives ids)) index roots (rules ++ [rule]) where
  rooted := by
    obtain ⟨depth, hrooted⟩ := h.rooted
    have hmem : (rule.name, root) ∈ roots := (h.index _ _).1 hroot
    obtain ⟨old, hold⟩ := hrooted.alternation _ hmem
    obtain ⟨hgrafted, hkind⟩ :=
      grafted_addAlternatives hrooted.bare (hrooted.tree _ hmem) hold hplanted
    exact hrooted.replace hmem hgrafted ⟨_, hkind⟩ (ofRules_append_of_eq rules rule)
      fun other hother => ofRules_append_of_ne rules hother
  index := h.index
  known r hr := by
    rcases List.mem_append.1 hr with hr | hr
    · exact h.known r hr
    · obtain rfl := List.mem_singleton.1 hr
      exact List.mem_map.2 ⟨_, (h.index _ _).1 hroot, rfl⟩
  given e he := by
    obtain ⟨r, hr, hname⟩ := h.given e he
    exact ⟨r, List.mem_append_left _ hr, hname⟩

/-- A rule of a new name makes a new root. -/
theorem Sown.first (h : Sown net index roots rules) (hname : index[rule.name]? = none)
    {net₁ : Network} {ids : List Nat}
    (hplanted : Planted net net₁ ids (rule.alternatives.map Pattern.ofAlternative)) :
    Sown (net₁.push (.alternation ids)) (index.insert rule.name net₁.size)
      (roots ++ [(rule.name, net₁.size)]) (rules ++ [rule]) := by
  have hnew : rule.name ∉ roots.map Prod.fst := by
    intro hmem
    obtain ⟨⟨name, root⟩, he, rfl⟩ := List.mem_map.1 hmem
    rw [(h.index _ _).2 he] at hname
    cases hname
  have hnone : Rule.alternativesOf rules rule.name = [] :=
    alternativesOf_eq_nil fun r hr heq => hnew (heq ▸ h.known r hr)
  have hpattern : Pattern.ofRules (rules ++ [rule]) rule.name =
      .alternation (rule.alternatives.map Pattern.ofAlternative) := by
    rw [ofRules_append_of_eq, hnone]
    rfl
  have hkind : (net₁.push (.alternation ids)).kind? net₁.size = some (.alternation ids) := by
    rw [kind?, node?_push_size]
    rfl
  refine ⟨?_, ?_, ?_, ?_⟩
  · obtain ⟨depth, hrooted⟩ := h.rooted
    exact hrooted.add (Planted.node (k := .alternation ids) hplanted rfl) hnew ⟨_, hkind⟩ hpattern
      fun other hother => ofRules_append_of_ne rules hother
  · intro name root
    rw [Std.TreeMap.getElem?_insert, List.mem_append, List.mem_singleton, Prod.mk.injEq,
      ← h.index name root]
    by_cases heq : rule.name = name
    · subst heq
      rw [if_pos Std.ReflCmp.compare_self, hname]
      simp [eq_comm]
    · rw [if_neg (by simpa using heq)]
      simp [Ne.symm heq]
  · intro r hr
    rw [List.map_append, List.mem_append]
    rcases List.mem_append.1 hr with hr | hr
    · exact .inl (h.known r hr)
    · obtain rfl := List.mem_singleton.1 hr
      exact .inr (by simp)
  · intro e he
    rcases List.mem_append.1 he with he | he
    · obtain ⟨r, hr, hname⟩ := h.given e he
      exact ⟨r, List.mem_append_left _ hr, hname⟩
    · obtain rfl := List.mem_singleton.1 he
      exact ⟨rule, by simp, rfl⟩

theorem plantRules_of_some (hroot : index[rule.name]? = some root) (more : List Rule)
    (net : Network) : plantRules index (rule :: more) net =
      let planted := plantPatterns (rule.alternatives.map Pattern.ofAlternative) net
      plantRules index more (planted.2.update root (·.addAlternatives planted.1)) := by
  rw [plantRules, hroot]
  rfl

theorem plantRules_of_none (hname : index[rule.name]? = none) (more : List Rule)
    (net : Network) : plantRules index (rule :: more) net =
      let planted := plantPatterns (rule.alternatives.map Pattern.ofAlternative) net
      let rest := plantRules (index.insert rule.name planted.2.size) more
        (planted.2.push (.alternation planted.1))
      ((rule.name, planted.2.size) :: rest.1, rest.2) := by
  rw [plantRules, hname]
  rfl

/-- Rules planted one after the other, on top of those planted before. -/
theorem sown_plantRules (more : List Rule) (h : Sown net index roots rules) :
    ∃ index', Sown (plantRules index more net).2 index' (roots ++ (plantRules index more net).1)
      (rules ++ more) := by
  induction more generalizing net index roots rules with
  | nil =>
    refine ⟨index, ?_⟩
    rw [List.append_nil]
    show Sown net index (roots ++ []) rules
    rwa [List.append_nil]
  | cons rule more ih =>
    have hplanted := planted_plantPatterns (rule.alternatives.map Pattern.ofAlternative) net
    cases hname : index[rule.name]? with
    | some root =>
      rw [plantRules_of_some hname]
      have hrest := ih (h.again hname hplanted)
      rwa [List.append_assoc] at hrest
    | none =>
      rw [plantRules_of_none hname]
      have hrest := ih (h.first hname hplanted)
      rwa [List.append_assoc, List.append_assoc] at hrest

theorem exists_sown (rules : List Rule) :
    ∃ index, Sown (ofRules rules).network index (ofRules rules).roots rules := by
  have hnone : Sown .empty ∅ [] [] := by
    refine ⟨⟨0, ⟨bare_empty, List.nodup_nil, nofun, nofun, nofun⟩⟩, fun name root => ?_, nofun,
      nofun⟩
    rw [Std.TreeMap.getElem?_emptyc]
    simp
  exact sown_plantRules rules hnone

/-- Every name of a grammar has the tree that the rules give it. -/
theorem rooted_ofRules (rules : List Rule) : ∃ depth,
    Rooted (ofRules rules).network depth (ofRules rules).roots (Pattern.ofRules rules) := by
  obtain ⟨index, hsown⟩ := exists_sown rules
  exact hsown.rooted

/-- The names of a grammar are those that rules have. -/
theorem mem_roots_ofRules {rules : List Rule} {name : String} :
    name ∈ (ofRules rules).roots.map Prod.fst ↔ Rule.Defined rules name := by
  obtain ⟨index, hsown⟩ := exists_sown rules
  constructor
  · intro hname
    obtain ⟨e, he, rfl⟩ := List.mem_map.1 hname
    exact hsown.given e he
  · rintro ⟨r, hr, rfl⟩
    exact hsown.known r hr

theorem exists_of_ofLines {lines : List String} {g : Grammar}
    (h : ofLines lines = .ok g) :
    ∃ rules, rulesOf lines = .ok rules ∧ ofRules rules = g := by
  rw [ofLines] at h
  cases hrules : rulesOf lines with
  | error fault =>
    rw [hrules] at h
    cases h
  | ok rules =>
    rw [hrules] at h
    exact ⟨rules, rfl, Except.ok.inj h⟩

/-- The first rule's name comes first. -/
theorem roots_ofRules_cons (rule : Rule) (rules : List Rule) :
    ∃ root roots, (ofRules (rule :: rules)).roots = (rule.name, root) :: roots := by
  have hname : (∅ : Std.TreeMap String Nat)[rule.name]? = none := Std.TreeMap.getElem?_emptyc
  have hroots : (ofRules (rule :: rules)).roots = (plantRules ∅ (rule :: rules) .empty).1 := rfl
  rw [hroots, plantRules_of_none hname]
  exact ⟨_, _, rfl⟩

end Grammar

end PhraseSearch
