import PhraseSearch.Network.Graft
import PhraseSearch.Proofs.Network.Planting

/-!
# Copying and grafting trees

In a network without edges the copy of a genuine tree is a genuine tree of the same pattern in new
nodes.  Grafting goes through the children of a node one by one: those that it has passed are the
roots of trees in which the references have been replaced, those to come are as they were.  It tells
whether there was a reference to be replaced.

    a copy is a tree of the same pattern                               (gives_copyBelow)
    grafting replaces the references of a pattern                      (gives_graft)
-/

namespace PhraseSearch.Network.Edit

open Planting

variable {net net' : Network} {depth : Nat} {id : Nat} {ids : List Nat} {p : Pattern}
  {ps : List Pattern} {map : Copies}

/-! ## Copies -/

theorem copyChildren_eq (copy : Nat → Copies → Edit (Nat × Copies)) (k : NodeKind)
    (map : Copies) : copyChildren copy k map = (do
      let out ← copyAll copy k.children map
      pure (k.withChildren out.1, out.2)) := by
  cases k <;> simp [copyChildren, copyAll, NodeKind.children, NodeKind.withChildren]

/-- Whether genuine trees of some depth are copied to new nodes, and only their nodes enter the
map. -/
def CopiesTrees (depth : Nat) : Prop :=
  ∀ net id p map, net.Genuine depth id p → net.Bare → (∀ i ∈ net.below depth id, map[i]? = none) →
    Gives (copyNode depth id map) net fun out net' => Planted net net' [out.1] [p] ∧
      ∀ i, i ∉ net.below depth id → out.2[i]? = map[i]?

theorem gives_copyAll (hcopy : CopiesTrees depth) (h : net.Grove depth ids ps) (hbare : net.Bare)
    (hmap : ∀ i ∈ ids.flatMap (net.below depth), map[i]? = none) :
    Gives (copyAll (copyNode depth) ids map) net fun out net' => Planted net net' out.1 ps ∧
      ∀ i, i ∉ ids.flatMap (net.below depth) → out.2[i]? = map[i]? := by
  induction ids generalizing net ps map with
  | nil =>
    obtain rfl : ps = [] := by simpa using h.unfold_eq.symm
    exact gives_pure ⟨.nil net, fun _ _ => rfl⟩
  | cons id ids ih =>
    obtain ⟨q, qs, rfl, hone, hrest, hdisjoint⟩ := h.of_cons
    rw [List.flatMap_cons] at hmap
    refine .bind ((hcopy net id q map hone hbare fun i hi =>
      hmap i (List.mem_append_left _ hi)).mono ?_)
    rintro ⟨new, map₁⟩ net₁ ⟨hplanted, hframe⟩
    have hsame : ∀ i ∈ ids.flatMap (net.below depth), net₁.kind? i = net.kind? i := fun i hi =>
      kind?_congr (hplanted.extends_.same i (hrest.lt_size hi))
    have hbelow := Grove.flatMap_below_congr hsame
    refine .bind ((ih (hrest.congr hsame) (hplanted.bare hbare) fun i hi => ?_).mono ?_)
    · rw [hbelow] at hi
      have hi' : i ∉ net.below depth id := fun hmem => hdisjoint i hmem hi
      rw [hframe i hi']
      exact hmap i (List.mem_append_right _ hi)
    · rintro ⟨news, map₂⟩ net₂ ⟨hplanted₂, hframe₂⟩
      refine gives_pure ⟨hplanted.cons hplanted₂, fun i hi => ?_⟩
      rw [List.flatMap_cons, List.mem_append, not_or] at hi
      rw [hbelow] at hframe₂
      exact (hframe₂ i hi.2).trans (hframe i hi.1)

theorem gives_copyNode (depth : Nat) : CopiesTrees depth := by
  induction depth with
  | zero =>
    intro net id p map h
    cases h.unfold_eq
  | succ depth ih =>
    intro net id p map h hbare hmap
    obtain ⟨k, ps, hk, hchildren, hid, hp⟩ := h.exists_children
    have hself : map[id]? = none := hmap id List.mem_cons_self
    have hbelow : net.below (depth + 1) id = id :: k.children.flatMap (net.below depth) := by
      rw [below, childrenOf_eq hk]
    rw [hbelow] at hmap ⊢
    rw [copyNode, hself]
    refine .bind (gives_kind hk ?_)
    rw [copyChildren_eq]
    refine .bind (.bind ((gives_copyAll ih hchildren hbare fun i hi =>
      hmap i (List.mem_cons_of_mem _ hi)).mono ?_))
    rintro ⟨news, map₁⟩ net₁ ⟨hplanted, hframe⟩
    refine gives_pure (.bind (gives_addNode ?_))
    have hlength : news.length = k.children.length := by
      obtain ⟨depth', hgrove, -⟩ := hplanted.grove
      rw [hgrove.length_eq, hchildren.length_eq]
    have hnode : Planted net (net₁.push (k.withChildren news)) [net₁.size] [p] := by
      refine Planted.node ?_ ((k.pattern?_withChildren news ps).trans hp)
      rw [NodeKind.children_withChildren hlength]
      exact hplanted
    obtain ⟨node, hfound⟩ := exists_node?_of_lt (lt_size_of_kind? (hnode.extends_.kind? hk))
    have hedges : node.edges.toList = [] := by
      rw [← targets_of_node? hfound]
      exact hnode.bare hbare id
    refine .bind (gives_node hfound ?_)
    rw [hedges]
    refine .bind (gives_pure (gives_pure ⟨hnode, fun i hi => ?_⟩))
    rw [List.mem_cons, not_or] at hi
    have hne : ¬ compare id i = .eq := by simpa using Ne.symm hi.1
    rw [Std.TreeMap.getElem?_insert, if_neg hne]
    exact hframe i hi.2

/-- A copy of a genuine tree is a tree of the same pattern in new nodes. -/
theorem gives_copyBelow (h : net.Genuine depth id p) (hbare : net.Bare) :
    Gives (copyBelow id) net fun new net' => Planted net net' [new] [p] := by
  obtain ⟨depth', hdepth, hbelow⟩ := exists_copyBelow_eq id net
  have hsize : net.size ≤ depth' :=
    Nat.le_trans (Nat.le_trans (Nat.le_succ _) (Nat.le_mul_self _)) hdepth
  obtain ⟨⟨new, map⟩, net', hcopy, hplanted, -⟩ := gives_copyNode depth' net id p ∅
    (h.of_size_le hsize) hbare fun _ _ => Std.TreeMap.getElem?_emptyc
  exact ⟨new, net', hbelow new map net' hcopy, hplanted⟩

/-! ## Grafts -/

/-- The patterns of the trees that take the place of references, none of which is a tree of the
given nodes. -/
structure Stock (net : Network) (rules : NameMap Nat) (trees : String → Option Pattern)
    (host : List Nat) : Prop where
  tree : ∀ rule root, rules.get? rule = some root → ∃ depth q, trees rule = some q ∧
    net.Genuine depth root q ∧ ∀ i ∈ net.below depth root, i ∉ host
  none : ∀ rule, rules.get? rule = none → trees rule = none

/-- What grafting leaves of a network: trees of other patterns in the nodes of the old ones and in
new nodes.  Only nodes of `touched` have changed. -/
structure Grafted (net net' : Network) (touched old ids : List Nat) (ps : List Pattern) :
    Prop where
  size_le : net.size ≤ net'.size
  same : ∀ i, i < net.size → i ∉ touched → net'.kind? i = net.kind? i
  bare : net'.Bare
  grove : ∃ depth, net'.Grove depth ids ps ∧
    ∀ i ∈ ids.flatMap (net'.below depth), i ∈ old ∨ net.size ≤ i

variable {rules : NameMap Nat} {trees : String → Option Pattern} {host old touched : List Nat}

theorem Grafted.tree (h : Grafted net net' touched old [id] [p]) :
    ∃ depth, net'.Genuine depth id p ∧ ∀ i ∈ net'.below depth id, i ∈ old ∨ net.size ≤ i := by
  obtain ⟨depth, hgrove, hnodes⟩ := h.grove
  rw [List.flatMap_singleton] at hnodes
  exact ⟨depth, hgrove.single, hnodes⟩

/-- Changes that keep away from the trees keep the stock. -/
theorem Stock.congr (h : Stock net rules trees host) {host' : List Nat}
    (hhost : ∀ i ∈ host', i < net.size → i ∈ host)
    (hsame : ∀ i, i < net.size → i ∉ host → net'.kind? i = net.kind? i) :
    Stock net' rules trees host' where
  tree rule root hroot := by
    obtain ⟨depth, q, hq, htree, haway⟩ := h.tree rule root hroot
    have hkinds : ∀ i ∈ net.below depth root, net'.kind? i = net.kind? i := fun i hi =>
      hsame i (lt_size_of_mem_below htree.unfold_eq hi) (haway i hi)
    refine ⟨depth, q, hq, htree.congr hkinds, fun i hi hmem => ?_⟩
    rw [(unfold_congr hkinds).2] at hi
    exact haway i hi (hhost i hmem (lt_size_of_mem_below htree.unfold_eq hi))
  none := h.none

/-- After the first of two parts of a host has been changed, the second is left. -/
theorem Stock.shrink {first rest : List Nat}
    (h : Stock net rules trees (id :: (first ++ rest)))
    (hsame : ∀ i, i < net.size → i ∉ id :: first → net'.kind? i = net.kind? i) :
    Stock net' rules trees (id :: rest) := by
  refine h.congr (fun i hi _ => ?_) fun i hi haway => hsame i hi fun hmem => ?_
  · rcases List.mem_cons.1 hi with rfl | hi
    · exact List.mem_cons_self
    · exact List.mem_cons_of_mem _ (List.mem_append_right _ hi)
  · rcases List.mem_cons.1 hmem with rfl | hmem
    · exact haway List.mem_cons_self
    · exact haway (List.mem_cons_of_mem _ (List.mem_append_left _ hmem))

/-- What is grafted first stays as it is while the rest is grafted. -/
theorem Grafted.cons {net₁ net₂ : Network} {first rest : List Nat} {id' : Nat} {ids' : List Nat}
    {touched touched' : List Nat} {q : Pattern} {qs : List Pattern}
    (h : Grafted net net₁ touched first [id'] [q])
    (h' : Grafted net₁ net₂ touched' rest ids' qs)
    (hrest : ∀ i ∈ rest, i < net.size) (hdisjoint : ∀ i ∈ first, i ∉ rest)
    (htouched : ∀ i, (i ∈ first ∨ net.size ≤ i) → i ∉ touched') :
    Grafted net net₂ (touched ++ touched') (first ++ rest) (id' :: ids') (q :: qs) where
  size_le := Nat.le_trans h.size_le h'.size_le
  same i hi hmem := by
    rw [List.mem_append, not_or] at hmem
    rw [h'.same i (Nat.lt_of_lt_of_le hi h.size_le) hmem.2, h.same i hi hmem.1]
  bare := h'.bare
  grove := by
    obtain ⟨depth, hone, hnodes⟩ := h.tree
    obtain ⟨depth', hgrove', hnodes'⟩ := h'.grove
    have hlt : ∀ i ∈ net₁.below depth id', i < net₁.size := fun i hi =>
      lt_size_of_mem_below hone.unfold_eq hi
    have hkinds : ∀ i ∈ net₁.below depth id', net₂.kind? i = net₁.kind? i := fun i hi =>
      h'.same i (hlt i hi) (htouched i (hnodes i hi))
    have hbelow := hone.below_of_same hkinds (Nat.le_max_left depth depth')
    have hothers := hgrove'.flatMap_below_mono (Nat.le_max_right depth depth')
    refine ⟨max depth depth', .cons ((hone.congr hkinds).mono (Nat.le_max_left _ _))
      (hgrove'.mono (Nat.le_max_right _ _)) ?_, ?_⟩
    · intro i hi hmem
      rw [hbelow] at hi
      rw [hothers] at hmem
      rcases hnodes' i hmem with hold | hnew
      · rcases hnodes i hi with hold' | hnew'
        · exact hdisjoint i hold' hold
        · have := hrest i hold
          omega
      · have := hlt i hi
        omega
    · intro i hi
      rw [List.flatMap_cons, hbelow, hothers] at hi
      rw [List.mem_append]
      rcases List.mem_append.1 hi with hi | hi
      · exact (hnodes i hi).imp_left .inl
      · rcases hnodes' i hi with hold | hnew
        · exact .inl (.inr hold)
        · exact .inr (Nat.le_trans h.size_le hnew)

theorem Grafted.mono (h : Grafted net net' touched old ids ps) {touched' : List Nat}
    (hsub : ∀ i ∈ touched, i ∈ touched') : Grafted net net' touched' old ids ps :=
  ⟨h.size_le, fun i hi hmem => h.same i hi fun hold => hmem (hsub i hold), h.bare, h.grove⟩

/-- A child is put in its place. -/
theorem gives_putChild {k : NodeKind} {slot child : Nat} {post : Unit → Network → Prop}
    (hk : net.kind? id = some k) (hslot : slot < k.children.length) (hbare : net.Bare)
    (h : ∀ net', net'.size = net.size → net'.Bare →
      net'.kind? id = some (k.withChildren (k.children.set slot child)) →
      (∀ i, i ≠ id → net'.kind? i = net.kind? i) → post () net') :
    Gives (putChild id slot child) net post := by
  obtain ⟨node, hnode, rfl⟩ := Option.map_eq_some_iff.1 hk
  refine gives_change (lt_size_of_node? hnode) (h _ (size_update _ _ _) ?_ ?_ ?_)
  · exact hbare.update id fun _ => rfl
  · rw [kind?_update_self _ hnode, NodeKind.withChild_eq hslot]
  · exact fun i hi => kind?_update_of_ne net _ hi

/-- Whether any of the names that are referred to has a tree. -/
def anyTree (rules : NameMap Nat) (references : List String) : Bool :=
  references.any fun rule => (rules.get? rule).isSome

theorem anyTree_append (rules : NameMap Nat) (references references' : List String) :
    anyTree rules (references ++ references') =
      (anyTree rules references || anyTree rules references') :=
  List.any_append

/-- Whether genuine trees of some depth are grafted, if they are no references themselves. -/
def GraftsTrees (rules : NameMap Nat) (trees : String → Option Pattern) (depth : Nat) : Prop :=
  ∀ net id p k, net.Genuine depth id p → net.Bare → Stock net rules trees (net.below depth id) →
    net.kind? id = some k → scion? rules k = none →
    Gives (graftBelow rules depth id) net fun changed net' =>
      Grafted net net' (net.below depth id) (net.below depth id) [id] [p.replace trees] ∧
        changed = anyTree rules p.references

theorem scion?_eq_some {k : NodeKind} {template : Nat} (h : scion? rules k = some template) :
    ∃ rule, k = .reference rule ∧ rules.get? rule = some template := by
  cases k with
  | reference rule => exact ⟨rule, rfl, h⟩
  | _ => cases h

/-- One child: a copy takes its place, or it is grafted itself. -/
theorem gives_graftChild (hgraft : GraftsTrees rules trees depth) {k kc : NodeKind}
    {done rest : List Nat} {child : Nat} {q : Pattern} (hk : net.kind? id = some k)
    (hchildren : k.children = done ++ child :: rest) (h : net.Genuine depth child q)
    (hid : id ∉ net.below depth child) (hbare : net.Bare) {host : List Nat}
    (hstock : Stock net rules trees host) (hhost : ∀ i ∈ net.below depth child, i ∈ host)
    (hkc : net.kind? child = some kc) {f : Bool → Edit Bool} {post : Bool → Network → Prop}
    (hf : ∀ changed net' child',
      net'.kind? id = some (k.withChildren (done ++ child' :: rest)) →
      Grafted net net' (id :: net.below depth child) (net.below depth child) [child']
        [q.replace trees] → changed = anyTree rules q.references →
      Gives (f changed) net' post) :
    Gives (match scion? rules kc with
      | some template => do
        putChild id done.length (← copyBelow template)
        let changed ← pure true
        f changed
      | none => do
        let changed ← graftBelow rules depth child
        f changed) net post := by
  cases hscion : scion? rules kc with
  | none =>
    have hstock' : Stock net rules trees (net.below depth child) :=
      ⟨fun rule root hroot => by
        obtain ⟨d, p, hp, htree, haway⟩ := hstock.tree rule root hroot
        exact ⟨d, p, hp, htree, fun i hi hmem => haway i hi (hhost i hmem)⟩, hstock.none⟩
    refine .bind ((hgraft net child q kc h hbare hstock' hkc hscion).mono ?_)
    rintro changed net' ⟨hgrafted, hchanged⟩
    refine hf changed net' child ?_ (hgrafted.mono fun i hi => List.mem_cons_of_mem _ hi) hchanged
    rw [hgrafted.same id (lt_size_of_kind? hk) hid, hk, ← hchildren, k.withChildren_children]
  | some template =>
    obtain ⟨rule, rfl, hroot⟩ := scion?_eq_some hscion
    obtain ⟨d, p, hp, htree, -⟩ := hstock.tree rule template hroot
    obtain rfl : q = .reference rule := by
      have hunfold := h.unfold_eq
      cases depth with
      | zero => cases hunfold
      | succ depth =>
        rw [unfold, hkc] at hunfold
        exact (Option.some.inj hunfold).symm
    have hq : (Pattern.reference rule).replace trees = p := by
      rw [Pattern.replace, hp]
      rfl
    have hchanged : anyTree rules (Pattern.reference rule).references = true := by
      rw [anyTree, Pattern.references, List.any_cons, hroot]
      rfl
    rw [hq] at hf
    refine .bind ((gives_copyBelow htree hbare).mono fun new net₁ hplanted => ?_)
    obtain ⟨d', hgrove, hnew⟩ := hplanted.grove
    have hk₁ := hplanted.extends_.kind? hk
    have hslot : done.length < k.children.length := by
      rw [hchildren, List.length_append, List.length_cons]
      omega
    refine .bind (gives_putChild hk₁ hslot (hplanted.bare hbare) fun net₂ hsize hbare₂ hkind
      hothers => .bind (gives_pure ?_))
    have hid_lt : id < net.size := lt_size_of_kind? hk
    refine hf true net₂ new ?_ ⟨?_, ?_, hbare₂, d', ?_, ?_⟩ hchanged.symm
    · rw [hkind, hchildren, List.set_append_right _ _ (Nat.le_refl _), Nat.sub_self,
        List.set_cons_zero]
    · rw [hsize]
      exact hplanted.extends_.size_le
    · intro i hi hmem
      rw [List.mem_cons, not_or] at hmem
      rw [hothers i hmem.1, kind?_congr (hplanted.extends_.same i hi)]
    · refine hgrove.congr fun i hi => hothers i ?_
      have := hnew i hi
      omega
    · intro i hi
      rw [Grove.flatMap_below_congr fun j hj => hothers j (by have := hnew j hj; omega)] at hi
      exact .inr (hnew i hi)

/-- The children from some position on: those before it stay what they have become. -/
theorem gives_graftChildren (hgraft : GraftsTrees rules trees depth) {k : NodeKind}
    {done rest : List Nat} (hk : net.kind? id = some k) (hchildren : k.children = done ++ rest)
    (h : net.Grove depth rest ps) (hid : id ∉ rest.flatMap (net.below depth)) (hbare : net.Bare)
    (hstock : Stock net rules trees (id :: rest.flatMap (net.below depth))) :
    Gives (graftChildren rules (graftBelow rules depth) id (rest.zipIdx done.length)) net
      fun changed net' => ∃ rest', net'.kind? id = some (k.withChildren (done ++ rest')) ∧
        rest'.length = rest.length ∧
        Grafted net net' (id :: rest.flatMap (net.below depth)) (rest.flatMap (net.below depth))
          rest' (Pattern.replaceAll trees ps) ∧
        changed = anyTree rules (Pattern.allReferences ps) := by
  induction rest generalizing net k done ps with
  | nil =>
    obtain rfl : ps = [] := by simpa using h.unfold_eq.symm
    refine gives_pure ⟨[], ?_, rfl,
      ⟨Nat.le_refl _, fun _ _ _ => rfl, hbare, 0, .nil net 0, nofun⟩, rfl⟩
    rw [← hchildren, k.withChildren_children]
    exact hk
  | cons child rest ih =>
    obtain ⟨q, qs, rfl, hone, hrest, hdisjoint⟩ := h.of_cons
    have hchild := mem_below_self hone.unfold_eq
    rw [List.flatMap_cons] at hid hstock ⊢
    rw [List.mem_append, not_or] at hid
    obtain ⟨kc, hkc⟩ : ∃ kc, net.kind? child = some kc := by
      obtain ⟨node, hnode⟩ := exists_node?_of_lt (lt_size_of_mem_below hone.unfold_eq hchild)
      exact ⟨node.kind, by rw [kind?, hnode]; rfl⟩
    rw [List.zipIdx_cons, graftChildren]
    refine .bind (gives_kind hkc ?_)
    refine gives_graftChild hgraft hk hchildren hone hid.1 hbare hstock
      (fun i hi => List.mem_cons_of_mem _ (List.mem_append_left _ hi)) hkc ?_
    intro changed net₁ child' hk₁ hfirst hchanged
    have hid_lt : id < net.size := lt_size_of_kind? hk
    have hlength : (done ++ child' :: rest).length = k.children.length := by
      rw [hchildren, List.length_append, List.length_append]
      rfl
    have hchildren₁ : (k.withChildren (done ++ child' :: rest)).children =
        (done ++ [child']) ++ rest := by
      rw [NodeKind.children_withChildren hlength, List.append_assoc]
      rfl
    have hkinds : ∀ i ∈ rest.flatMap (net.below depth), net₁.kind? i = net.kind? i := by
      intro i hi
      refine hfirst.same i (hrest.lt_size hi) fun hmem => ?_
      rcases List.mem_cons.1 hmem with rfl | hmem
      · exact hid.2 hi
      · exact hdisjoint i hmem hi
    have hbelow := Grove.flatMap_below_congr hkinds
    have hid₁ : id ∉ rest.flatMap (net₁.below depth) := by
      rw [hbelow]
      exact hid.2
    have hstock₁ : Stock net₁ rules trees (id :: rest.flatMap (net₁.below depth)) := by
      rw [hbelow]
      exact hstock.shrink hfirst.same
    have hnext := ih hk₁ hchildren₁ (hrest.congr hkinds) hid₁ hfirst.bare hstock₁
    rw [List.length_append, List.length_singleton] at hnext
    refine .bind (hnext.mono ?_)
    rintro changedRest net₂ ⟨rest', hk₂, hlength', hothers, hchangedRest⟩
    rw [hbelow] at hothers
    refine gives_pure ⟨child' :: rest', ?_, ?_, ?_, ?_⟩
    · rw [hk₂, NodeKind.withChildren_withChildren k hlength]
      · rw [List.append_assoc]
        rfl
      · simp only [List.length_append, List.length_cons, List.length_nil, hlength']
        omega
    · rw [List.length_cons, List.length_cons, hlength']
    · refine (hfirst.cons hothers (fun i hi => hrest.lt_size hi) hdisjoint ?_).mono ?_
      · rintro i hi hmem
        rcases List.mem_cons.1 hmem with rfl | hmem
        · rcases hi with hi | hi
          · exact hid.1 hi
          · omega
        · rcases hi with hi | hi
          · exact hdisjoint i hi hmem
          · have := hrest.lt_size hmem
            omega
      · intro i hi
        rw [List.mem_cons, List.mem_append]
        rcases List.mem_append.1 hi with hi | hi
        · exact (List.mem_cons.1 hi).imp_right .inl
        · exact (List.mem_cons.1 hi).imp_right .inr
    · rw [hchanged, hchangedRest, Pattern.allReferences, anyTree_append]

/-- A node that is no reference to a tree keeps its place; its children are replaced. -/
theorem pattern?_replace {k : NodeKind} (hp : k.pattern? ps = some p)
    (hnone : ∀ rule, rules.get? rule = none → trees rule = none) (hk : scion? rules k = none) :
    k.pattern? (Pattern.replaceAll trees ps) = some (p.replace trees) := by
  cases k with
  | repetition inner bounds =>
    match ps with
    | [] => cases hp
    | [q] =>
      cases hp
      rfl
    | _ :: _ :: _ => cases hp
  | reference rule =>
    cases hp
    rw [Pattern.replace, hnone rule hk]
    rfl
  | _ =>
    cases hp
    rfl

/-- The references below a node that is no reference to a tree are those below its children. -/
theorem anyTree_references {k : NodeKind} (hp : k.pattern? ps = some p)
    (hlength : ps.length = k.children.length) (hk : scion? rules k = none) :
    anyTree rules p.references = anyTree rules (Pattern.allReferences ps) := by
  cases k with
  | sequence items =>
    cases hp
    rfl
  | alternation alternatives =>
    cases hp
    rfl
  | repetition inner bounds =>
    obtain ⟨q, rfl⟩ := List.length_eq_one_iff.1 hlength
    cases hp
    rw [Pattern.references, Pattern.allReferences, Pattern.allReferences, List.append_nil]
  | reference rule =>
    obtain rfl := List.eq_nil_of_length_eq_zero hlength
    cases hp
    rw [anyTree, Pattern.references, List.any_cons, show rules.get? rule = none from hk]
    rfl
  | _ =>
    obtain rfl := List.eq_nil_of_length_eq_zero hlength
    cases hp
    rfl

theorem gives_graftBelow (rules : NameMap Nat) (trees : String → Option Pattern) (depth : Nat) :
    GraftsTrees rules trees depth := by
  induction depth with
  | zero =>
    intro net id p k h
    cases h.unfold_eq
  | succ depth ih =>
    intro net id p k h hbare hstock hk hscion
    obtain ⟨k', ps, hk', hchildren, hid, hp⟩ := h.exists_children
    obtain rfl : k = k' := by
      rw [hk] at hk'
      exact Option.some.inj hk'
    have hbelow : net.below (depth + 1) id = id :: k.children.flatMap (net.below depth) := by
      rw [below, childrenOf_eq hk]
    rw [hbelow] at hstock ⊢
    refine .bind (gives_kind hk ?_)
    have hloop := gives_graftChildren ih hk (List.nil_append _).symm hchildren hid hbare hstock
    refine hloop.mono ?_
    rintro changed net' ⟨ids, hkind, hlength, hgrafted, hchanged⟩
    obtain ⟨depth', hgrove, hnodes⟩ := hgrafted.grove
    have hids : (k.withChildren ids).children = ids := NodeKind.children_withChildren hlength
    have hid' : id ∉ ids.flatMap (net'.below depth') := by
      intro hmem
      rcases hnodes id hmem with hold | hnew
      · exact hid hold
      · have := lt_size_of_kind? hk
        omega
    have hpattern := pattern?_replace hp hstock.none hscion
    rw [← k.pattern?_withChildren ids] at hpattern
    have htree : net'.Genuine (depth' + 1) id (p.replace trees) := by
      refine .node hkind ?_ ?_ hpattern
      · rw [List.nil_append, hids]
        exact hgrove
      · rw [List.nil_append, hids]
        exact hid'
    rw [anyTree_references hp hchildren.length_eq.symm hscion]
    refine ⟨⟨hgrafted.size_le, hgrafted.same, hgrafted.bare, depth' + 1, htree.grove,
      fun i hi => ?_⟩, hchanged⟩
    rw [List.flatMap_singleton, below, childrenOf_eq hkind, List.nil_append, hids] at hi
    rcases List.mem_cons.1 hi with rfl | hi
    · exact .inl List.mem_cons_self
    · exact (hnodes i hi).imp_left (List.mem_cons_of_mem _)

/-- Grafting replaces all references below the root of a genuine tree by the trees of a stock. -/
theorem gives_graft {k : NodeKind} (h : net.Genuine depth id p) (hbare : net.Bare)
    (hstock : Stock net rules trees (net.below depth id)) (hk : net.kind? id = some k)
    (hscion : scion? rules k = none) :
    Gives (graft id rules) net fun changed net' =>
      Grafted net net' (net.below depth id) (net.below depth id) [id] [p.replace trees] ∧
        changed = anyTree rules p.references := by
  obtain ⟨depth', hdepth, hgraft⟩ := exists_graft_eq id rules net
  have hdeep := h.of_size_le hdepth
  have hbelow := below_eq hdeep.unfold_eq h.unfold_eq
  rw [← hbelow] at hstock ⊢
  rw [Gives, hgraft]
  exact gives_graftBelow rules trees depth' net id p k hdeep hbare hstock hk hscion

end PhraseSearch.Network.Edit
