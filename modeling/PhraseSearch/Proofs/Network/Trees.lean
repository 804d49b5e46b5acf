import Mathlib.Data.List.Nodup
import Mathlib.Data.List.Perm.Subperm
import PhraseSearch.Network.Copy
import PhraseSearch.Pattern.OfRules
import PhraseSearch.Proofs.Network.Edits

/-!
# Trees in a network

`below` lists the nodes of the tree below a node, from left to right.  The tree is *genuine* if it
has a pattern and no node is listed twice.  What is the same at the nodes of a tree is the same for
the tree, and a tree is never deeper than it has nodes; so the depth to which `pattern?` and
`isClosed` read is enough for every genuine tree.

    a tree depends on its own nodes only                               (unfold_congr)
    the depth of a tree is at most the number of its nodes             (unfold_length_below)
    a genuine tree is read by `pattern?`                               (Genuine.pattern?_eq)
-/

namespace PhraseSearch

/-! ## Kinds and children -/

namespace NodeKind

/-- The pattern of a node whose children have the given patterns. -/
def pattern? : NodeKind → List Pattern → Option Pattern
  | .join, _ | .start, _ | .finish, _ => some .connector
  | .terminal list, _ => some (.terminal list)
  | .sequence _, ps => some (.sequence ps)
  | .alternation _, ps => some (.alternation ps)
  | .repetition _ bounds, [p] => some (.repetition p bounds)
  | .repetition _ _, _ => none
  | .reference rule, _ => some (.reference rule)

/-- The kind with other children. -/
def withChildren : NodeKind → List Nat → NodeKind
  | .sequence _, ids => .sequence ids
  | .alternation _, ids => .alternation ids
  | .repetition _ bounds, [id] => .repetition id bounds
  | kind, _ => kind

theorem withChildren_children (k : NodeKind) : k.withChildren k.children = k := by
  cases k <;> rfl

theorem children_withChildren {k : NodeKind} {ids : List Nat}
    (h : ids.length = k.children.length) : (k.withChildren ids).children = ids := by
  cases k with
  | sequence items => rfl
  | alternation alternatives => rfl
  | repetition inner bounds =>
    obtain ⟨id, rfl⟩ := List.length_eq_one_iff.1 h
    rfl
  | _ => exact (List.eq_nil_of_length_eq_zero h).symm

theorem pattern?_withChildren (k : NodeKind) (ids : List Nat) (ps : List Pattern) :
    (k.withChildren ids).pattern? ps = k.pattern? ps := by
  cases k with
  | repetition inner bounds =>
    match ids, ps with
    | [], _ => rfl
    | [_], [] => rfl
    | [_], [_] => rfl
    | [_], _ :: _ :: _ => rfl
    | _ :: _ :: _, _ => rfl
  | _ => rfl

theorem withChild_eq {k : NodeKind} {slot : Nat} (h : slot < k.children.length) (child : Nat) :
    k.withChild slot child = k.withChildren (k.children.set slot child) := by
  cases k with
  | repetition inner bounds =>
    obtain rfl : slot = 0 := Nat.lt_one_iff.1 h
    rfl
  | _ => rfl

theorem withChildren_withChildren (k : NodeKind) {ids : List Nat}
    (h : ids.length = k.children.length) (ids' : List Nat) (h' : ids'.length = ids.length) :
    (k.withChildren ids).withChildren ids' = k.withChildren ids' := by
  cases k with
  | repetition inner bounds =>
    obtain ⟨id, rfl⟩ := List.length_eq_one_iff.1 h
    obtain ⟨id', rfl⟩ := List.length_eq_one_iff.1 h'
    rfl
  | _ => rfl

end NodeKind

namespace Network

variable {net net' : Network}

/-- The children of a node; none if there is no such node. -/
def childrenOf (net : Network) (id : Nat) : List Nat :=
  match net.kind? id with
  | some k => k.children
  | none => []

theorem childrenOf_eq {id : Nat} {k : NodeKind} (h : net.kind? id = some k) :
    net.childrenOf id = k.children := by
  rw [childrenOf, h]

theorem unfold_succ (net : Network) (depth id : Nat) : net.unfold (depth + 1) id =
    (net.kind? id).bind fun k => (k.children.mapM (net.unfold depth)).bind k.pattern? := by
  rw [unfold]
  cases net.kind? id with
  | none => rfl
  | some k =>
    cases k with
    | sequence items => exact Option.map_eq_bind
    | alternation alternatives => exact Option.map_eq_bind
    | repetition inner bounds =>
      simp only [NodeKind.children, Option.bind_some, List.mapM_cons, List.mapM_nil]
      cases net.unfold depth inner <;> rfl
    | _ => rfl

/-! ## The nodes of a tree -/

/-- The nodes of the tree below a node, down to the given depth. -/
def below (net : Network) : Nat → Nat → List Nat
  | 0, _ => []
  | depth + 1, id => id :: (net.childrenOf id).flatMap (net.below depth)

theorem mem_below_self {depth id : Nat} {p : Pattern} (h : net.unfold depth id = some p) :
    id ∈ net.below depth id := by
  cases depth with
  | zero => cases h
  | succ depth => exact List.mem_cons_self

theorem mapM_congr_left {f g : Nat → Option Pattern} {ids : List Nat}
    (h : ∀ id ∈ ids, f id = g id) : ids.mapM f = ids.mapM g := by
  induction ids with
  | nil => rfl
  | cons id ids ih =>
    rw [List.mapM_cons, List.mapM_cons, h id (by simp),
      ih fun i hi => h i (List.mem_cons_of_mem _ hi)]

theorem exists_of_mapM {f : Nat → Option Pattern} {ids : List Nat} {ps : List Pattern}
    (h : ids.mapM f = some ps) {id : Nat} (hid : id ∈ ids) : ∃ p, f id = some p := by
  induction ids generalizing ps with
  | nil => cases hid
  | cons i ids ih =>
    simp only [List.mapM_cons, Option.bind_eq_bind, Option.bind_eq_some_iff, Option.pure_def,
      Option.some.injEq] at h
    obtain ⟨p, hp, qs, hqs, -⟩ := h
    rcases List.mem_cons.1 hid with rfl | hid
    · exact ⟨p, hp⟩
    · exact ih hqs hid

/-- A tree is what its nodes are. -/
theorem unfold_congr {depth id : Nat}
    (h : ∀ i ∈ net.below depth id, net'.kind? i = net.kind? i) :
    net'.unfold depth id = net.unfold depth id ∧ net'.below depth id = net.below depth id := by
  induction depth generalizing id with
  | zero => exact ⟨rfl, rfl⟩
  | succ depth ih =>
    have hkind : net'.kind? id = net.kind? id := h id List.mem_cons_self
    have hchildren : net'.childrenOf id = net.childrenOf id := by
      rw [childrenOf, childrenOf, hkind]
    have hbelow : ∀ child ∈ net.childrenOf id,
        net'.unfold depth child = net.unfold depth child ∧
          net'.below depth child = net.below depth child := by
      intro child hchild
      refine ih fun i hi => h i (List.mem_cons_of_mem _ ?_)
      exact List.mem_flatMap.2 ⟨child, hchild, hi⟩
    constructor
    · rw [unfold_succ, unfold_succ, hkind]
      cases hk : net.kind? id with
      | none => rfl
      | some k =>
        rw [childrenOf_eq hk] at hbelow
        rw [Option.bind_some, Option.bind_some,
          mapM_congr_left fun child hchild => (hbelow child hchild).1]
    · rw [below, below, hchildren]
      congr 1
      rw [List.flatMap_def, List.flatMap_def,
        List.map_congr_left fun child hchild => (hbelow child hchild).2]

theorem exists_unfold_child {depth id : Nat} {p : Pattern}
    (h : net.unfold (depth + 1) id = some p) : ∃ k ps, net.kind? id = some k ∧
      k.children.mapM (net.unfold depth) = some ps ∧ k.pattern? ps = some p := by
  rw [unfold_succ] at h
  obtain ⟨k, hk, h⟩ := Option.bind_eq_some_iff.1 h
  obtain ⟨ps, hps, h⟩ := Option.bind_eq_some_iff.1 h
  exact ⟨k, ps, hk, hps, h⟩

/-- Every node of a tree is there. -/
theorem lt_size_of_mem_below {depth id : Nat} {p : Pattern} (h : net.unfold depth id = some p)
    {i : Nat} (hi : i ∈ net.below depth id) : i < net.size := by
  induction depth generalizing id p with
  | zero => cases h
  | succ depth ih =>
    obtain ⟨k, ps, hk, hps, -⟩ := exists_unfold_child h
    rcases List.mem_cons.1 hi with rfl | hi
    · exact lt_size_of_kind? hk
    · obtain ⟨child, hchild, hi⟩ := List.mem_flatMap.1 hi
      rw [childrenOf_eq hk] at hchild
      obtain ⟨q, hq⟩ := exists_of_mapM hps hchild
      exact ih hq hi

/-- A greater depth shows no further nodes. -/
theorem below_mono {depth depth' id : Nat} {p : Pattern} (hdepth : depth ≤ depth')
    (h : net.unfold depth id = some p) : net.below depth' id = net.below depth id := by
  induction depth generalizing depth' id p with
  | zero => cases h
  | succ depth ih =>
    obtain ⟨depth', rfl⟩ : ∃ d, depth' = d + 1 := ⟨depth' - 1, by omega⟩
    obtain ⟨k, ps, hk, hps, -⟩ := exists_unfold_child h
    rw [below, below]
    congr 1
    rw [List.flatMap_def, List.flatMap_def]
    congr 1
    refine List.map_congr_left fun child hchild => ?_
    rw [childrenOf_eq hk] at hchild
    obtain ⟨q, hq⟩ := exists_of_mapM hps hchild
    exact ih (by omega) hq

/-- No tree is deeper than it has nodes. -/
theorem unfold_length_below {depth id : Nat} {p : Pattern} (h : net.unfold depth id = some p) :
    net.unfold (net.below depth id).length id = some p := by
  induction depth generalizing id p with
  | zero => cases h
  | succ depth ih =>
    obtain ⟨k, ps, hk, hps, hp⟩ := exists_unfold_child h
    rw [below, List.length_cons, unfold_succ, hk, Option.bind_some, childrenOf_eq hk]
    have hdeep : ∀ child ∈ k.children, net.unfold (k.children.flatMap (net.below depth)).length
        child = net.unfold depth child := by
      intro child hchild
      obtain ⟨q, hq⟩ := exists_of_mapM hps hchild
      have hle : (net.below depth child).length ≤
          (k.children.flatMap (net.below depth)).length := by
        rw [List.flatMap_def]
        exact (List.sublist_flatten_of_mem (List.mem_map.2 ⟨child, hchild, rfl⟩)).length_le
      rw [hq]
      exact unfold_mono hle (ih hq)
    rw [mapM_congr_left hdeep, hps, Option.bind_some, hp]

/-- All depths that show a tree show the same nodes. -/
theorem below_eq {depth depth' id : Nat} {p q : Pattern} (h : net.unfold depth id = some p)
    (h' : net.unfold depth' id = some q) : net.below depth id = net.below depth' id := by
  rcases Nat.le_total depth depth' with hle | hle
  · exact (below_mono hle h).symm
  · exact below_mono hle h'

/-! ## Genuine trees -/

/-- Whether there is a tree of the given pattern below a node, none of whose nodes is met twice. -/
structure Genuine (net : Network) (depth id : Nat) (p : Pattern) : Prop where
  unfold_eq : net.unfold depth id = some p
  nodup : (net.below depth id).Nodup

theorem Genuine.length_below_le {depth id : Nat} {p : Pattern} (h : net.Genuine depth id p) :
    (net.below depth id).length ≤ net.size := by
  have hsub : net.below depth id ⊆ List.range net.size := fun i hi =>
    List.mem_range.2 (lt_size_of_mem_below h.unfold_eq hi)
  have hle := (List.subperm_of_subset h.nodup hsub).length_le
  rwa [List.length_range] at hle

theorem Genuine.unfold_of_size_le {depth depth' id : Nat} {p : Pattern} (h : net.Genuine depth id p)
    (hdepth : net.size ≤ depth') : net.unfold depth' id = some p :=
  unfold_mono (Nat.le_trans h.length_below_le hdepth) (unfold_length_below h.unfold_eq)

theorem Genuine.of_size_le {depth depth' id : Nat} {p : Pattern} (h : net.Genuine depth id p)
    (hdepth : net.size ≤ depth') : net.Genuine depth' id p where
  unfold_eq := h.unfold_of_size_le hdepth
  nodup := by
    rw [below_eq (h.unfold_of_size_le hdepth) h.unfold_eq]
    exact h.nodup

theorem Genuine.pattern?_eq {depth id : Nat} {p : Pattern} (h : net.Genuine depth id p) :
    net.pattern? id = some p :=
  h.unfold_of_size_le (Nat.le_succ _)

theorem Genuine.isClosed_eq {depth id : Nat} {p : Pattern} (h : net.Genuine depth id p) :
    net.isClosed id = .ok p.references.isEmpty :=
  closedBelow_of_unfold (h.unfold_of_size_le (Nat.le_succ _))

/-- Whether there are trees of the given patterns below some nodes, and no node is met twice. -/
structure Grove (net : Network) (depth : Nat) (ids : List Nat) (ps : List Pattern) : Prop where
  unfold_eq : ids.mapM (net.unfold depth) = some ps
  nodup : (ids.flatMap (net.below depth)).Nodup

namespace Grove

variable {depth id : Nat} {ids : List Nat} {p : Pattern} {ps : List Pattern}

theorem nil (net : Network) (depth : Nat) : net.Grove depth [] [] := ⟨rfl, List.nodup_nil⟩

theorem cons (h : net.Genuine depth id p) (hs : net.Grove depth ids ps)
    (hdisjoint : ∀ i ∈ net.below depth id, i ∉ ids.flatMap (net.below depth)) :
    net.Grove depth (id :: ids) (p :: ps) where
  unfold_eq := by rw [List.mapM_cons, h.unfold_eq, hs.unfold_eq]; rfl
  nodup := by
    rw [List.flatMap_cons]
    refine List.nodup_append.2 ⟨h.nodup, hs.nodup, ?_⟩
    rintro i hi j hj rfl
    exact hdisjoint i hi hj

theorem append {ids' : List Nat} {ps' : List Pattern} (h : net.Grove depth ids ps)
    (h' : net.Grove depth ids' ps')
    (hdisjoint : ∀ i ∈ ids.flatMap (net.below depth), i ∉ ids'.flatMap (net.below depth)) :
    net.Grove depth (ids ++ ids') (ps ++ ps') where
  unfold_eq := by rw [List.mapM_append, h.unfold_eq, h'.unfold_eq]; rfl
  nodup := by
    rw [List.flatMap_append]
    refine List.nodup_append.2 ⟨h.nodup, h'.nodup, ?_⟩
    rintro i hi j hj rfl
    exact hdisjoint i hi hj

theorem of_cons (h : net.Grove depth (id :: ids) ps) : ∃ q qs, ps = q :: qs ∧
    net.Genuine depth id q ∧ net.Grove depth ids qs ∧
    ∀ i ∈ net.below depth id, i ∉ ids.flatMap (net.below depth) := by
  have hunfold := h.unfold_eq
  simp only [List.mapM_cons, Option.bind_eq_bind, Option.bind_eq_some_iff, Option.pure_def,
    Option.some.injEq] at hunfold
  obtain ⟨q, hq, qs, hqs, rfl⟩ := hunfold
  have hnodup := h.nodup
  rw [List.flatMap_cons] at hnodup
  obtain ⟨hfirst, hrest, hdisjoint⟩ := List.nodup_append.1 hnodup
  exact ⟨q, qs, rfl, ⟨hq, hfirst⟩, ⟨hqs, hrest⟩, fun i hi hj => hdisjoint i hi i hj rfl⟩

theorem single (h : net.Grove depth [id] [p]) : net.Genuine depth id p := by
  obtain ⟨q, qs, hq, hone, -⟩ := h.of_cons
  obtain ⟨rfl, -⟩ := List.cons_eq_cons.1 hq
  exact hone

theorem mapM_pattern? (h : net.Grove depth ids ps) : ids.mapM net.pattern? = some ps := by
  induction ids generalizing ps with
  | nil => exact h.unfold_eq
  | cons id ids ih =>
    obtain ⟨q, qs, rfl, hone, hrest, -⟩ := h.of_cons
    rw [List.mapM_cons, hone.pattern?_eq, ih hrest]
    rfl

theorem length_eq (h : net.Grove depth ids ps) : ids.length = ps.length := by
  induction ids generalizing ps with
  | nil =>
    obtain rfl : ps = [] := by simpa using h.unfold_eq.symm
    rfl
  | cons id ids ih =>
    obtain ⟨q, qs, rfl, -, hrest, -⟩ := h.of_cons
    rw [List.length_cons, List.length_cons, ih hrest]

theorem lt_size (h : net.Grove depth ids ps) {i : Nat}
    (hi : i ∈ ids.flatMap (net.below depth)) : i < net.size := by
  obtain ⟨id, hid, hi⟩ := List.mem_flatMap.1 hi
  obtain ⟨p, hp⟩ := exists_of_mapM h.unfold_eq hid
  exact lt_size_of_mem_below hp hi

theorem flatMap_below_congr
    (h : ∀ i ∈ ids.flatMap (net.below depth), net'.kind? i = net.kind? i) :
    ids.flatMap (net'.below depth) = ids.flatMap (net.below depth) := by
  rw [List.flatMap_def, List.flatMap_def]
  congr 1
  refine List.map_congr_left fun id hid => (unfold_congr fun i hi => h i ?_).2
  exact List.mem_flatMap.2 ⟨id, hid, hi⟩

/-- Trees stay as they are while their nodes do. -/
theorem congr (h : net.Grove depth ids ps)
    (hsame : ∀ i ∈ ids.flatMap (net.below depth), net'.kind? i = net.kind? i) :
    net'.Grove depth ids ps where
  unfold_eq := by
    rw [← h.unfold_eq]
    refine mapM_congr_left fun id hid => (unfold_congr fun i hi => hsame i ?_).1
    exact List.mem_flatMap.2 ⟨id, hid, hi⟩
  nodup := by
    rw [flatMap_below_congr hsame]
    exact h.nodup

theorem flatMap_below_mono (h : net.Grove depth ids ps) {depth' : Nat} (hdepth : depth ≤ depth') :
    ids.flatMap (net.below depth') = ids.flatMap (net.below depth) := by
  rw [List.flatMap_def, List.flatMap_def]
  congr 1
  refine List.map_congr_left fun id hid => ?_
  obtain ⟨p, hp⟩ := exists_of_mapM h.unfold_eq hid
  exact below_mono hdepth hp

theorem mono (h : net.Grove depth ids ps) {depth' : Nat} (hdepth : depth ≤ depth') :
    net.Grove depth' ids ps where
  unfold_eq := mapM_eq_of_forall (fun _ _ hp => unfold_mono hdepth hp) h.unfold_eq
  nodup := by
    rw [h.flatMap_below_mono hdepth]
    exact h.nodup

end Grove

namespace Genuine

variable {depth id : Nat} {p : Pattern} {ps : List Pattern} {k : NodeKind}

theorem congr (h : net.Genuine depth id p)
    (hsame : ∀ i ∈ net.below depth id, net'.kind? i = net.kind? i) : net'.Genuine depth id p where
  unfold_eq := by rw [(unfold_congr hsame).1]; exact h.unfold_eq
  nodup := by rw [(unfold_congr hsame).2]; exact h.nodup

theorem mono (h : net.Genuine depth id p) {depth' : Nat} (hdepth : depth ≤ depth') :
    net.Genuine depth' id p where
  unfold_eq := unfold_mono hdepth h.unfold_eq
  nodup := by rw [below_mono hdepth h.unfold_eq]; exact h.nodup

/-- Where its nodes stay, a tree has the same nodes, whatever the depth. -/
theorem below_of_same (h : net.Genuine depth id p)
    (hsame : ∀ i ∈ net.below depth id, net'.kind? i = net.kind? i) {depth' : Nat}
    (hdepth : depth ≤ depth') : net'.below depth' id = net.below depth id := by
  rw [below_mono hdepth (h.congr hsame).unfold_eq, (unfold_congr hsame).2]

theorem grove (h : net.Genuine depth id p) : net.Grove depth [id] [p] :=
  .cons h (.nil net depth) fun _ _ => List.not_mem_nil

/-- A node over genuine trees is a genuine tree. -/
theorem node (hk : net.kind? id = some k) (hchildren : net.Grove depth k.children ps)
    (hid : id ∉ k.children.flatMap (net.below depth)) (hp : k.pattern? ps = some p) :
    net.Genuine (depth + 1) id p where
  unfold_eq := by rw [unfold_succ, hk, Option.bind_some, hchildren.unfold_eq, Option.bind_some, hp]
  nodup := by
    rw [below, childrenOf_eq hk]
    exact List.nodup_cons.2 ⟨hid, hchildren.nodup⟩

/-- What a genuine tree consists of. -/
theorem exists_children (h : net.Genuine (depth + 1) id p) : ∃ k ps, net.kind? id = some k ∧
    net.Grove depth k.children ps ∧ id ∉ k.children.flatMap (net.below depth) ∧
    k.pattern? ps = some p := by
  obtain ⟨k, ps, hk, hps, hp⟩ := exists_unfold_child h.unfold_eq
  have hnodup := h.nodup
  rw [below, childrenOf_eq hk] at hnodup
  obtain ⟨hid, hchildren⟩ := List.nodup_cons.1 hnodup
  exact ⟨k, ps, hk, ⟨hps, hchildren⟩, hid, hp⟩

end Genuine

end Network

end PhraseSearch
