import PhraseSearch.Network.Walk
import PhraseSearch.Network.Tree

/-!
# What edits do

`Gives x net post` says that an edit succeeds on a network and that `post` holds of its answer and
of the network that it leaves.  Compound edits are taken apart by `Gives.bind`, and each primitive
one has a rule that reads backwards: to show `post` after it, show what stands in its premise.

`Extends net net'` says that all nodes of one network are in the other, unchanged; the nodes that an
edit adds are then those from `net.size` on.

    a tree is the same in an extension                                 (unfold_of_extends)
    a greater depth shows the same tree                                (unfold_mono)
-/

namespace PhraseSearch.Network

/-! ## Rules for edits -/

namespace Edit

variable {α β : Type} {net : Network}

/-- Whether an edit succeeds, with an answer and a network of which `post` holds. -/
def Gives (x : Edit α) (net : Network) (post : α → Network → Prop) : Prop :=
  ∃ a net', x net = .ok a net' ∧ post a net'

theorem Gives.mono {x : Edit α} {post post' : α → Network → Prop} (h : Gives x net post)
    (hpost : ∀ a net', post a net' → post' a net') : Gives x net post' := by
  obtain ⟨a, net', hx, ha⟩ := h
  exact ⟨a, net', hx, hpost a net' ha⟩

theorem Gives.bind {x : Edit α} {f : α → Edit β} {post : β → Network → Prop}
    (h : Gives x net fun a mid => Gives (f a) mid post) : Gives (x >>= f) net post := by
  obtain ⟨a, mid, hx, b, net', hf, hpost⟩ := h
  refine ⟨b, net', ?_, hpost⟩
  show EStateM.bind x f net = _
  rw [EStateM.bind, hx]
  exact hf

/-- A compound edit that succeeds does so in both of its parts. -/
theorem exists_of_bind_eq_ok {x : Edit α} {f : α → Edit β} {b : β} {net' : Network}
    (h : (x >>= f) net = .ok b net') : ∃ a mid, x net = .ok a mid ∧ f a mid = .ok b net' := by
  change EStateM.bind x f net = _ at h
  rw [EStateM.bind] at h
  cases hx : x net with
  | ok a mid =>
    rw [hx] at h
    exact ⟨a, mid, rfl, h⟩
  | error fault mid =>
    rw [hx] at h
    cases h

theorem gives_pure {a : α} {post : α → Network → Prop} (h : post a net) :
    Gives (pure a) net post := ⟨a, net, rfl, h⟩

theorem gives_get {post : Network → Network → Prop} (h : post net net) :
    Gives get net post := ⟨net, net, rfl, h⟩

theorem gives_node {id : Nat} {node : Node} {post : Node → Network → Prop}
    (hnode : net.node? id = some node) (h : post node net) : Gives (Edit.node id) net post := by
  refine ⟨node, net, ?_, h⟩
  rw [Edit.node, hnode]

theorem gives_kind {id : Nat} {k : NodeKind} {post : NodeKind → Network → Prop}
    (hkind : net.kind? id = some k) (h : post k net) : Gives (kind id) net post := by
  obtain ⟨node, hnode, rfl⟩ := Option.map_eq_some_iff.1 hkind
  exact .bind (gives_node hnode (gives_pure h))

theorem kind_eq_ok {id : Nat} {k : NodeKind} {net' : Network} (h : kind id net = .ok k net') :
    net.kind? id = some k ∧ net' = net := by
  obtain ⟨node, mid, hnode, h⟩ := exists_of_bind_eq_ok h
  rw [Edit.node] at hnode
  cases hid : net.node? id with
  | none =>
    rw [hid] at hnode
    cases hnode
  | some found =>
    rw [hid] at hnode
    cases hnode
    cases h
    refine ⟨?_, rfl⟩
    rw [kind?, hid]
    rfl

theorem gives_addNode {k : NodeKind} {post : Nat → Network → Prop}
    (h : post net.size (net.push k)) : Gives (addNode k) net post := ⟨_, _, rfl, h⟩

theorem gives_change {id : Nat} {f : Node → Node} {post : Unit → Network → Prop}
    (hid : id < net.size) (h : post () (net.update id f)) : Gives (change id f) net post := by
  refine ⟨(), _, ?_, h⟩
  rw [change, if_pos hid]

theorem gives_link {source target : Nat} {post : Unit → Network → Prop}
    (hsource : source < net.size) (h : post () (net.update source (·.link target))) :
    Gives (link source target) net post := gives_change hsource h

end Edit

/-! ## Nodes that are there -/

theorem lt_size_of_node? {net : Network} {id : Nat} {node : Node} (h : net.node? id = some node) :
    id < net.size := by
  apply Classical.byContradiction
  intro hge
  rw [node?, Array.getElem?_eq_none (Nat.le_of_not_lt hge)] at h
  cases h

theorem lt_size_of_kind? {net : Network} {id : Nat} {k : NodeKind} (h : net.kind? id = some k) :
    id < net.size := by
  obtain ⟨node, hnode, -⟩ := Option.map_eq_some_iff.1 h
  exact lt_size_of_node? hnode

theorem exists_node?_of_lt {net : Network} {id : Nat} (h : id < net.size) :
    ∃ node, net.node? id = some node :=
  ⟨net.nodes[id], Array.getElem?_eq_getElem h⟩

/-! ## Extensions -/

/-- Whether one network has all nodes of another, unchanged, and maybe more. -/
structure Extends (net net' : Network) : Prop where
  size_le : net.size ≤ net'.size
  same : ∀ id, id < net.size → net'.node? id = net.node? id

variable {net net' net'' : Network}

theorem Extends.refl (net : Network) : Extends net net := ⟨Nat.le_refl _, fun _ _ => rfl⟩

theorem Extends.trans (h : Extends net net') (h' : Extends net' net'') : Extends net net'' where
  size_le := Nat.le_trans h.size_le h'.size_le
  same id hid := by
    have hid' : id < net'.size := Nat.lt_of_lt_of_le hid h.size_le
    rw [h'.same id hid', h.same id hid]

theorem extends_push (net : Network) (k : NodeKind) : Extends net (net.push k) where
  size_le := by
    rw [size_push]
    exact Nat.le_succ _
  same _ hid := node?_push_of_lt k hid

/-- A change of a node that was added keeps an extension. -/
theorem Extends.update (h : Extends net net') {id : Nat} (hid : net.size ≤ id)
    (f : Node → Node) : Extends net (net'.update id f) where
  size_le := by
    rw [size_update]
    exact h.size_le
  same k hk := by
    have hne : k ≠ id := by omega
    rw [node?_update, if_neg hne, h.same k hk]

theorem Extends.kind? (h : Extends net net') {id : Nat} {k : NodeKind}
    (hk : net.kind? id = some k) : net'.kind? id = some k := by
  rw [Network.kind?, h.same id (lt_size_of_kind? hk)]
  exact hk

/-! ## Trees -/

theorem mapM_eq_of_forall {f g : Nat → Option Pattern} {ids : List Nat} {ps : List Pattern}
    (hfg : ∀ id p, f id = some p → g id = some p) (h : ids.mapM f = some ps) :
    ids.mapM g = some ps := by
  induction ids generalizing ps with
  | nil => exact h
  | cons id ids ih =>
    simp only [List.mapM_cons, Option.bind_eq_bind, Option.bind_eq_some_iff, Option.pure_def,
      Option.some.injEq] at h ⊢
    obtain ⟨p, hp, qs, hqs, rfl⟩ := h
    exact ⟨p, hfg id p hp, qs, ih hqs, rfl⟩

/-- What a node is, if the tree below it has a certain pattern. -/
inductive Layer (net : Network) (depth id : Nat) : Pattern → Prop
  | connector {k : NodeKind} (kind : net.kind? id = some k)
      (silent : k = .join ∨ k = .start ∨ k = .finish) : Layer net depth id .connector
  | terminal {list : String} (kind : net.kind? id = some (.terminal list)) :
      Layer net depth id (.terminal list)
  | sequence {ids : List Nat} {ps : List Pattern} (kind : net.kind? id = some (.sequence ids))
      (below : ids.mapM (net.unfold depth) = some ps) : Layer net depth id (.sequence ps)
  | alternation {ids : List Nat} {ps : List Pattern}
      (kind : net.kind? id = some (.alternation ids))
      (below : ids.mapM (net.unfold depth) = some ps) : Layer net depth id (.alternation ps)
  | repetition {inner : Nat} {p : Pattern} {bounds : Bounds}
      (kind : net.kind? id = some (.repetition inner bounds))
      (below : net.unfold depth inner = some p) : Layer net depth id (.repetition p bounds)
  | reference {rule : String} (kind : net.kind? id = some (.reference rule)) :
      Layer net depth id (.reference rule)

theorem layer_of_unfold {depth id : Nat} {p : Pattern} (h : net.unfold (depth + 1) id = some p) :
    Layer net depth id p := by
  rw [unfold] at h
  cases hk : net.kind? id with
  | none =>
    rw [hk] at h
    cases h
  | some k =>
    rw [hk] at h
    cases k with
    | join =>
      cases h
      exact .connector hk (.inl rfl)
    | start =>
      cases h
      exact .connector hk (.inr (.inl rfl))
    | finish =>
      cases h
      exact .connector hk (.inr (.inr rfl))
    | terminal list =>
      cases h
      exact .terminal hk
    | sequence ids =>
      obtain ⟨ps, hps, rfl⟩ := Option.map_eq_some_iff.1 h
      exact .sequence hk hps
    | alternation ids =>
      obtain ⟨ps, hps, rfl⟩ := Option.map_eq_some_iff.1 h
      exact .alternation hk hps
    | repetition inner bounds =>
      obtain ⟨q, hq, rfl⟩ := Option.map_eq_some_iff.1 h
      exact .repetition hk hq
    | reference rule =>
      cases h
      exact .reference hk

theorem unfold_cons {depth id : Nat} {ids : List Nat} {ps : List Pattern}
    (h : (id :: ids).mapM (net.unfold depth) = some ps) :
    ∃ p qs, ps = p :: qs ∧ net.unfold depth id = some p ∧
      ids.mapM (net.unfold depth) = some qs := by
  simp only [List.mapM_cons, Option.bind_eq_bind, Option.bind_eq_some_iff, Option.pure_def,
    Option.some.injEq] at h
  obtain ⟨p, hp, qs, hqs, rfl⟩ := h
  exact ⟨p, qs, rfl, hp, hqs⟩

/-- A tree that stands in one network stands in every network that has its nodes, at every depth
that is not smaller. -/
theorem unfold_mono_of_kind? (hkind : ∀ id k, net.kind? id = some k → net'.kind? id = some k)
    {depth depth' id : Nat} {p : Pattern} (hdepth : depth ≤ depth')
    (h : net.unfold depth id = some p) : net'.unfold depth' id = some p := by
  induction depth generalizing depth' id p with
  | zero => cases h
  | succ depth ih =>
    obtain ⟨depth', rfl⟩ : ∃ d, depth' = d + 1 := ⟨depth' - 1, by omega⟩
    have hbelow : ∀ id p, net.unfold depth id = some p → net'.unfold depth' id = some p :=
      fun _ _ => ih (by omega)
    rw [unfold] at h ⊢
    cases hk : net.kind? id with
    | none =>
      rw [hk] at h
      cases h
    | some k =>
      rw [hk] at h
      rw [hkind id k hk]
      cases k with
      | sequence items =>
        obtain ⟨ps, hps, rfl⟩ := Option.map_eq_some_iff.1 h
        exact Option.map_eq_some_iff.2 ⟨ps, mapM_eq_of_forall hbelow hps, rfl⟩
      | alternation alternatives =>
        obtain ⟨ps, hps, rfl⟩ := Option.map_eq_some_iff.1 h
        exact Option.map_eq_some_iff.2 ⟨ps, mapM_eq_of_forall hbelow hps, rfl⟩
      | repetition inner bounds =>
        obtain ⟨q, hq, rfl⟩ := Option.map_eq_some_iff.1 h
        exact Option.map_eq_some_iff.2 ⟨q, hbelow inner q hq, rfl⟩
      | _ => exact h

theorem unfold_mono {depth depth' id : Nat} {p : Pattern} (hdepth : depth ≤ depth')
    (h : net.unfold depth id = some p) : net.unfold depth' id = some p :=
  unfold_mono_of_kind? (fun _ _ h => h) hdepth h

theorem unfold_of_extends {depth id : Nat} {p : Pattern} (hext : Extends net net')
    (h : net.unfold depth id = some p) : net'.unfold depth id = some p :=
  unfold_mono_of_kind? (fun _ _ => hext.kind?) (Nat.le_refl _) h

end PhraseSearch.Network
