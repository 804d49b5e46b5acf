import Mathlib.Data.List.Forall2
import PhraseSearch.Network.Segment
import PhraseSearch.Proofs.Network.Reading

/-!
# Two runs side by side

An edit that looks at nothing but the nodes it has made does the same wherever it starts.  To say
so, two runs are followed side by side: nodes are `Twins` if they have the same place among the new
nodes of their networks, and two networks are `Alike` if twins are of one kind and their edges lead
to twins.  `Both` is what holds whenever two edits both succeed.

    alike networks stay alike when twins are made or linked            (Alike.push, Alike.link)
    copies of twin segments are twins                                  (both_copySegment)
-/

namespace PhraseSearch.Network

/-! ## Twins -/

/-- Whether two nodes have the same place among the new nodes of their networks. -/
def Twins (base base' : Network) (i j : Nat) : Prop :=
  ∃ k, i = base.size + k ∧ j = base'.size + k

variable {base base' net net' : Network} {i j t u : Nat}

theorem Twins.eq_iff (h : Twins base base' i j) (h' : Twins base base' t u) : i = t ↔ j = u := by
  obtain ⟨k, rfl, rfl⟩ := h
  obtain ⟨m, rfl, rfl⟩ := h'
  omega

theorem Twins.compare_eq_iff (h : Twins base base' i j) (h' : Twins base base' t u) :
    compare i t = .eq ↔ compare j u = .eq := by
  rw [Std.LawfulEqCmp.compare_eq_iff_eq, Std.LawfulEqCmp.compare_eq_iff_eq]
  exact h.eq_iff h'

/-- The twins of the members of a list are the members of the other. -/
theorem mem_iff_of_twins {l l' : List Nat} (hl : List.Forall₂ (Twins base base') l l')
    (ht : Twins base base' t u) : t ∈ l ↔ u ∈ l' := by
  induction hl with
  | nil => simp
  | cons hfirst _ ih => rw [List.mem_cons, List.mem_cons, ih, ht.eq_iff hfirst]

theorem rel_getElem? {α β : Type} {R : α → β → Prop} {l : List α} {l' : List β}
    (h : List.Forall₂ R l l') (n : Nat) : Option.Rel R l[n]? l'[n]? := by
  induction h generalizing n with
  | nil => exact .none
  | cons hfirst _ ih =>
    cases n with
    | zero => exact .some hfirst
    | succ n => exact ih n

/-! ## Networks -/

/-- Whether two networks have the same new nodes, with the same edges between them. -/
structure Alike (base base' net net' : Network) : Prop where
  left : Extends base net
  right : Extends base' net'
  size : Twins base base' net.size net'.size
  kind : ∀ {i j}, Twins base base' i j → net.kind? i = net'.kind? j
  targets : ∀ {i j}, Twins base base' i j →
    List.Forall₂ (Twins base base') (net.targets i) (net'.targets j)

namespace Alike

theorem refl (base base' : Network) : Alike base base' base base' := by
  have hnone : ∀ (net : Network) k, net.node? (net.size + k) = none := fun net k =>
    Array.getElem?_eq_none (Nat.le_add_right _ _)
  refine ⟨.refl base, .refl base', ⟨0, rfl, rfl⟩, ?_, ?_⟩
  · rintro i j ⟨k, rfl, rfl⟩
    rw [kind?, kind?, hnone, hnone]
  · rintro i j ⟨k, rfl, rfl⟩
    rw [Network.targets, Network.targets, hnone, hnone]
    exact .nil

theorem push (h : Alike base base' net net') (k : NodeKind) :
    Alike base base' (net.push k) (net'.push k) where
  left := h.left.trans (extends_push net k)
  right := h.right.trans (extends_push net' k)
  size := by
    obtain ⟨m, hm, hm'⟩ := h.size
    refine ⟨m + 1, ?_, ?_⟩
    · rw [size_push, hm, Nat.add_assoc]
    · rw [size_push, hm', Nat.add_assoc]
  kind := by
    intro i j hij
    by_cases hi : i = net.size
    · rw [hi, (hij.eq_iff h.size).1 hi, kind?, kind?, node?_push_size, node?_push_size]
    · rw [kind?_push_of_ne k hi, kind?_push_of_ne k (mt (hij.eq_iff h.size).2 hi), h.kind hij]
  targets := by
    intro i j hij
    rw [targets_push, targets_push]
    by_cases hi : i = net.size
    · rw [if_pos hi, if_pos ((hij.eq_iff h.size).1 hi)]
      exact .nil
    · rw [if_neg hi, if_neg (mt (hij.eq_iff h.size).2 hi)]
      exact h.targets hij

theorem link (h : Alike base base' net net') (hij : Twins base base' i j)
    (htu : Twins base base' t u) (hi : i < net.size) (hj : j < net'.size) :
    Alike base base' (net.update i (·.link t)) (net'.update j (·.link u)) where
  left := by
    obtain ⟨k, rfl, -⟩ := hij
    exact h.left.update (Nat.le_add_right _ _) _
  right := by
    obtain ⟨k, -, rfl⟩ := hij
    exact h.right.update (Nat.le_add_right _ _) _
  size := by
    rw [size_update, size_update]
    exact h.size
  kind := by
    intro x y hxy
    rw [kind?_link, kind?_link, h.kind hxy]
  targets := by
    intro x y hxy
    rw [targets_link hi, targets_link hj]
    have hiff : x = i ∧ t ∉ net.targets x ↔ y = j ∧ u ∉ net'.targets y :=
      and_congr (hxy.eq_iff hij) (not_congr (mem_iff_of_twins (h.targets hxy) htu))
    by_cases hnew : x = i ∧ t ∉ net.targets x
    · rw [if_pos hnew, if_pos (hiff.1 hnew)]
      exact List.rel_append (h.targets hxy) (.cons htu .nil)
    · rw [if_neg hnew, if_neg (mt hiff.2 hnew)]
      exact h.targets hxy

end Alike

/-! ## Two edits -/

namespace Edit

variable {α β γ δ : Type} {post post' : α → Network → β → Network → Prop}

/-- What holds of the outcomes whenever two edits both succeed. -/
def Both (x : Edit α) (y : Edit β) (net net' : Network)
    (post : α → Network → β → Network → Prop) : Prop :=
  ∀ a out b out', x net = .ok a out → y net' = .ok b out' → post a out b out'

theorem Both.mono {x : Edit α} {y : Edit β} (h : Both x y net net' post)
    (hpost : ∀ a out b out', post a out b out' → post' a out b out') :
    Both x y net net' post' :=
  fun a out b out' hx hy => hpost a out b out' (h a out b out' hx hy)

theorem Both.bind {x : Edit γ} {y : Edit δ} {f : γ → Edit α} {g : δ → Edit β}
    (h : Both x y net net' fun c mid d mid' => Both (f c) (g d) mid mid' post) :
    Both (x >>= f) (y >>= g) net net' post := by
  intro a out b out' hx hy
  obtain ⟨c, mid, hc, hf⟩ := exists_of_bind_eq_ok hx
  obtain ⟨d, mid', hd, hg⟩ := exists_of_bind_eq_ok hy
  exact h c mid d mid' hc hd a out b out' hf hg

theorem both_pure {a : α} {b : β} (h : post a net b net') :
    Both (pure a) (pure b) net net' post := by
  intro a' out b' out' ha hb
  cases ha
  cases hb
  exact h

theorem both_throw {fault : Fault} {y : Edit β} : Both (throw fault) y net net' post :=
  fun _ _ _ _ hx _ => nomatch hx

theorem both_throw_right {fault : Fault} {x : Edit α} : Both x (throw fault) net net' post :=
  fun _ _ _ _ _ hy => nomatch hy

theorem both_get {post : Network → Network → Network → Network → Prop}
    (h : post net net net' net') : Both get get net net' post := by
  intro a out b out' ha hb
  cases ha
  cases hb
  exact h

theorem both_kind {post : NodeKind → Network → NodeKind → Network → Prop}
    (h : ∀ k k', net.kind? i = some k → net'.kind? j = some k' → post k net k' net') :
    Both (kind i) (kind j) net net' post := by
  intro k out k' out' hk hk'
  obtain ⟨hkind, rfl⟩ := kind_eq_ok hk
  obtain ⟨hkind', rfl⟩ := kind_eq_ok hk'
  exact h k k' hkind hkind'

theorem both_addNode {k k' : NodeKind} {post : Nat → Network → Nat → Network → Prop}
    (h : post net.size (net.push k) net'.size (net'.push k')) :
    Both (addNode k) (addNode k') net net' post := by
  intro a out b out' ha hb
  cases ha
  cases hb
  exact h

theorem both_link {post : Unit → Network → Unit → Network → Prop} (h : Alike base base' net net')
    (hij : Twins base base' i j) (htu : Twins base base' t u)
    (hpost : ∀ out out', Alike base base' out out' → post () out () out') :
    Both (link i t) (link j u) net net' post := by
  intro a out b out' ha hb
  rw [Edit.link, change] at ha hb
  split at ha
  · next hi =>
    split at hb
    · next hj =>
      cases ha
      cases hb
      exact hpost _ _ (h.link hij htu hi hj)
    · cases hb
  · cases ha

/-- Twins are of one kind. -/
theorem both_kind_twins {post : NodeKind → Network → NodeKind → Network → Prop}
    (h : Alike base base' net net') (hij : Twins base base' i j)
    (hpost : ∀ k, post k net k net') : Both (kind i) (kind j) net net' post := by
  refine both_kind fun k k' hk hk' => ?_
  rw [h.kind hij, hk'] at hk
  cases hk
  exact hpost k

/-- Twins have edges to twins. -/
theorem both_node_twins {post : Node → Network → Node → Network → Prop}
    (h : Alike base base' net net') (hij : Twins base base' i j)
    (hpost : ∀ node node', List.Forall₂ (Twins base base') node.edges.toList node'.edges.toList →
      post node net node' net') : Both (node i) (node j) net net' post := by
  intro a out b out' ha hb
  rw [Edit.node] at ha hb
  cases hnode : net.node? i with
  | none =>
    rw [hnode] at ha
    cases ha
  | some first =>
    cases hnode' : net'.node? j with
    | none =>
      rw [hnode'] at hb
      cases hb
    | some second =>
      rw [hnode] at ha
      rw [hnode'] at hb
      cases ha
      cases hb
      refine hpost _ _ ?_
      rw [← targets_of_node? hnode, ← targets_of_node? hnode']
      exact h.targets hij

/-! ## Copies of segments -/

/-- Whether maps lead twins to twins. -/
def TwinMaps (base base' : Network) (map map' : Copies) : Prop :=
  ∀ i j, Twins base base' i j → Option.Rel (Twins base base') map[i]? map'[j]?

/-- Whether queues hold twins with their copies, which are twins too. -/
def TwinQueues (base base' : Network) (queue queue' : Array (Nat × Nat)) : Prop :=
  List.Forall₂ (fun e e' => Twins base base' e.1 e'.1 ∧ Twins base base' e.2 e'.2)
    queue.toList queue'.toList

/-- Whether segments have twins for entries and for exits. -/
def TwinSegments (base base' : Network) (segment segment' : Segment) : Prop :=
  Twins base base' segment.entry segment'.entry ∧ Twins base base' segment.exit segment'.exit

variable {map map' : Copies} {queue queue' : Array (Nat × Nat)} {segment segment' : Segment}

theorem twinMaps_empty (base base' : Network) : TwinMaps base base' ∅ ∅ := by
  intro i j _
  rw [Std.TreeMap.getElem?_emptyc, Std.TreeMap.getElem?_emptyc]
  exact .none

theorem TwinMaps.insert (h : TwinMaps base base' map map') (hij : Twins base base' i j)
    (htu : Twins base base' t u) : TwinMaps base base' (map.insert i t) (map'.insert j u) := by
  intro x y hxy
  rw [Std.TreeMap.getElem?_insert, Std.TreeMap.getElem?_insert]
  by_cases hx : compare i x = .eq
  · rw [if_pos hx, if_pos ((hij.compare_eq_iff hxy).1 hx)]
    exact .some htu
  · rw [if_neg hx, if_neg (mt (hij.compare_eq_iff hxy).2 hx)]
    exact h x y hxy

theorem TwinQueues.push (h : TwinQueues base base' queue queue') (hij : Twins base base' i j)
    (htu : Twins base base' t u) :
    TwinQueues base base' (queue.push (i, t)) (queue'.push (j, u)) := by
  rw [TwinQueues, Array.toList_push, Array.toList_push]
  exact List.rel_append h (.cons ⟨hij, htu⟩ .nil)

theorem TwinQueues.rel_getElem? (h : TwinQueues base base' queue queue') (n : Nat) :
    Option.Rel (fun e e' => Twins base base' e.1 e'.1 ∧ Twins base base' e.2 e'.2)
      queue[n]? queue'[n]? := by
  rw [← Array.getElem?_toList, ← Array.getElem?_toList]
  exact Network.rel_getElem? h n

theorem both_copySegmentEdges {ts ts' : List Nat} (hts : List.Forall₂ (Twins base base') ts ts')
    (h : Alike base base' net net') (hij : Twins base base' i j)
    (hmap : TwinMaps base base' map map') (hqueue : TwinQueues base base' queue queue') :
    Both (copySegmentEdges i ts map queue) (copySegmentEdges j ts' map' queue') net net'
      fun out mid out' mid' => Alike base base' mid mid' ∧ TwinMaps base base' out.1 out'.1 ∧
        TwinQueues base base' out.2 out'.2 := by
  induction hts generalizing net net' map map' queue queue' with
  | nil => exact both_pure ⟨h, hmap, hqueue⟩
  | @cons t u ts ts' htu _ ih =>
    rw [copySegmentEdges, copySegmentEdges]
    have hcopies := hmap t u htu
    generalize map[t]? = copy at hcopies
    generalize map'[u]? = copy' at hcopies
    cases hcopies with
    | some hcopy =>
      exact .bind (both_link h hij hcopy fun _ _ hlink => ih hlink hmap hqueue)
    | none =>
      refine .bind (both_kind_twins h htu fun k => .bind (both_addNode ?_))
      refine .bind (both_link (h.push k) hij h.size fun _ _ hlink => ?_)
      exact ih hlink (hmap.insert htu h.size) (hqueue.push htu h.size)

theorem both_copySegmentQueue {turns turns' next : Nat} (h : Alike base base' net net')
    (hmap : TwinMaps base base' map map') (hqueue : TwinQueues base base' queue queue') :
    Both (copySegmentQueue turns next map queue) (copySegmentQueue turns' next map' queue') net net'
      fun out mid out' mid' => Alike base base' mid mid' ∧ TwinMaps base base' out out' := by
  induction turns generalizing turns' next net net' map map' queue queue' with
  | zero =>
    unfold copySegmentQueue
    have hnext := hqueue.rel_getElem? next
    generalize queue[next]? = first at hnext
    generalize queue'[next]? = first' at hnext
    cases hnext with
    | none => exact both_pure ⟨h, hmap⟩
    | some _ => exact both_throw
  | succ turns ih =>
    unfold copySegmentQueue
    have hnext := hqueue.rel_getElem? next
    generalize queue[next]? = first at hnext
    generalize queue'[next]? = first' at hnext
    cases hnext with
    | none => exact both_pure ⟨h, hmap⟩
    | some hfirst =>
      cases turns' with
      | zero => exact both_throw_right
      | succ turns' =>
        refine .bind (both_node_twins h hfirst.1 fun node node' hedges => ?_)
        refine .bind ((both_copySegmentEdges hedges h hfirst.2 hmap hqueue).mono ?_)
        rintro out mid out' mid' ⟨hmid, hmaps, hqueues⟩
        exact ih hmid hmaps hqueues

/-- Copies of twin segments are twins. -/
theorem both_copySegment (h : Alike base base' net net')
    (hsegment : TwinSegments base base' segment segment') :
    Both (copySegment segment) (copySegment segment') net net' fun copy mid copy' mid' =>
      Alike base base' mid mid' ∧ TwinSegments base base' copy copy' := by
  obtain ⟨hentry, hexit⟩ := hsegment
  unfold copySegment
  refine .bind (both_get (.bind (both_kind_twins h hentry fun k => .bind (both_addNode ?_))))
  have hmap := (twinMaps_empty base base').insert hentry h.size
  have hqueue : TwinQueues base base' #[(segment.entry, net.size)] #[(segment'.entry, net'.size)] :=
    .cons ⟨hentry, h.size⟩ .nil
  refine .bind ((both_copySegmentQueue (h.push k) hmap hqueue).mono ?_)
  rintro map mid map' mid' ⟨hmid, hmaps⟩
  have hcopies := hmaps _ _ hexit
  generalize map[segment.exit]? = copy at hcopies
  generalize map'[segment'.exit]? = copy' at hcopies
  cases hcopies with
  | some hcopy => exact both_pure ⟨hmid, h.size, hcopy⟩
  | none =>
    refine .bind (both_kind_twins hmid hexit fun k => .bind (both_addNode (both_pure ?_)))
    exact ⟨hmid.push k, h.size, hmid.size⟩

end Edit

end PhraseSearch.Network
