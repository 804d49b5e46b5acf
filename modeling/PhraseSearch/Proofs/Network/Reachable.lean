import Mathlib.Data.List.Forall2
import PhraseSearch.Network.Reachable
import PhraseSearch.Proofs.Network.Unmet

/-!
# Breadth first

Nodes are found in the order of their distance.  A node may stand in the queue more than once; think
of each of its places with the length of a walk that has put it there.  These lengths never descend
along the queue, and no two of them differ by more than one.  A walk that is no longer than the
first of them leads to a node that has been found, so the first node of the queue is either one of
these, or at just this distance.

    a walk leads to a node found, or is as long as one in the queue    (Reaching.mem_or_exists)
    the first node of the queue is found at its distance               (Reaching.find)
    the nodes that are reachable, nearest first                        (reachable_spec)
-/

namespace PhraseSearch.Network

variable {net : Network} {source id n : Nat} {seen : Std.TreeSet Nat}
  {found queue : List (Nat × Nat)}

/-- What holds while nodes are looked for along edges.  Those that have been found stand with their
distances, those in the queue with the lengths of walks to them. -/
structure Reaching (net : Network) (source : Nat) (seen : Std.TreeSet Nat)
    (found queue : List (Nat × Nat)) : Prop where
  mem_seen : ∀ t, t ∈ seen ↔ t ∈ found.map Prod.fst
  nodup : (found.map Prod.fst).Nodup
  distance : ∀ e ∈ found, net.Distance source e.1 e.2
  walk : ∀ e ∈ queue, net.Walk e.2 source e.1
  /-- neither distances nor lengths descend, and no distance is above a length -/
  ascending : (found ++ queue).Pairwise fun e f => e.2 ≤ f.2
  /-- no two lengths differ by more than one -/
  close : ∀ e ∈ queue, ∀ f ∈ queue, f.2 ≤ e.2 + 1
  start : (source, 0) ∈ found ++ queue
  /-- what an edge leads to is no further away than one edge more -/
  past : ∀ e ∈ found, ∀ t, net.Edge e.1 t → ∃ m ≤ e.2 + 1, (t, m) ∈ found ++ queue

namespace Reaching

theorem begin (net : Network) (source : Nat) : Reaching net source ∅ [] [(source, 0)] where
  mem_seen t := iff_of_false Std.TreeSet.not_mem_emptyc List.not_mem_nil
  nodup := List.nodup_nil
  distance := nofun
  walk e he := List.mem_singleton.1 he ▸ .refl source
  ascending := List.pairwise_singleton _ _
  close e he f hf := by
    rw [List.mem_singleton.1 he, List.mem_singleton.1 hf]
    exact Nat.le_succ _
  start := List.mem_singleton.2 rfl
  past := nofun

theorem exists_of_mem_seen (h : Reaching net source seen found queue) (hid : id ∈ seen) :
    ∃ m, (id, m) ∈ found := by
  obtain ⟨⟨_, m⟩, hmem, rfl⟩ := List.mem_map.1 ((h.mem_seen id).1 hid)
  exact ⟨m, hmem⟩

/-- A walk either leads to a node that is found or in the queue, no further away than the walk is
long, or it is at least as long as one to a node of the queue. -/
theorem mem_or_exists (h : Reaching net source seen found queue) {t : Nat}
    (hwalk : net.Walk n source t) :
    (∃ m ≤ n, (t, m) ∈ found ++ queue) ∨ ∃ e ∈ queue, e.2 ≤ n := by
  induction n generalizing t with
  | zero =>
    cases hwalk
    exact .inl ⟨0, Nat.le_refl 0, h.start⟩
  | succ n ih =>
    obtain ⟨u, hu, hedge⟩ := hwalk.exists_last
    rcases ih hu with ⟨m, hm, hmem⟩ | ⟨e, he, hle⟩
    · rcases List.mem_append.1 hmem with hmem | hmem
      · obtain ⟨k, hk, hnext⟩ := h.past _ hmem t hedge
        exact .inl ⟨k, Nat.le_trans hk (Nat.succ_le_succ hm), hnext⟩
      · exact .inr ⟨_, hmem, Nat.le_succ_of_le hm⟩
    · exact .inr ⟨e, he, Nat.le_succ_of_le hle⟩

/-- No length in the queue is below the first one. -/
theorem le_of_mem_queue (h : Reaching net source seen found ((id, n) :: queue))
    {e : Nat × Nat} (he : e ∈ (id, n) :: queue) : n ≤ e.2 := by
  rcases List.mem_cons.1 he with rfl | he
  · exact Nat.le_refl _
  · exact List.rel_of_pairwise_cons (List.pairwise_append.1 h.ascending).2.1 he

/-- The first node of the queue is at the distance that it stands with, unless it has been found. -/
theorem distance_head (h : Reaching net source seen found ((id, n) :: queue)) (hid : id ∉ seen) :
    net.Distance source id n := by
  refine ⟨h.walk _ List.mem_cons_self, fun m hwalk => ?_⟩
  rcases h.mem_or_exists hwalk with ⟨k, hk, hmem⟩ | ⟨e, he, hle⟩
  · rcases List.mem_append.1 hmem with hmem | hmem
    · exact absurd ((h.mem_seen id).2 (List.mem_map_of_mem hmem)) hid
    · exact Nat.le_trans (h.le_of_mem_queue hmem) hk
  · exact Nat.le_trans (h.le_of_mem_queue he) hle

/-- A node that has been found already is taken off the queue. -/
theorem skip (h : Reaching net source seen found ((id, n) :: queue)) (hid : id ∈ seen) :
    Reaching net source seen found queue := by
  obtain ⟨m, hm⟩ := h.exists_of_mem_seen hid
  have hle : m ≤ n := (h.distance _ hm).least n (h.walk _ List.mem_cons_self)
  have hstay : ∀ {t k}, (t, k) ∈ found ++ (id, n) :: queue →
      ∃ j ≤ k, (t, j) ∈ found ++ queue := by
    intro t k hmem
    rcases List.mem_append.1 hmem with hmem | hmem
    · exact ⟨k, Nat.le_refl k, List.mem_append_left _ hmem⟩
    · rcases List.mem_cons.1 hmem with heq | hmem
      · cases heq
        exact ⟨m, hle, List.mem_append_left _ hm⟩
      · exact ⟨k, Nat.le_refl k, List.mem_append_right _ hmem⟩
  refine ⟨h.mem_seen, h.nodup, h.distance, fun e he => h.walk e (List.mem_cons_of_mem _ he), ?_,
    fun e he f hf => h.close e (List.mem_cons_of_mem _ he) f (List.mem_cons_of_mem _ hf), ?_,
    fun e he t hedge => ?_⟩
  · exact h.ascending.sublist ((List.sublist_cons_self _ queue).append_left found)
  · obtain ⟨j, hj, hmem⟩ := hstay h.start
    obtain rfl : j = 0 := Nat.le_zero.1 hj
    exact hmem
  · obtain ⟨k, hk, hmem⟩ := h.past e he t hedge
    obtain ⟨j, hj, hmem⟩ := hstay hmem
    exact ⟨j, Nat.le_trans hj hk, hmem⟩

/-- A node that is met for the first time is found, and the targets of its edges join the queue. -/
theorem find (h : Reaching net source seen found ((id, n) :: queue)) (hid : id ∉ seen) :
    Reaching net source (seen.insert id) (found ++ [(id, n)])
      (queue ++ (net.targets id).map (·, n + 1)) := by
  have hentries : found ++ [(id, n)] ++ (queue ++ (net.targets id).map (·, n + 1)) =
      (found ++ (id, n) :: queue) ++ (net.targets id).map (·, n + 1) := by simp
  have hnew : ∀ e ∈ (net.targets id).map (·, n + 1), net.Edge id e.1 ∧ e.2 = n + 1 := by
    intro e he
    obtain ⟨t, ht, rfl⟩ := List.mem_map.1 he
    exact ⟨mem_targets.1 ht, rfl⟩
  -- from the first node on, all lengths are `n` or `n + 1`
  have hlow : ∀ e ∈ queue ++ (net.targets id).map (·, n + 1), n ≤ e.2 := by
    intro e he
    rcases List.mem_append.1 he with he | he
    · exact h.le_of_mem_queue (List.mem_cons_of_mem _ he)
    · exact (hnew e he).2 ▸ Nat.le_succ n
  have hhigh : ∀ e ∈ found ++ (id, n) :: queue, e.2 ≤ n + 1 := by
    intro e he
    rcases List.mem_append.1 he with he | he
    · exact Nat.le_succ_of_le ((List.pairwise_append.1 h.ascending).2.2 e he _ List.mem_cons_self)
    · exact h.close _ List.mem_cons_self e he
  constructor
  case mem_seen =>
    intro t
    rw [mem_insert, h.mem_seen, List.map_append, List.mem_append, List.map_singleton,
      List.mem_singleton, or_comm]
  case nodup =>
    rw [List.map_append, List.map_singleton]
    refine List.nodup_append.2 ⟨h.nodup, List.nodup_singleton id, ?_⟩
    rintro t ht u hu rfl
    obtain rfl : t = id := List.mem_singleton.1 hu
    exact hid ((h.mem_seen t).2 ht)
  case distance =>
    refine List.forall_mem_append.2 ⟨h.distance, ?_⟩
    exact List.forall_mem_singleton.2 (h.distance_head hid)
  case walk =>
    refine List.forall_mem_append.2 ⟨fun e he => h.walk e (List.mem_cons_of_mem _ he), ?_⟩
    intro e he
    obtain ⟨hedge, hlength⟩ := hnew e he
    rw [hlength]
    exact (h.walk _ List.mem_cons_self).trans (.step hedge (.refl e.1))
  case ascending =>
    rw [hentries]
    refine List.pairwise_append.2 ⟨h.ascending, ?_, fun e he f hf => ?_⟩
    · exact List.pairwise_map.2 (List.pairwise_of_forall fun _ _ => Nat.le_refl _)
    · exact (hnew f hf).2 ▸ hhigh e he
  case close =>
    intro e he f hf
    have hf' : f.2 ≤ n + 1 := by
      rcases List.mem_append.1 hf with hf | hf
      · exact hhigh f (List.mem_append_right _ (List.mem_cons_of_mem _ hf))
      · exact Nat.le_of_eq (hnew f hf).2
    exact Nat.le_trans hf' (Nat.succ_le_succ (hlow e he))
  case start =>
    rw [hentries]
    exact List.mem_append_left _ h.start
  case past =>
    rw [hentries]
    refine List.forall_mem_append.2 ⟨fun e he t hedge => ?_, ?_⟩
    · obtain ⟨m, hm, hmem⟩ := h.past e he t hedge
      exact ⟨m, hm, List.mem_append_left _ hmem⟩
    · refine List.forall_mem_singleton.2 fun t hedge => ⟨n + 1, Nat.le_refl _, ?_⟩
      exact List.mem_append_right _ (List.mem_map_of_mem (mem_targets.2 hedge))

/-- When the queue is empty, all that a walk leads to has been found. -/
theorem complete (h : Reaching net source seen found []) {t : Nat}
    (hwalk : net.Walk n source t) : t ∈ found.map Prod.fst := by
  rcases h.mem_or_exists hwalk with ⟨m, -, hmem⟩ | ⟨e, he, -⟩
  · rw [List.append_nil] at hmem
    exact List.mem_map_of_mem hmem
  · cases he

/-- The first node that is found is the one where the search began. -/
theorem head?_eq (h : Reaching net source seen found []) :
    (found.map Prod.fst).head? = some source := by
  have hstart := h.start
  have hascending := h.ascending
  rw [List.append_nil] at hstart hascending
  cases found with
  | nil => cases hstart
  | cons e found =>
    have hzero : e.2 = 0 := by
      rcases List.mem_cons.1 hstart with rfl | hmem
      · rfl
      · exact Nat.le_zero.1 (List.rel_of_pairwise_cons hascending hmem)
    have hwalk := (h.distance e List.mem_cons_self).walk
    rw [hzero] at hwalk
    cases hwalk
    rfl

end Reaching

/-! ## The search -/

section

variable {turns next : Nat} {ids out : Array Nat}

theorem getElem?_of_drop {rest : List Nat} (h : ids.toList.drop next = rest) :
    ids[next]? = rest.head? := by
  rw [← h, List.head?_drop, Array.getElem?_toList]

theorem reachableQueue_of_none (hnext : ids[next]? = none) :
    net.reachableQueue turns next ids seen out = .ok out := by
  rw [reachableQueue.eq_def, hnext]

theorem reachableQueue_of_some {node : Node} (hnext : ids[next]? = some id)
    (hnode : net.node? id = some node) :
    net.reachableQueue (turns + 1) next ids seen out =
      if id ∈ seen then net.reachableQueue turns (next + 1) ids seen out
      else net.reachableQueue turns (next + 1) (ids ++ node.edges) (seen.insert id)
        (out.push id) := by
  rw [reachableQueue.eq_def, hnext]
  simp only [hnode]

/-- The search comes to an end before its turns do: a turn takes a node off the queue, and only a
node that is met for the first time gives the queue its edges. -/
theorem exists_reachableQueue (hedges : net.EdgesInRange)
    (h : Reaching net source seen found queue)
    (hids : ids.toList.drop next = queue.map Prod.fst) (hout : out.toList = found.map Prod.fst)
    (hlt : ∀ e ∈ queue, e.1 < net.size)
    (hturns : queue.length + net.unmetEdges (fun _ => True) seen ≤ turns) :
    ∃ out' seen' found', net.reachableQueue turns next ids seen out = .ok out' ∧
      Reaching net source seen' found' [] ∧ out'.toList = found'.map Prod.fst := by
  induction turns generalizing next ids seen out found queue with
  | zero =>
    obtain rfl : queue = [] := List.eq_nil_of_length_eq_zero (by omega)
    exact ⟨out, seen, found, reachableQueue_of_none (getElem?_of_drop hids), h, hout⟩
  | succ turns ih =>
    cases queue with
    | nil => exact ⟨out, seen, found, reachableQueue_of_none (getElem?_of_drop hids), h, hout⟩
    | cons e queue =>
      obtain ⟨id, n⟩ := e
      obtain ⟨hid, hrest⟩ := List.forall_mem_cons.1 hlt
      obtain ⟨node, hnode⟩ := exists_node?_of_lt hid
      have hnext : ids[next]? = some id := getElem?_of_drop hids
      have htail : ids.toList.drop (next + 1) = queue.map Prod.fst := by
        rw [← List.tail_drop, hids, List.map_cons, List.tail_cons]
      rw [List.length_cons] at hturns
      rw [reachableQueue_of_some hnext hnode]
      by_cases hmet : id ∈ seen
      · rw [if_pos hmet]
        exact ih (h.skip hmet) htail hout hrest (by omega)
      · rw [if_neg hmet]
        have hunmet : id ∈ net.unmet (fun _ => True) seen := mem_unmet.2 ⟨hid, hmet, trivial⟩
        have hgive := unmetEdges_insert hunmet
        refine ih (h.find hmet) ?_ ?_ (List.forall_mem_append.2 ⟨hrest, ?_⟩) ?_
        · have hle : next + 1 ≤ ids.toList.length := (Array.getElem?_eq_some_iff.1 hnext).1
          rw [Array.toList_append, List.drop_append_of_le_length hle, htail, List.map_append,
            targets_of_node? hnode, List.map_map]
          exact congrArg _ (List.map_id _).symm
        · rw [Array.toList_push, hout, List.map_append, List.map_singleton]
        · intro e he
          obtain ⟨t, ht, rfl⟩ := List.mem_map.1 he
          exact hedges id t (mem_targets.1 ht)
        · rw [List.length_append, List.length_map]
          omega

end

/-- The nodes that edges lead to from a node are found, each once: first the node itself, and then
the others in the order of their distance from it. -/
theorem reachable_spec (hedges : net.EdgesInRange) (hid : id < net.size) :
    ∃ found, net.reachable id = .ok found ∧ found.Nodup ∧ found.head? = some id ∧
      (∀ t, t ∈ found ↔ ∃ n, net.Walk n id t) ∧
      ∃ distances, List.Forall₂ (net.Distance id) found distances ∧
        distances.Pairwise (· ≤ ·) := by
  have hturns : [(id, 0)].length + net.unmetEdges (fun _ => True) ∅ ≤ net.edgeCount + 1 := by
    have hle := net.unmetEdges_le_edgeCount (fun _ => True) ∅
    rw [List.length_singleton]
    omega
  have hids : #[id].toList.drop 0 = [(id, 0)].map Prod.fst := rfl
  have hnothing : (#[] : Array Nat).toList = ([] : List (Nat × Nat)).map Prod.fst := rfl
  obtain ⟨out, seen, found, hsearch, hdone, hout⟩ := exists_reachableQueue hedges (.begin net id)
    hids hnothing (List.forall_mem_singleton.2 hid) hturns
  have hascending := hdone.ascending
  rw [List.append_nil] at hascending
  refine ⟨found.map Prod.fst, ?_, hdone.nodup, hdone.head?_eq, fun t => ?_, found.map Prod.snd, ?_,
    List.pairwise_map.2 hascending⟩
  · rw [reachable, hsearch, ← hout]
    rfl
  · refine ⟨fun ht => ?_, fun ⟨n, hn⟩ => hdone.complete hn⟩
    obtain ⟨e, he, rfl⟩ := List.mem_map.1 ht
    exact ⟨e.2, (hdone.distance e he).walk⟩
  · rw [List.forall₂_map_left_iff, List.forall₂_map_right_iff]
    exact List.forall₂_same.2 hdone.distance

/-- Node 1 stands in the queue twice, with lengths 1 and 2; node 4 is reached by way of it, and node 3
not at all. -/
theorem reachable_spec_of_cycles :
    let net : Network := ⟨#[⟨.join, #[0, 2, 1]⟩, ⟨.terminal "a", #[2, 4]⟩, ⟨.join, #[1, 0]⟩,
      ⟨.finish, #[0]⟩, ⟨.terminal "b", #[1]⟩]⟩
    net.EdgesInRange ∧ 0 < net.size ∧ net.reachable 0 = .ok [0, 2, 1, 4] ∧
      (∀ t, t ∈ [0, 2, 1, 4] ↔ ∃ n, net.Walk n 0 t) ∧
      ∃ distances, List.Forall₂ (net.Distance 0) [0, 2, 1, 4] distances ∧
        distances.Pairwise (· ≤ ·) := by
  intro net
  have hedges : net.EdgesInRange := forall_edge (by decide)
  have hid : 0 < net.size := by decide
  obtain ⟨found, hfound, -, -, hmem, hdistances⟩ := reachable_spec hedges hid
  have hlist : (net.reachable 0).toOption = some [0, 2, 1, 4] := by decide +kernel
  rw [hfound] at hlist
  obtain rfl : found = [0, 2, 1, 4] := Option.some.inj hlist
  exact ⟨hedges, hid, hfound, hmem, hdistances⟩

end PhraseSearch.Network
