import PhraseSearch.Automaton.Path
import PhraseSearch.Proofs.Network.Connectors
import PhraseSearch.Proofs.Network.Wiring

/-!
# Automata of networks

The states of the automaton of a network are its kept nodes, numbered as they are found.  A number
stands for one node and a node has one number, so paths through the automaton are chains of kept
nodes through the network, and the automaton accepts what is read from its start to its end.

    a number stands for the node that it was given to                  (numberAll_spec)
    every state has the edges to what its node sees                    (numberStates_eq_ok)
    the automaton accepts what the network reads                       (accepts_withoutJoins)
-/

namespace PhraseSearch.Network

/-! ## Numbers -/

namespace Numbering

/-- Whether numbers and nodes belong to each other. -/
def Consistent (m : Numbering) : Prop :=
  ∀ id n : Nat, m.numbers[id]? = some n ↔ m.order[n]? = some id

/-- Whether every number keeps its node. -/
def Grows (m m' : Numbering) : Prop :=
  ∀ n id : Nat, m.order[n]? = some id → m'.order[n]? = some id

variable {m m' m'' : Numbering}

theorem Grows.refl (m : Numbering) : m.Grows m := fun _ _ h => h

theorem Grows.trans (h : m.Grows m') (h' : m'.Grows m'') : m.Grows m'' :=
  fun n id hn => h' n id (h n id hn)

theorem Consistent.inj (h : m.Consistent) {i j id : Nat} (hi : m.order[i]? = some id)
    (hj : m.order[j]? = some id) : i = j := by
  have hi' := (h id i).2 hi
  rw [(h id j).2 hj] at hi'
  exact (Option.some.inj hi').symm

theorem number_spec (h : m.Consistent) (id : Nat) :
    (m.number id).2.Consistent ∧ m.Grows (m.number id).2 ∧
      (m.number id).2.order[(m.number id).1]? = some id := by
  rw [number]
  cases hid : m.numbers[id]? with
  | some n => exact ⟨h, .refl m, (h id n).1 hid⟩
  | none =>
    have hnew : ∀ n : Nat, m.order[n]? ≠ some id := by
      intro n hn
      rw [(h id n).2 hn] at hid
      cases hid
    have hgrows : ∀ n other : Nat, m.order[n]? = some other →
        (m.order.push id)[n]? = some other := by
      intro n other hn
      have hlt := (Array.getElem?_eq_some_iff.1 hn).1
      rw [Array.getElem?_push, if_neg (Nat.ne_of_lt hlt)]
      exact hn
    refine ⟨?_, hgrows, Array.getElem?_push_size⟩
    intro other n
    show (m.numbers.insert id m.order.size)[other]? = some n ↔
      (m.order.push id)[n]? = some other
    rw [Std.TreeMap.getElem?_insert, Array.getElem?_push]
    by_cases hother : id = other
    · subst hother
      rw [if_pos Std.ReflCmp.compare_self]
      by_cases hn : n = m.order.size
      · simp [hn]
      · rw [if_neg hn]
        exact iff_of_false (fun heq => hn (Option.some.inj heq).symm) (hnew n)
    · have hne : ¬ compare id other = .eq := by simpa using hother
      rw [if_neg hne]
      by_cases hn : n = m.order.size
      · have hnone : m.order[n]? = none := by rw [hn]; exact Array.getElem?_size
        rw [if_pos hn]
        refine iff_of_false (fun heq => ?_) fun heq => hother (Option.some.inj heq)
        rw [(h other n).1 heq] at hnone
        cases hnone
      · rw [if_neg hn]
        exact h other n

theorem map_order_congr (h : m.Grows m') {ns ids : List Nat}
    (hns : ns.map (m.order[·]?) = ids.map some) : ns.map (m'.order[·]?) = ids.map some := by
  rw [← hns]
  refine List.map_congr_left fun n hn => ?_
  have hmem : m.order[n]? ∈ ids.map some := by
    rw [← hns]
    exact List.mem_map.2 ⟨n, hn, rfl⟩
  obtain ⟨id, -, hid⟩ := List.mem_map.1 hmem
  rw [h n id hid.symm, hid]

theorem numberAll_spec (h : m.Consistent) (ids : List Nat) :
    (m.numberAll ids).2.Consistent ∧ m.Grows (m.numberAll ids).2 ∧
      (m.numberAll ids).1.map ((m.numberAll ids).2.order[·]?) = ids.map some := by
  induction ids generalizing m with
  | nil => exact ⟨h, .refl m, rfl⟩
  | cons id ids ih =>
    obtain ⟨hone, hgrows, hnumber⟩ := number_spec h id
    obtain ⟨hall, hmore, hnumbers⟩ := ih hone
    refine ⟨hall, hgrows.trans hmore, ?_⟩
    rw [numberAll, List.map_cons, List.map_cons, hnumbers]
    congr 1
    exact hmore _ _ hnumber

end Numbering

/-! ## States -/

/-- What holds while states are made: every state is that of the node of its number, with edges to
the kept nodes that the node sees. -/
structure Stated (net : Network) (m : Numbering) (states : Array Automaton.State) : Prop where
  consistent : m.Consistent
  state : ∀ (n : Nat) (s : Automaton.State), states[n]? = some s →
    ∃ (id : Nat) (visible : List Nat), m.order[n]? = some id ∧
    (net.kind? id).bind stateLabel? = some s.label ∧
    visible.Nodup ∧ (∀ t, t ∈ visible ↔ net.Sees id t ∧ net.Kept t) ∧
    s.edges.map (m.order[·]?) = visible.map some

variable {net : Network} {m : Numbering} {states : Array Automaton.State}

theorem Stated.next (h : Stated net m states) {steps id : Nat} {visible : List Nat}
    {label : Automaton.Label} (hid : m.order[states.size]? = some id)
    (hvisible : net.visibleWithin steps id = .ok visible)
    (hlabel : (net.kind? id).bind stateLabel? = some label) :
    Stated net (m.numberAll visible).2 (states.push ⟨label, (m.numberAll visible).1⟩) := by
  obtain ⟨hconsistent, hgrows, hnumbers⟩ := Numbering.numberAll_spec h.consistent visible
  refine ⟨hconsistent, fun n s hs => ?_⟩
  rw [Array.getElem?_push] at hs
  split at hs
  · next hn =>
    cases hs
    obtain ⟨hnodup, hmem⟩ := visibleWithin_eq_ok hvisible
    exact ⟨id, visible, hn ▸ hgrows _ _ hid, hlabel, hnodup, hmem, hnumbers⟩
  · obtain ⟨other, seen, hother, hlabel', hnodup, hmem, hedges⟩ := h.state n s hs
    exact ⟨other, seen, hgrows _ _ hother, hlabel', hnodup, hmem,
      Numbering.map_order_congr hgrows hedges⟩

/-- When all numbers have their states, there are no further ones. -/
theorem eq_of_numberStates {steps turns : Nat} {out : Array Automaton.State}
    (hnone : m.order[states.size]? = none)
    (hout : net.numberStates steps turns m states = .ok out) : out = states := by
  unfold numberStates at hout
  rw [hnone] at hout
  exact (Except.ok.inj hout).symm

/-- What happens when the next number is that of a certain node. -/
theorem exists_of_numberStates {steps turns id : Nat} {out : Array Automaton.State}
    (hid : m.order[states.size]? = some id)
    (hout : net.numberStates steps turns m states = .ok out) : ∃ rest visible label,
      net.visibleWithin steps id = .ok visible ∧
      (net.kind? id).bind stateLabel? = some label ∧
      net.numberStates steps rest (m.numberAll visible).2
        (states.push ⟨label, (m.numberAll visible).1⟩) = .ok out ∧ turns = rest + 1 := by
  unfold numberStates at hout
  rw [hid] at hout
  cases turns with
  | zero => cases hout
  | succ rest =>
    cases hvisible : net.visibleWithin steps id with
    | error fault =>
      simp only [hvisible] at hout
      cases hout
    | ok visible =>
      cases hlabel : (net.kind? id).bind stateLabel? with
      | none =>
        simp only [hvisible, hlabel] at hout
        cases hout
      | some label =>
        simp only [hvisible, hlabel] at hout
        exact ⟨rest, visible, label, rfl, rfl, hout, rfl⟩

theorem numberStates_eq_ok {steps turns : Nat} {out : Array Automaton.State}
    (h : Stated net m states) (hout : net.numberStates steps turns m states = .ok out) :
    ∃ m', Stated net m' out ∧ m.Grows m' ∧ m'.order.size ≤ out.size := by
  induction turns generalizing m states with
  | zero =>
    cases hid : m.order[states.size]? with
    | none =>
      obtain rfl := eq_of_numberStates hid hout
      exact ⟨m, h, .refl m, Array.getElem?_eq_none_iff.1 hid⟩
    | some id =>
      obtain ⟨_, _, _, -, -, -, hturns⟩ := exists_of_numberStates hid hout
      cases hturns
  | succ turns ih =>
    cases hid : m.order[states.size]? with
    | none =>
      obtain rfl := eq_of_numberStates hid hout
      exact ⟨m, h, .refl m, Array.getElem?_eq_none_iff.1 hid⟩
    | some id =>
      obtain ⟨rest, visible, label, hvisible, hlabel, hrest, hturns⟩ :=
        exists_of_numberStates hid hout
      cases hturns
      obtain ⟨m', hstated, hgrows, hsize⟩ := ih (h.next hid hvisible hlabel) hrest
      exact ⟨m', hstated,
        (Numbering.numberAll_spec h.consistent visible).2.1.trans hgrows, hsize⟩

theorem list?_of_stateLabel? {k : NodeKind} {label : Automaton.Label} {list : String}
    (h : stateLabel? k = some label) : label.list? = some list ↔ k = .terminal list := by
  cases k <;> cases h <;> simp [Automaton.Label.list?, eq_comm]

namespace Stated

/-! ## Edges and labels -/

variable {a : Automaton} {n id : Nat}

theorem exists_state (h : Stated net m a.states) (hsize : m.order.size ≤ a.states.size)
    (hn : m.order[n]? = some id) : ∃ (s : Automaton.State) (visible : List Nat),
      a.states[n]? = some s ∧ (net.kind? id).bind stateLabel? = some s.label ∧
      visible.Nodup ∧ (∀ t, t ∈ visible ↔ net.Sees id t ∧ net.Kept t) ∧
      s.edges.map (m.order[·]?) = visible.map some := by
  have hlt : n < a.states.size :=
    Nat.lt_of_lt_of_le (Array.getElem?_eq_some_iff.1 hn).1 hsize
  have hs : a.states[n]? = some a.states[n] := Array.getElem?_eq_getElem hlt
  obtain ⟨other, visible, hother, hlabel, hnodup, hmem, hedges⟩ := h.state n _ hs
  rw [hn] at hother
  cases hother
  exact ⟨_, visible, hs, hlabel, hnodup, hmem, hedges⟩

theorem edges_eq {s : Automaton.State} (hs : a.states[n]? = some s) : a.edges n = s.edges := by
  rw [Automaton.edges, hs]

theorem exists_target (h : Stated net m a.states) (hsize : m.order.size ≤ a.states.size)
    (hn : m.order[n]? = some id) {k : Nat} (hk : k ∈ a.edges n) :
    ∃ t, m.order[k]? = some t ∧ net.Sees id t ∧ net.Kept t := by
  obtain ⟨s, visible, hs, -, -, hmem, hedges⟩ := h.exists_state hsize hn
  rw [edges_eq hs] at hk
  have hkmem : m.order[k]? ∈ visible.map some := by
    rw [← hedges]
    exact List.mem_map.2 ⟨k, hk, rfl⟩
  obtain ⟨t, ht, hkt⟩ := List.mem_map.1 hkmem
  exact ⟨t, hkt.symm, (hmem t).1 ht⟩

theorem exists_edge (h : Stated net m a.states) (hsize : m.order.size ≤ a.states.size)
    (hn : m.order[n]? = some id) {t : Nat} (hsees : net.Sees id t) (hkept : net.Kept t) :
    ∃ k ∈ a.edges n, m.order[k]? = some t := by
  obtain ⟨s, visible, hs, -, -, hmem, hedges⟩ := h.exists_state hsize hn
  have ht : some t ∈ s.edges.map (m.order[·]?) := by
    rw [hedges]
    exact List.mem_map.2 ⟨t, (hmem t).2 ⟨hsees, hkept⟩, rfl⟩
  obtain ⟨k, hk, hkt⟩ := List.mem_map.1 ht
  exact ⟨k, (edges_eq hs).symm ▸ hk, hkt⟩

/-- No edge is there twice. -/
theorem nodup_edges (h : Stated net m a.states) (n : Nat) : (a.edges n).Nodup := by
  cases hs : a.states[n]? with
  | none =>
    rw [Automaton.edges, hs]
    exact List.nodup_nil
  | some s =>
    obtain ⟨id, visible, -, -, hnodup, -, hedges⟩ := h.state n s hs
    rw [edges_eq hs]
    refine List.Nodup.of_map (m.order[·]?) ?_
    rw [hedges]
    exact hnodup.map (Option.some_injective Nat)

theorem list?_eq_some_iff (h : Stated net m a.states) (hsize : m.order.size ≤ a.states.size)
    (hn : m.order[n]? = some id) {list : String} :
    a.list? n = some list ↔ net.kind? id = some (.terminal list) := by
  obtain ⟨s, visible, hs, hlabel, -⟩ := h.exists_state hsize hn
  obtain ⟨k, hk, hlabel⟩ := Option.bind_eq_some_iff.1 hlabel
  rw [Automaton.list?, hs, Option.bind_some, hk, Option.some.injEq]
  exact list?_of_stateLabel? hlabel

/-! ## Paths -/

theorem exists_chain_of_path (h : Stated net m a.states) (hsize : m.order.size ≤ a.states.size)
    {target : Nat} {between : List Nat} (hpath : a.Path n between target)
    (hn : m.order[n]? = some id) : ∃ ids last, m.order[target]? = some last ∧
      net.Chain id ids last ∧ between.map (m.order[·]?) = ids.map some := by
  induction hpath generalizing id with
  | last edge =>
    obtain ⟨t, ht, hsees, -⟩ := h.exists_target hsize hn edge
    exact ⟨[], t, ht, .last hsees, rfl⟩
  | step edge _ ih =>
    obtain ⟨t, ht, hsees, hkept⟩ := h.exists_target hsize hn edge
    obtain ⟨ids, last, hlast, hchain, hids⟩ := ih ht
    refine ⟨t :: ids, last, hlast, .step hsees hkept hchain, ?_⟩
    rw [List.map_cons, List.map_cons, hids, ht]

theorem exists_path_of_chain (h : Stated net m a.states) (hsize : m.order.size ≤ a.states.size)
    {target last : Nat} {ids : List Nat} (hchain : net.Chain id ids last) (hlast : net.Kept last)
    (hn : m.order[n]? = some id) (htarget : m.order[target]? = some last) :
    ∃ between, a.Path n between target ∧ between.map (m.order[·]?) = ids.map some := by
  induction hchain generalizing n with
  | last sees =>
    obtain ⟨k, hk, hkt⟩ := h.exists_edge hsize hn sees hlast
    obtain rfl := h.consistent.inj hkt htarget
    exact ⟨[], .last hk, rfl⟩
  | step sees kept _ ih =>
    obtain ⟨k, hk, hkt⟩ := h.exists_edge hsize hn sees kept
    obtain ⟨between, hpath, hbetween⟩ := ih hlast hkt htarget
    refine ⟨k :: between, .step hk hpath, ?_⟩
    rw [List.map_cons, List.map_cons, hbetween, hkt]

end Stated

/-! ## Acceptance -/

theorem Sees.mem_of_closed {s : Set Nat} (hs : ∀ i j, i ∈ s → net.Edge i j → j ∈ s) {u t : Nat}
    (h : net.Sees u t) (hu : u ∈ s) : t ∈ s ∧ ∃ x ∈ s, net.Edge x t := by
  induction h with
  | edge edge => exact ⟨hs _ _ hu edge, _, hu, edge⟩
  | past edge _ _ ih => exact ih (hs _ _ hu edge)

theorem Chain.targets_ne_nil {u v : Nat} {between : List Nat} (h : net.Chain u between v) :
    net.targets u ≠ [] := by
  have hsees : ∃ t, net.Sees u t := by
    cases h with
    | last sees => exact ⟨_, sees⟩
    | step sees => exact ⟨_, sees⟩
  obtain ⟨t, hsees⟩ := hsees
  have hedge : ∃ x, net.Edge u x := by
    cases hsees with
    | edge edge => exact ⟨_, edge⟩
    | past edge => exact ⟨_, edge⟩
  obtain ⟨x, hedge⟩ := hedge
  intro hnil
  rw [← mem_targets, hnil] at hedge
  cases hedge

variable {base : Network} {ends : Segment} {kinds : NodeKind × NodeKind} {hi last : Nat}
  {l f : Language String}

/-- Between the ends there are words only: no edge leads back to the first end, and none leaves the
other. -/
theorem Chain.terminal (hwiring : Wiring base net ends kinds hi last l f) {u : Nat}
    {ids : List Nat} (h : net.Chain u ids ends.exit) (hu : u ∈ Set.Ico base.size hi) :
    ∀ t ∈ ids, ∃ list, net.kind? t = some (.terminal list) := by
  generalize hv : ends.exit = v at h
  induction h with
  | last => exact nofun
  | @step source next target between sees kept rest ih =>
    obtain ⟨hnext, x, hx, hedge⟩ := sees.mem_of_closed hwiring.region.closed hu
    intro t ht
    rcases List.mem_cons.1 ht with rfl | ht
    · have hentry : t ≠ ends.entry := by
        rintro rfl
        exact hwiring.source x hx hedge
      have hexit : t ≠ ends.exit := by
        rintro rfl
        exact rest.targets_ne_nil hwiring.sink
      rcases hwiring.simple t hnext hentry hexit with hjoin | hlist
      · obtain ⟨k, hk, hne⟩ := kept
        rw [hjoin] at hk
        exact absurd (Option.some.inj hk).symm hne
      · exact hlist
    · exact ih hnext hv t ht

theorem Stated.map_list?_eq {a : Automaton} (h : Stated net m a.states)
    (hsize : m.order.size ≤ a.states.size) {between ids : List Nat}
    (hids : between.map (m.order[·]?) = ids.map some)
    (hterminal : ∀ t ∈ ids, ∃ list, net.kind? t = some (.terminal list)) :
    between.map a.list? = (ids.flatMap net.label).map some := by
  induction between generalizing ids with
  | nil =>
    obtain rfl : ids = [] := by simpa using hids.symm
    rfl
  | cons n between ih =>
    cases ids with
    | nil => cases hids
    | cons id ids =>
      obtain ⟨hn, hrest⟩ := List.cons_eq_cons.1 hids
      obtain ⟨list, hkind⟩ := hterminal id (by simp)
      have hlist : a.list? n = some list := (h.list?_eq_some_iff hsize hn).2 hkind
      have hlabel : net.label id = [list] := by rw [label, hkind]
      rw [List.map_cons, hlist, ih hrest fun t ht => hterminal t (List.mem_cons_of_mem _ ht),
        List.flatMap_cons, hlabel]
      rfl

theorem stated_ends {start finish : Nat} (hne : start ≠ finish) :
    Stated net ⟨((∅ : Std.TreeMap Nat Nat).insert start Automaton.start).insert finish
      Automaton.finish, #[start, finish]⟩ #[] := by
  refine ⟨fun id n => ?_, fun n s hs => by cases hs⟩
  show (((∅ : Std.TreeMap Nat Nat).insert start 0).insert finish 1)[id]? = some n ↔
    #[start, finish][n]? = some id
  rw [Std.TreeMap.getElem?_insert, Std.TreeMap.getElem?_insert]
  by_cases hfinish : finish = id
  · subst hfinish
    rw [if_pos Std.ReflCmp.compare_self]
    match n with
    | 0 => simpa using hne
    | 1 => simp
    | n + 2 => simp
  · have hfinish' : ¬ compare finish id = .eq := by simpa using hfinish
    rw [if_neg hfinish']
    by_cases hstart : start = id
    · subst hstart
      rw [if_pos Std.ReflCmp.compare_self]
      match n with
      | 0 => simp
      | 1 => simpa using hfinish
      | n + 2 => simp
    · have hstart' : ¬ compare start id = .eq := by simpa using hstart
      rw [if_neg hstart']
      match n with
      | 0 => simpa using hstart
      | 1 => simpa using hfinish
      | n + 2 => simp

theorem numberStates_of_withoutJoins {start finish : Nat} {a : Automaton}
    (h : net.withoutJoins start finish = .ok a) :
    net.numberStates (net.edgeCount + 1) (net.size + 1)
      ⟨((∅ : Std.TreeMap Nat Nat).insert start Automaton.start).insert finish
        Automaton.finish, #[start, finish]⟩ #[] = .ok a.states := by
  rw [withoutJoins] at h
  cases hstates : net.numberStates (net.edgeCount + 1) (net.size + 1)
      ⟨((∅ : Std.TreeMap Nat Nat).insert start Automaton.start).insert finish
        Automaton.finish, #[start, finish]⟩ #[] with
  | error fault =>
    simp only [hstates] at h
    cases h
  | ok states =>
    simp only [hstates] at h
    cases h
    rfl

/-- What has been wired between a start and an end is what the automaton without the connectors
accepts; none of its edges is there twice. -/
theorem accepts_withoutJoins {a : Automaton}
    (hwiring : Wiring base net ends (.start, .finish) hi last l f)
    (ha : net.withoutJoins ends.entry ends.exit = .ok a) :
    (∀ w, a.Accepts w ↔ w ∈ f) ∧ ∀ n, (a.edges n).Nodup := by
  obtain ⟨m, hstated, hgrows, hsize⟩ :=
    numberStates_eq_ok (stated_ends hwiring.entry_ne) (numberStates_of_withoutJoins ha)
  have hstart : m.order[Automaton.start]? = some ends.entry := hgrows 0 _ rfl
  have hfinish : m.order[Automaton.finish]? = some ends.exit := hgrows 1 _ rfl
  have hexit : net.Kept ends.exit := ⟨_, hwiring.exit_kind, by simp⟩
  refine ⟨fun w => ?_, hstated.nodup_edges⟩
  rw [← hwiring.reads_exit, reads_iff_chain hwiring.entry_ne hexit, hwiring.entry_label,
    hwiring.exit_label]
  simp only [List.nil_append, List.append_nil]
  constructor
  · rintro ⟨between, hpath, hlists⟩
    obtain ⟨ids, last, hlast, hchain, hids⟩ := hstated.exists_chain_of_path hsize hpath hstart
    rw [hfinish] at hlast
    cases hlast
    have hterminal := hchain.terminal hwiring hwiring.entry_mem
    rw [hstated.map_list?_eq hsize hids hterminal] at hlists
    exact ⟨ids, hchain, (List.map_injective_iff.2 (Option.some_injective _) hlists).symm⟩
  · rintro ⟨ids, hchain, rfl⟩
    obtain ⟨between, hpath, hids⟩ :=
      hstated.exists_path_of_chain hsize hchain hexit hstart hfinish
    have hterminal := hchain.terminal hwiring hwiring.entry_mem
    exact ⟨between, hpath, hstated.map_list?_eq hsize hids hterminal⟩

end PhraseSearch.Network
