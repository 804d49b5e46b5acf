import PhraseSearch.Automaton.Trim
import PhraseSearch.Proofs.Automaton.Numbering

/-!
# Automata of live segments

The automaton of what has been wired between a start and an end is well formed.  A state is only
numbered when an edge is found that leads to it from a state with a smaller number, so all but the
end can be reached from the start; if the segment is live, they all lead to the end.

    numbers are given to targets of smaller states                     (found_of_numberStates)
    the automaton is well formed, and reached from the start           (wellFormed_of_withoutJoins)
    the automaton of a live segment is trim                            (trim_of_withoutJoins)
-/

namespace PhraseSearch.Network

/-! ## Numbers -/

namespace Numbering

theorem lt_or_mem_numberAll {m : Numbering} {ids : List Nat} {n : Nat}
    (h : n < (m.numberAll ids).2.order.size) : n < m.order.size ∨ n ∈ (m.numberAll ids).1 := by
  induction ids generalizing m with
  | nil => exact .inl h
  | cons id ids ih =>
    have h : n < ((m.number id).2.numberAll ids).2.order.size := h
    have hone : n < (m.number id).2.order.size → n < m.order.size ∨ n = (m.number id).1 := by
      rw [number]
      split
      · exact .inl
      · intro hlt
        rw [Array.size_push] at hlt
        show n < m.order.size ∨ n = m.order.size
        omega
    rcases ih h with h | h
    · rcases hone h with h | rfl
      · exact .inl h
      · exact .inr List.mem_cons_self
    · exact .inr (List.mem_cons_of_mem _ h)

/-- Whether every number but those of the ends has been given to a target of a smaller state. -/
def Found (m : Numbering) (states : Array Automaton.State) : Prop :=
  ∀ n, 2 ≤ n → n < m.order.size → ∃ k < n, ∃ s : Automaton.State, states[k]? = some s ∧ n ∈ s.edges

theorem Found.next {m : Numbering} {states : Array Automaton.State} (h : m.Found states)
    (hlt : states.size < m.order.size) (ids : List Nat) (label : Automaton.Label) :
    (m.numberAll ids).2.Found (states.push ⟨label, (m.numberAll ids).1⟩) := by
  intro n htwo hn
  by_cases hold : n < m.order.size
  · obtain ⟨k, hk, s, hs, hmem⟩ := h n htwo hold
    refine ⟨k, hk, s, ?_, hmem⟩
    rw [Array.getElem?_push, if_neg (Nat.ne_of_lt (Array.getElem?_eq_some_iff.1 hs).1)]
    exact hs
  · refine ⟨states.size, by omega, _, Array.getElem?_push_size, ?_⟩
    exact (lt_or_mem_numberAll hn).resolve_left hold

end Numbering

variable {net : Network} {m : Numbering} {states : Array Automaton.State}

theorem found_of_numberStates {steps turns : Nat} {out : Array Automaton.State}
    (hconsistent : m.Consistent) (hle : states.size ≤ m.order.size) (h : m.Found states)
    (hout : net.numberStates steps turns m states = .ok out) {n : Nat} (htwo : 2 ≤ n)
    (hn : n < out.size) : ∃ k < n, ∃ s : Automaton.State, out[k]? = some s ∧ n ∈ s.edges := by
  induction turns generalizing m states with
  | zero =>
    cases hid : m.order[states.size]? with
    | none =>
      obtain rfl := eq_of_numberStates hid hout
      exact h n htwo (Nat.lt_of_lt_of_le hn hle)
    | some id =>
      obtain ⟨_, _, _, -, -, -, hturns⟩ := exists_of_numberStates hid hout
      cases hturns
  | succ turns ih =>
    cases hid : m.order[states.size]? with
    | none =>
      obtain rfl := eq_of_numberStates hid hout
      exact h n htwo (Nat.lt_of_lt_of_le hn hle)
    | some id =>
      obtain ⟨rest, visible, label, -, -, hrest, hturns⟩ := exists_of_numberStates hid hout
      cases hturns
      have hlt := (Array.getElem?_eq_some_iff.1 hid).1
      obtain ⟨hconsistent', hgrows, -⟩ := Numbering.numberAll_spec hconsistent visible
      refine ih hconsistent' ?_ (h.next hlt visible label) hrest
      rw [Array.size_push]
      exact (Array.getElem?_eq_some_iff.1 (hgrows _ _ hid)).1

/-! ## Automata -/

variable {base : Network} {ends : Segment} {hi last : Nat} {l f : Language String} {a : Automaton}

/-- What is known of the states of what has been wired between a start and an end. -/
structure Wired (net : Network) (ends : Segment) (m : Numbering) (a : Automaton) : Prop where
  stated : Stated net m a.states
  size_le : m.order.size ≤ a.states.size
  start : m.order[Automaton.start]? = some ends.entry
  finish : m.order[Automaton.finish]? = some ends.exit
  found : ∀ n, 2 ≤ n → n < a.size → ∃ k < n, n ∈ a.edges k

theorem exists_wired (hwiring : Wiring base net ends (.start, .finish) hi last l f)
    (ha : net.withoutJoins ends.entry ends.exit = .ok a) : ∃ m, Wired net ends m a := by
  have hends : Stated net _ #[] := stated_ends hwiring.entry_ne
  have hnumbers := numberStates_of_withoutJoins ha
  obtain ⟨m, hstated, hgrows, hsize⟩ := numberStates_eq_ok hends hnumbers
  refine ⟨m, hstated, hsize, hgrows 0 _ rfl, hgrows 1 _ rfl, fun n htwo hn => ?_⟩
  obtain ⟨k, hk, s, hs, hmem⟩ := found_of_numberStates hends.consistent (Nat.zero_le _)
    (fun n htwo (hlt : n < 2) => absurd htwo (Nat.not_le_of_lt hlt)) hnumbers htwo hn
  exact ⟨k, hk, (Stated.edges_eq hs).symm ▸ hmem⟩

namespace Wired

variable {n : Nat}

theorem exists_order (h : Wired net ends m a) (hn : n < a.size) :
    ∃ id, m.order[n]? = some id := by
  obtain ⟨id, _, hid, -⟩ := h.stated.state n _ (Array.getElem?_eq_getElem hn)
  exact ⟨id, hid⟩

theorem edges_finish (h : Wired net ends m a)
    (hwiring : Wiring base net ends (.start, .finish) hi last l f) :
    a.edges Automaton.finish = [] := by
  refine List.eq_nil_iff_forall_not_mem.2 fun k hk => ?_
  obtain ⟨t, -, hsees, -⟩ := h.stated.exists_target h.size_le h.finish hk
  exact Chain.targets_ne_nil (.last hsees) hwiring.sink

theorem reaches (h : Wired net ends m a)
    (hwiring : Wiring base net ends (.start, .finish) hi last l f) (hn : n < a.size)
    (hfinish : n ≠ Automaton.finish) : a.Reaches Automaton.start n := by
  induction n using Nat.strongRecOn with
  | ind n ih =>
    by_cases hstart : n = Automaton.start
    · exact .inl hstart.symm
    · have htwo : 2 ≤ n := by
        have : n ≠ 0 := hstart
        have : n ≠ 1 := hfinish
        omega
      obtain ⟨k, hk, hedge⟩ := h.found n htwo hn
      refine (ih k hk (Nat.lt_trans hk hn) ?_).snoc hedge
      rintro rfl
      rw [h.edges_finish hwiring] at hedge
      cases hedge

/-- Paths lead where walks do. -/
theorem leads (h : Wired net ends m a) {id : Nat} (hreaches : a.Reaches Automaton.start n)
    (hn : m.order[n]? = some id) : net.Leads ends.entry id := by
  rcases hreaches with rfl | ⟨between, hpath⟩
  · rw [h.start] at hn
    obtain rfl := Option.some.inj hn
    exact .refl net _
  · obtain ⟨ids, other, hother, hchain, -⟩ :=
      h.stated.exists_chain_of_path h.size_le hpath h.start
    rw [hn] at hother
    obtain rfl := Option.some.inj hother
    exact ⟨_, hchain.reads⟩

/-- What leads to the end in the network does so in the automaton. -/
theorem reaches_finish (h : Wired net ends m a)
    (hwiring : Wiring base net ends (.start, .finish) hi last l f) {id : Nat}
    (hn : m.order[n]? = some id) (hleads : net.Leads id ends.exit) :
    a.Reaches n Automaton.finish := by
  have hkept : net.Kept ends.exit := ⟨_, hwiring.exit_kind, by simp⟩
  obtain ⟨w, hw⟩ := hleads
  rcases hw.exists_chain hkept with ⟨rfl, -⟩ | ⟨ids, hchain, -⟩
  · exact .inl (h.stated.consistent.inj hn h.finish)
  · obtain ⟨between, hpath, -⟩ :=
      h.stated.exists_path_of_chain h.size_le hchain hkept hn h.finish
    exact .inr ⟨between, hpath⟩

end Wired

/-- What has been wired between a start and an end becomes a well-formed automaton. -/
theorem wellFormed_of_withoutJoins
    (hwiring : Wiring base net ends (.start, .finish) hi last l f)
    (ha : net.withoutJoins ends.entry ends.exit = .ok a) : a.WellFormed := by
  obtain ⟨m, h⟩ := exists_wired hwiring ha
  obtain ⟨⟨label, edges⟩, -, hs, hlabel, -⟩ := h.stated.exists_state h.size_le h.start
  obtain ⟨⟨label', edges'⟩, -, hs', hlabel', -⟩ := h.stated.exists_state h.size_le h.finish
  rw [hwiring.entry_kind] at hlabel
  rw [hwiring.exit_kind] at hlabel'
  obtain rfl : Automaton.Label.start = label := Option.some.inj hlabel
  obtain rfl : Automaton.Label.finish = label' := Option.some.inj hlabel'
  have hnone := h.edges_finish hwiring
  rw [Stated.edges_eq hs'] at hnone
  obtain rfl : edges' = [] := hnone
  refine ⟨⟨edges, hs⟩, hs', fun n hn hstart hfinish => ?_, fun n t ht => ?_, h.stated.nodup_edges,
    fun n hn => ?_⟩
  · obtain ⟨id, hid⟩ := h.exists_order hn
    obtain ⟨⟨label, edges⟩, -, hs, hlabel, -⟩ := h.stated.exists_state h.size_le hid
    obtain ⟨w, hw⟩ := h.leads (h.reaches hwiring hn hfinish) hid
    have hmem := hw.mem_of_closed hwiring.region.closed hwiring.entry_mem
    have hentry : id ≠ ends.entry := by
      rintro rfl
      exact hstart (h.stated.consistent.inj hid h.start)
    have hexit : id ≠ ends.exit := by
      rintro rfl
      exact hfinish (h.stated.consistent.inj hid h.finish)
    rcases hwiring.simple id hmem hentry hexit with hkind | ⟨list, hkind⟩
    · rw [hkind] at hlabel
      cases hlabel
    · rw [hkind] at hlabel
      obtain rfl : Automaton.Label.word list none = label := Option.some.inj hlabel
      exact ⟨list, edges, hs⟩
  · obtain ⟨id, hid⟩ := h.exists_order (Automaton.lt_size_of_mem_edges ht)
    obtain ⟨target, htarget, -⟩ := h.stated.exists_target h.size_le hid ht
    exact Nat.lt_of_lt_of_le (Array.getElem?_eq_some_iff.1 htarget).1 h.size_le
  · have hlt := Automaton.lt_size_of_mem_edges hn
    have hfinish : n ≠ Automaton.finish := by
      rintro rfl
      rw [h.edges_finish hwiring] at hn
      cases hn
    obtain ⟨id, hid⟩ := h.exists_order hlt
    obtain ⟨w, hw⟩ := h.leads (h.reaches hwiring hlt hfinish) hid
    have hmem := hw.mem_of_closed hwiring.region.closed hwiring.entry_mem
    obtain ⟨t, ht, hsees, -⟩ := h.stated.exists_target h.size_le hid hn
    rw [h.start] at ht
    obtain rfl := Option.some.inj ht
    obtain ⟨-, x, hx, hedge⟩ := hsees.mem_of_closed hwiring.region.closed hmem
    exact hwiring.source x hx hedge

/-- If all that has been wired leads to the end, the automaton is trim. -/
theorem trim_of_withoutJoins (hwiring : Wiring base net ends (.start, .finish) hi last l f)
    (hlive : ends.Live net ends.exit) (ha : net.withoutJoins ends.entry ends.exit = .ok a) :
    a.Trim := by
  obtain ⟨m, h⟩ := exists_wired hwiring ha
  have hreaches : ∀ n < a.size, a.Reaches Automaton.start n := by
    intro n hn
    by_cases hfinish : n = Automaton.finish
    · rw [hfinish]
      exact h.reaches_finish hwiring h.start (hlive.leads_exit (.refl net _))
    · exact h.reaches hwiring hn hfinish
  refine ⟨hreaches, fun n hn => ?_⟩
  obtain ⟨id, hid⟩ := h.exists_order hn
  exact h.reaches_finish hwiring hid (hlive.leads_exit (h.leads (hreaches n hn) hid))

end PhraseSearch.Network
