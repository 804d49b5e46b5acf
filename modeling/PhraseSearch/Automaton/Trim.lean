import PhraseSearch.Automaton.Path

/-!
# Trim automata

In a *well-formed* automaton the first state is the start, the second one the end, and every other
one a word, and paths can only run from the start to the end.  It is *trim* if every state is on a
way from the start to the end.

    what accepting paths pass in a well-formed automaton               (WellFormed.exists_list?)
-/

namespace PhraseSearch.Automaton

/-- Whether edges lead from one state to another, in any number of steps, or none. -/
def Reaches (a : Automaton) (source target : Nat) : Prop :=
  source = target ∨ ∃ between, a.Path source between target

/-- The shape of automata that have been made for a grammar, before anything is bound. -/
structure WellFormed (a : Automaton) : Prop where
  start_state : ∃ edges, a.states[start]? = some ⟨.start, edges⟩
  /-- no edge leaves the end -/
  finish_state : a.states[finish]? = some ⟨.finish, []⟩
  word_state : ∀ n < a.size, n ≠ start → n ≠ finish →
    ∃ list edges, a.states[n]? = some ⟨.word list none, edges⟩
  target_lt : ∀ n, ∀ target ∈ a.edges n, target < a.size
  nodup : ∀ n, (a.edges n).Nodup
  /-- no edge leads to the start -/
  start_notMem : ∀ n, start ∉ a.edges n

/-- Whether every state is on a way from the start to the end. -/
structure Trim (a : Automaton) : Prop where
  from_start : ∀ n < a.size, a.Reaches start n
  to_finish : ∀ n < a.size, a.Reaches n finish

/-! ## Lemmas -/

variable {a : Automaton} {n source target : Nat}

theorem lt_size_of_mem_edges (h : target ∈ a.edges n) : n < a.size := by
  rw [edges] at h
  split at h
  · next state hstate => exact (Array.getElem?_eq_some_iff.1 hstate).1
  · cases h

theorem lt_size_of_list? {list : String} (h : a.list? n = some list) : n < a.size := by
  obtain ⟨state, hstate, -⟩ := Option.bind_eq_some_iff.1 h
  exact (Array.getElem?_eq_some_iff.1 hstate).1

theorem Reaches.snoc (h : a.Reaches source n) (edge : target ∈ a.edges n) :
    a.Reaches source target := by
  rcases h with rfl | ⟨between, hpath⟩
  · exact .inr ⟨[], .last edge⟩
  · exact .inr ⟨_, hpath.append (.last edge)⟩

namespace WellFormed

theorem edges_finish (h : a.WellFormed) : a.edges finish = [] := by
  rw [edges, h.finish_state]

theorem ne_of_list? (h : a.WellFormed) {list : String} (hlist : a.list? n = some list) :
    n ≠ start ∧ n ≠ finish := by
  constructor
  · rintro rfl
    obtain ⟨edges, hstate⟩ := h.start_state
    rw [list?, hstate] at hlist
    cases hlist
  · rintro rfl
    rw [list?, h.finish_state] at hlist
    cases hlist

/-- A state that can be entered and left is a word. -/
theorem exists_list? (h : a.WellFormed) (hin : n ∈ a.edges source) (hout : target ∈ a.edges n) :
    ∃ list, a.list? n = some list := by
  have hstart : n ≠ start := by
    rintro rfl
    exact h.start_notMem source hin
  have hfinish : n ≠ finish := by
    rintro rfl
    rw [h.edges_finish] at hout
    cases hout
  obtain ⟨list, edges, hstate⟩ := h.word_state n (lt_size_of_mem_edges hout) hstart hfinish
  refine ⟨list, ?_⟩
  rw [list?, hstate]
  rfl

/-- All states between the ends of a path are words. -/
theorem exists_map_list? (h : a.WellFormed) {between : List Nat}
    (hpath : a.Path source between target) : ∃ lists : List String,
      between.map a.list? = lists.map some := by
  induction hpath with
  | last => exact ⟨[], rfl⟩
  | @step _ next _ _ edge rest ih =>
    obtain ⟨lists, hlists⟩ := ih
    have hout : ∃ t, t ∈ a.edges next := by
      cases rest with
      | last edge => exact ⟨_, edge⟩
      | step edge => exact ⟨_, edge⟩
    obtain ⟨t, hout⟩ := hout
    obtain ⟨list, hlist⟩ := h.exists_list? edge hout
    refine ⟨list :: lists, ?_⟩
    rw [List.map_cons, List.map_cons, hlist, hlists]

end WellFormed

/-- In a trim automaton every word is met by an accepting path, so the lists of words are those that
are met at all. -/
theorem list?_iff_accepts (h : a.WellFormed) (htrim : a.Trim) {name : String} :
    (∃ n, a.list? n = some name) ↔ ∃ w, a.Accepts w ∧ name ∈ w := by
  constructor
  · rintro ⟨n, hn⟩
    obtain ⟨hstart, hfinish⟩ := h.ne_of_list? hn
    have hlt := lt_size_of_list? hn
    obtain ⟨p, hp⟩ := (htrim.from_start n hlt).resolve_left hstart.symm
    obtain ⟨q, hq⟩ := (htrim.to_finish n hlt).resolve_left hfinish
    have hpath := hp.append hq
    obtain ⟨lists, hlists⟩ := h.exists_map_list? hpath
    refine ⟨lists, ⟨_, hpath, hlists⟩, ?_⟩
    have hmem : a.list? n ∈ lists.map some := by
      rw [← hlists]
      exact List.mem_map.2 ⟨n, by simp, rfl⟩
    obtain ⟨other, hother, heq⟩ := List.mem_map.1 hmem
    rw [hn] at heq
    exact Option.some.inj heq ▸ hother
  · rintro ⟨w, ⟨between, -, hlists⟩, hname⟩
    have hmem : some name ∈ between.map a.list? := by
      rw [hlists]
      exact List.mem_map.2 ⟨name, hname, rfl⟩
    obtain ⟨n, -, hn⟩ := List.mem_map.1 hmem
    exact ⟨n, hn⟩

end PhraseSearch.Automaton
