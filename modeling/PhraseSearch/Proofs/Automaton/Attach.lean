import Mathlib.Data.List.Induction
import PhraseSearch.Automaton.Attach
import PhraseSearch.Proofs.Automaton.Binding

/-!
# Binding again

Binding in place does what `bind` does, and leaves the automaton as it is if it fails.  However often
it is attempted, the states stand for what they stood for and keep their edges; their tries are those
of the last catalog that has all lists, or those that were there before.

    attach tries a is a.bind tries, made in place                      (attach_eq)
    the least list that is missing is reported                         (bind_eq_error_iff)
    what many attempts come to                                         (attemptedAll_eq)
-/

namespace PhraseSearch.Automaton

variable {a b : Automaton} {tries : Catalog} {present : String → Bool} {name other : String}

/-! ## Missing lists -/

theorem LeastMissing.unique (h : a.LeastMissing present name) (h' : a.LeastMissing present other) :
    name = other :=
  String.le_antisymm (h.least other h'.needed h'.missing) (h'.least name h.needed h.missing)

/-- The names are looked at in ascending order, so the first that is missing is the least. -/
theorem leastMissing_of_find? (h : a.neededLists.find? (fun list => !present list) = some name) :
    a.LeastMissing present name := by
  have hascending : a.neededLists.Pairwise (· < ·) := NameMap.names_pairwise _
  obtain ⟨hmissing, before, after, hneeded, hbefore⟩ := List.find?_eq_some_iff_append.1 h
  refine ⟨List.mem_of_find?_eq_some h, by simpa using hmissing, fun other hmem hother => ?_⟩
  rw [hneeded] at hmem hascending
  rcases List.mem_append.1 hmem with hmem | hmem
  · have hthere := hbefore other hmem
    rw [hother] at hthere
    cases hthere
  · rcases List.mem_cons.1 hmem with rfl | hmem
    · exact String.le_refl _
    · have hlt := (List.pairwise_cons.1 (List.pairwise_append.1 hascending).2.1).1 other hmem
      exact (String.le_total name other).resolve_right (String.not_le.2 hlt)

theorem find?_missing_eq_none_iff : a.neededLists.find? (fun list => !present list) = none ↔
    ∀ list ∈ a.neededLists, present list = true := by
  simp

/-- If a list is missing, the first that is missing is the least. -/
theorem exists_leastMissing (hneeded : name ∈ a.neededLists) (hmissing : present name = false) :
    ∃ first, a.neededLists.find? (fun list => !present list) = some first ∧
      a.LeastMissing present first := by
  cases hfind : a.neededLists.find? fun list => !present list with
  | none =>
    have hpresent := find?_missing_eq_none_iff.1 hfind name hneeded
    rw [hmissing] at hpresent
    cases hpresent
  | some first => exact ⟨first, rfl, leastMissing_of_find? hfind⟩

theorem find?_missing_eq_some_iff :
    a.neededLists.find? (fun list => !present list) = some name ↔ a.LeastMissing present name := by
  constructor
  · exact leastMissing_of_find?
  · intro h
    obtain ⟨first, hfind, hfirst⟩ := exists_leastMissing h.needed h.missing
    rw [hfind, hfirst.unique h]

theorem exists_leastMissing_iff :
    (∃ name, a.LeastMissing present name) ↔ ∃ name ∈ a.neededLists, present name = false := by
  constructor
  · rintro ⟨name, h⟩
    exact ⟨name, h.needed, h.missing⟩
  · rintro ⟨name, hneeded, hmissing⟩
    obtain ⟨first, -, hfirst⟩ := exists_leastMissing hneeded hmissing
    exact ⟨first, hfirst⟩

/-! ## One catalog -/

theorem bind_eq_error_iff {fault : MissingList} :
    a.bind tries = .error fault ↔ a.LeastMissing tries.contains fault.name := by
  rw [← find?_missing_eq_some_iff, bind]
  split
  · next list hfind =>
    rw [hfind]
    obtain ⟨missing⟩ := fault
    simp
  · next hfind =>
    rw [hfind]
    simp

theorem bind_of_serves (h : a.serves tries = true) :
    a.bind tries = .ok ⟨a.states.map (·.bindTo tries)⟩ := by
  unfold serves at h
  rw [List.all_eq_true, ← find?_missing_eq_none_iff] at h
  rw [bind, h]

theorem State.bindTo_bindTo (earlier tries : Catalog) (state : State) :
    (state.bindTo earlier).bindTo tries = state.bindTo tries := by
  obtain ⟨label, edges⟩ := state
  cases label <;> rfl

theorem State.unbound_bindTo (tries : Catalog) (state : State) :
    (state.bindTo tries).unbound = state.unbound := by
  obtain ⟨label, edges⟩ := state
  cases label <;> rfl

/-- Binding states one after the other binds those of the ids and no others. -/
theorem exists_bindStates (tries : Catalog) (ids : List Nat) (a : Automaton) :
    ∃ b, ids.forM (bindState tries) a = .ok () b ∧ ∀ id, b.states[id]? =
      if id ∈ ids then (a.states[id]?).map (·.bindTo tries) else a.states[id]? := by
  induction ids generalizing a with
  | nil => exact ⟨a, rfl, fun id => by simp⟩
  | cons first ids ih =>
    obtain ⟨b, hb, hstates⟩ := ih ⟨a.states.modify first (·.bindTo tries)⟩
    refine ⟨b, hb, fun id => ?_⟩
    rw [hstates, Array.getElem?_modify]
    by_cases hid : id = first
    · subst hid
      rw [if_pos rfl, if_pos List.mem_cons_self, Option.map_map]
      -- the state may be bound once more
      have htwice : State.bindTo tries ∘ State.bindTo tries = State.bindTo tries :=
        funext (State.bindTo_bindTo tries tries)
      rw [htwice]
      split <;> rfl
    · have hne : ¬ first = id := fun h => hid h.symm
      rw [if_neg hne]
      simp [hid]

theorem attach_of_missing
    (h : a.neededLists.find? (fun list => !tries.contains list) = some name) :
    attach tries a = .error ⟨name⟩ a := by
  have hget : (get : Binding Automaton) a = .ok a a := rfl
  unfold attach
  show EStateM.bind get _ a = _
  rw [EStateM.bind, hget]
  simp only [h]
  rfl

theorem attach_of_find?_eq_none
    (h : a.neededLists.find? (fun list => !tries.contains list) = none) :
    attach tries a = (List.range a.size).forM (bindState tries) a := by
  have hget : (get : Binding Automaton) a = .ok a a := rfl
  unfold attach
  show EStateM.bind get _ a = _
  rw [EStateM.bind, hget]
  simp only [h]

/-- Binding in place does what `bind` does; if it fails, it has changed nothing. -/
theorem attach_eq (tries : Catalog) (a : Automaton) :
    attach tries a =
      match a.bind tries with
      | .ok b => .ok () b
      | .error fault => .error fault a := by
  rw [bind]
  cases hfind : a.neededLists.find? fun list => !tries.contains list with
  | some list => exact attach_of_missing hfind
  | none =>
    obtain ⟨b, hb, hstates⟩ := exists_bindStates tries (List.range a.size) a
    rw [attach_of_find?_eq_none hfind, hb]
    show EStateM.Result.ok () b = .ok () ⟨a.states.map (·.bindTo tries)⟩
    congr 1
    obtain ⟨states⟩ := b
    congr 1
    refine Array.ext_getElem? fun id => ?_
    rw [hstates id, Array.getElem?_map]
    split
    · rfl
    · next hge =>
      rw [List.mem_range] at hge
      rw [Array.getElem?_eq_none (Nat.le_of_not_lt hge)]
      rfl

theorem attach_eq_ok_iff : attach tries a = .ok () b ↔ a.bind tries = .ok b := by
  rw [attach_eq]
  cases a.bind tries <;> simp

theorem attach_eq_error_iff {fault : MissingList} :
    attach tries a = .error fault b ↔ b = a ∧ a.LeastMissing tries.contains fault.name := by
  rw [attach_eq, ← bind_eq_error_iff]
  cases a.bind tries with
  | ok bound => simp
  | error found =>
    simp only [EStateM.Result.error.injEq, Except.error.injEq]
    constructor
    · rintro ⟨rfl, rfl⟩
      exact ⟨rfl, rfl⟩
    · rintro ⟨rfl, rfl⟩
      exact ⟨rfl, rfl⟩

theorem isBound_of_bind (h : a.bind tries = .ok b) : b.isBound = true := by
  obtain ⟨rfl, hneeded⟩ := eq_of_bind h
  unfold isBound
  rw [Array.all_eq_true']
  intro state hstate
  obtain ⟨old, hold, rfl⟩ := Array.mem_map.1 hstate
  obtain ⟨id, hid⟩ := Array.getElem?_of_mem hold
  obtain ⟨label, targets⟩ := old
  cases label with
  | start => rfl
  | finish => rfl
  | word list trie =>
    exact hneeded list (mem_neededLists.2 ⟨id, by rw [list?, hid]; rfl⟩)

theorem unbound_of_bind (h : a.bind tries = .ok b) : b.unbound = a.unbound := by
  obtain ⟨rfl, -⟩ := eq_of_bind h
  unfold unbound
  rw [Array.map_map]
  congr 2
  exact funext (State.unbound_bindTo tries)

/-- Every word state is bound to the trie of its list. -/
theorem exists_trie?_of_bind (h : a.bind tries = .ok b) {id : Nat} {list : String}
    (hlist : b.list? id = some list) :
    ∃ t, tries.get? list = some t ∧ b.trie? id = some t := by
  rw [list?_of_bind h] at hlist
  have hcontains := (eq_of_bind h).2 list (mem_neededLists.2 ⟨id, hlist⟩)
  obtain ⟨t, ht⟩ := Option.isSome_iff_exists.1 hcontains
  exact ⟨t, ht, by rw [trie?_of_bind h, hlist, Option.bind_some, ht]⟩

/-! ## Catalogs one after the other -/

/-- What an automaton needs does not depend on its tries. -/
theorem neededLists_congr (h : a.unbound = b.unbound) : a.neededLists = b.neededLists := by
  have hunbound : ∀ a : Automaton, a.unbound.neededLists = a.neededLists := by
    intro a
    unfold neededLists unbound
    rw [Array.toList_map, List.filterMap_map]
    congr 3
    funext state
    obtain ⟨label, targets⟩ := state
    cases label <;> rfl
  rw [← hunbound a, h, hunbound b]

theorem serves_congr (h : a.unbound = b.unbound) (tries : Catalog) :
    a.serves tries = b.serves tries := by
  rw [serves, serves, neededLists_congr h]

theorem attempted_of_serves (h : a.serves tries = true) :
    a.attempted tries = ⟨a.states.map (·.bindTo tries)⟩ := by
  rw [attempted, attach_eq, bind_of_serves h]

theorem attempted_of_not_serves (h : a.serves tries = false) : a.attempted tries = a := by
  rw [attempted, attach_eq]
  cases hbind : a.bind tries with
  | error fault => rfl
  | ok b =>
    have hserves : a.serves tries = true := List.all_eq_true.2 (eq_of_bind hbind).2
    rw [h] at hserves
    cases hserves

theorem unbound_attempted (a : Automaton) (tries : Catalog) :
    (a.attempted tries).unbound = a.unbound := by
  cases h : a.serves tries with
  | true =>
    rw [attempted_of_serves h]
    exact unbound_of_bind (bind_of_serves h)
  | false => rw [attempted_of_not_serves h]

theorem unbound_attemptedAll (a : Automaton) (catalogs : List Catalog) :
    (a.attemptedAll catalogs).unbound = a.unbound := by
  induction catalogs generalizing a with
  | nil => rfl
  | cons tries catalogs ih => exact (ih (a.attempted tries)).trans (unbound_attempted a tries)

/-- What is there after many attempts was put there by the last that found all lists. -/
theorem attemptedAll_eq (a : Automaton) (catalogs : List Catalog) :
    a.attemptedAll catalogs =
      match catalogs.reverse.find? a.serves with
      | some tries => ⟨a.states.map (·.bindTo tries)⟩
      | none => a := by
  induction catalogs using List.reverseRecOn with
  | nil => rfl
  | append_singleton catalogs tries ih =>
    have hlast : a.attemptedAll (catalogs ++ [tries]) =
        (a.attemptedAll catalogs).attempted tries := List.foldl_append
    have hserves := serves_congr (unbound_attemptedAll a catalogs) tries
    rw [hlast, List.reverse_append, List.reverse_singleton, List.singleton_append, List.find?_cons]
    cases htries : a.serves tries with
    | false =>
      rw [htries] at hserves
      rw [attempted_of_not_serves hserves, ih]
    | true =>
      rw [htries] at hserves
      rw [attempted_of_serves hserves, ih]
      split
      · next earlier _ =>
        show Automaton.mk ((a.states.map _).map _) = _
        rw [Array.map_map]
        congr 2
        exact funext (State.bindTo_bindTo earlier tries)
      · rfl

end PhraseSearch.Automaton
