import PhraseSearch.Automaton.Path
import PhraseSearch.Proofs.Lexicon
import PhraseSearch.Proofs.Search.Tree

/-!
# Bound automata

Binding puts tries at the word states and changes nothing else.  An automaton is *indexed* by an
alphabet and word lists when every word state has the trie of its list; what a search needs to know
of its tries follows from that.

    b.edges id = a.edges id, b.list? id = a.list? id        (edges_of_bind, list?_of_bind)
    binding to a lexicon of the lists gives an indexed automaton       (indexed_of_bind)
-/

namespace PhraseSearch

namespace Automaton

/-! ## Binding -/

variable {a b : Automaton} {tries : Catalog}

theorem mem_neededLists {name : String} :
    name ∈ a.neededLists ↔ ∃ id, a.list? id = some name := by
  rw [neededLists, NameMap.mem_names_ofList]
  constructor
  · intro h
    obtain ⟨⟨n, u⟩, hmem, rfl⟩ := List.mem_map.1 h
    obtain ⟨state, hstate, hentry⟩ := List.mem_filterMap.1 hmem
    obtain ⟨id, hid, hget⟩ := List.getElem_of_mem hstate
    refine ⟨id, ?_⟩
    have hstate : a.states[id]? = some state := by
      rw [← Array.getElem?_toList, List.getElem?_eq_some_iff]
      exact ⟨hid, hget⟩
    rw [list?, hstate, Option.bind_some]
    obtain ⟨list, hlist, he⟩ := Option.map_eq_some_iff.1 hentry
    cases he
    exact hlist
  · rintro ⟨id, hid⟩
    rw [list?, Option.bind_eq_some_iff] at hid
    obtain ⟨state, hstate, hlist⟩ := hid
    refine List.mem_map.2 ⟨(name, ()), List.mem_filterMap.2 ⟨state, ?_, by rw [hlist]; rfl⟩, rfl⟩
    rw [← Array.getElem?_toList] at hstate
    exact List.mem_of_getElem? hstate

theorem eq_of_bind (h : a.bind tries = .ok b) :
    b = ⟨a.states.map (·.bindTo tries)⟩ ∧ ∀ name ∈ a.neededLists, tries.contains name = true := by
  rw [bind] at h
  split at h
  · cases h
  · next hfind =>
    cases h
    refine ⟨rfl, fun name hname => ?_⟩
    have := List.find?_eq_none.1 hfind name hname
    simpa using this

theorem edges_of_bind (h : a.bind tries = .ok b) (id : Nat) : b.edges id = a.edges id := by
  obtain ⟨rfl, -⟩ := eq_of_bind h
  rw [edges, edges, Array.getElem?_map]
  cases a.states[id]? with
  | none => rfl
  | some state =>
    simp only [Option.map_some, State.bindTo]
    split <;> rfl

theorem list?_of_bind (h : a.bind tries = .ok b) (id : Nat) : b.list? id = a.list? id := by
  obtain ⟨rfl, -⟩ := eq_of_bind h
  rw [list?, list?, Array.getElem?_map]
  cases a.states[id]? with
  | none => rfl
  | some state =>
    obtain ⟨label, targets⟩ := state
    cases label <;> rfl

theorem trie?_of_bind (h : a.bind tries = .ok b) (id : Nat) :
    b.trie? id = (a.list? id).bind tries.get? := by
  obtain ⟨rfl, -⟩ := eq_of_bind h
  rw [trie?, list?, Array.getElem?_map]
  cases a.states[id]? with
  | none => rfl
  | some state =>
    obtain ⟨label, targets⟩ := state
    cases label <;> rfl

theorem path_of_bind (h : a.bind tries = .ok b) {source target : Nat} {between : List Nat} :
    b.Path source between target ↔ a.Path source between target := by
  constructor
  · intro hpath
    induction hpath with
    | last edge => exact .last (edges_of_bind h _ ▸ edge)
    | step edge _ ih => exact .step (edges_of_bind h _ ▸ edge) ih
  · intro hpath
    induction hpath with
    | last edge => exact .last ((edges_of_bind h _).symm ▸ edge)
    | step edge _ ih => exact .step ((edges_of_bind h _).symm ▸ edge) ih

/-! ## Indexed automata -/

/-- Whether the word states of an automaton are bound to the tries of their lists, and no edge of
it is there twice. -/
structure Indexed (b : Automaton) (alphabet : Alphabet) (lists : WordLists) : Prop where
  edges_nodup : ∀ id, (b.edges id).Nodup
  /-- a trie is made of the words of its state's list -/
  trie : ∀ id t, b.trie? id = some t → ∃ name words, b.list? id = some name ∧
    lists.get? name = some words ∧ Trie.ofWords alphabet words = .ok t
  /-- every word state has a trie -/
  bound : ∀ id name, b.list? id = some name → ∃ t, b.trie? id = some t

/-- Binding to tries of the lists indexes an automaton. -/
theorem indexed_of_bind {lexicon : Lexicon} {lists : WordLists}
    (hnodup : ∀ id, (a.edges id).Nodup) (htries : lexicon.TriesOf lists)
    (h : a.bind lexicon.tries = .ok b) : b.Indexed lexicon.alphabet lists where
  edges_nodup id := by
    rw [edges_of_bind h]
    exact hnodup id
  trie id t ht := by
    rw [trie?_of_bind h, Option.bind_eq_some_iff] at ht
    obtain ⟨name, hname, ht⟩ := ht
    obtain ⟨words, hwords, hbuilt⟩ := htries name t ht
    exact ⟨name, words, (list?_of_bind h id).trans hname, hwords, hbuilt⟩
  bound id name hname := by
    rw [list?_of_bind h] at hname
    have hcontains := (eq_of_bind h).2 name (mem_neededLists.2 ⟨id, hname⟩)
    obtain ⟨t, ht⟩ := Option.isSome_iff_exists.1 hcontains
    exact ⟨t, by rw [trie?_of_bind h, hname, Option.bind_some, ht]⟩

theorem Indexed.rootsOpen {alphabet : Alphabet} {lists : WordLists}
    (h : b.Indexed alphabet lists) : b.RootsOpen := by
  intro id root hroot
  obtain ⟨name, words, -, -, hwords⟩ := h.trie id root hroot
  exact Trie.endsWord_ofWords hwords

end Automaton

end PhraseSearch
