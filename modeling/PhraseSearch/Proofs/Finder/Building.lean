import PhraseSearch.Proofs.Automaton.Attach
import PhraseSearch.Proofs.Search.Solutions

/-!
# Building finders

A finder over word lists is built in three steps, each of which can only fail in the way that the
steps before leave open: if no needed list is missing, there is a trie for each of them, and the
automaton is bound to these.

    the least needed list without words is reported                    (ofWordLists_eq_error)
    otherwise there is a finder                                        (ofWordLists_eq_ok)
    the tries of a finder are those of the lists                       (Built.indexed)
-/

namespace PhraseSearch

/-! ## Binding -/

namespace Automaton

variable {a b : Automaton} {tries : Catalog}

theorem bind_eq_ok (h : ∀ name ∈ a.neededLists, tries.contains name = true) :
    ∃ b, a.bind tries = .ok b :=
  ⟨_, bind_of_serves (List.all_eq_true.2 h)⟩

theorem bind_eq_error {name : String}
    (h : a.neededLists.find? (fun name => !tries.contains name) = some name) :
    a.bind tries = .error ⟨name⟩ :=
  bind_eq_error_iff.2 (leastMissing_of_find? h)

/-- Binding changes nothing about the solutions. -/
theorem solves_of_bind {alphabet : Alphabet} {lists : WordLists} {letters path : List Nat}
    {words : List String} (h : a.bind tries = .ok b) :
    b.Solves alphabet lists letters path words ↔ a.Solves alphabet lists letters path words := by
  have hlists : b.list? = a.list? := funext fun id => list?_of_bind h id
  constructor
  · rintro ⟨hne, haccept, hlisted, hspelled⟩
    rw [hlists] at hlisted
    exact ⟨hne, (path_of_bind h).1 haccept, hlisted, hspelled⟩
  · rintro ⟨hne, haccept, hlisted, hspelled⟩
    rw [← hlists] at hlisted
    exact ⟨hne, (path_of_bind h).2 haccept, hlisted, hspelled⟩

end Automaton

namespace Finder

variable {a : Automaton} {lists : WordLists} {normalize : Normalizer} {config : FinderConfig}
  {f : Finder}

/-- Whether a finder holds an automaton bound to tries of some lists. -/
structure Built (a : Automaton) (lists : WordLists) (f : Finder) : Prop where
  triesOf : f.lexicon.TriesOf lists
  bound : a.bind f.lexicon.tries = .ok f.automaton

theorem Built.indexed (h : f.Built a lists) (hnodup : ∀ id, (a.edges id).Nodup) :
    f.automaton.Indexed f.lexicon.alphabet lists :=
  Automaton.indexed_of_bind hnodup h.triesOf h.bound

theorem bind_of_ofLexicon {lexicon : Lexicon} (h : ofLexicon a lexicon config = .ok f) :
    f.lexicon = lexicon ∧ f.config = config ∧ a.bind lexicon.tries = .ok f.automaton := by
  rw [ofLexicon] at h
  cases hbind : a.bind lexicon.tries with
  | error fault =>
    rw [hbind] at h
    cases h
  | ok b =>
    rw [hbind] at h
    cases h
    exact ⟨rfl, rfl, rfl⟩

theorem built_of_ofLexicon {lexicon : Lexicon} (htries : lexicon.TriesOf lists)
    (h : ofLexicon a lexicon config = .ok f) : f.Built a lists := by
  obtain ⟨rfl, -, hbind⟩ := bind_of_ofLexicon h
  exact ⟨htries, hbind⟩

/-! ## Finders over word lists -/

/-- What the lists that are selected hold, the lists hold. -/
theorem get?_of_lookup_select {names : List String} {selected : List (String × List String)}
    (h : lists.select names = .ok selected) {name : String} {words : List String}
    (hlookup : selected.lookup name = some words) : lists.get? name = some words := by
  obtain ⟨hnames, hpresent⟩ := WordLists.select_eq_ok h
  have hname : name ∈ names := by
    obtain ⟨before, after, hselected, -⟩ := List.lookup_eq_some_iff.1 hlookup
    rw [← hnames, hselected]
    simp
  obtain ⟨words', hwords, hlookup'⟩ := hpresent name hname
  rw [hlookup] at hlookup'
  cases hlookup'
  exact hwords

theorem find?_missing_eq_none {names : List String} :
    names.find? (fun name => (lists.get? name).isNone) = none ↔
      ∀ name ∈ names, (lists.get? name).isSome = true := by
  rw [List.find?_eq_none]
  refine forall₂_congr fun name _ => ?_
  cases lists.get? name <;> simp

/-- If a needed list is missing, the first of them in order is reported. -/
theorem ofWordLists_eq_error {name : String}
    (h : a.neededLists.find? (fun name => (lists.get? name).isNone) = some name) :
    ofWordLists a lists normalize config = .error (.missingList ⟨name⟩) := by
  have hselect : lists.select a.neededLists = .error ⟨name⟩ := WordLists.select_eq_error_iff.2 h
  rw [ofWordLists, hselect]
  rfl

/-- The letters of selected lists are those of the words of all names. -/
theorem mem_letters_of_select {names : List String} {selected : List (String × List String)}
    (h : lists.select names = .ok selected) (hnodup : names.Nodup) {c : Char} :
    c ∈ (Alphabet.ofBatches normalize (selected.map Prod.snd)).letters ↔
      ∃ name ∈ names, ∃ words, lists.get? name = some words ∧
        ∃ word ∈ words, c ∈ normalize.canonical word := by
  obtain ⟨hnames, hpresent⟩ := WordLists.select_eq_ok h
  rw [← hnames] at hnodup
  rw [Alphabet.mem_letters_ofBatches]
  constructor
  · rintro ⟨words, hwords, word, hword, hc⟩
    obtain ⟨⟨name, words⟩, hentry, rfl⟩ := List.mem_map.1 hwords
    have hlookup := (lookup_eq_some_iff_mem hnodup).2 hentry
    refine ⟨name, ?_, words, get?_of_lookup_select h hlookup, word, hword, hc⟩
    rw [← hnames]
    exact List.mem_map.2 ⟨_, hentry, rfl⟩
  · rintro ⟨name, hname, words, hwords, word, hword, hc⟩
    obtain ⟨words', hwords', hlookup⟩ := hpresent name hname
    obtain rfl : words = words' := Option.some.inj (hwords.symm.trans hwords')
    have hentry := (lookup_eq_some_iff_mem hnodup).1 hlookup
    exact ⟨words, List.mem_map.2 ⟨_, hentry, rfl⟩, word, hword, hc⟩

/-- If no needed list is missing, there is a finder; its alphabet has the letters of these lists. -/
theorem ofWordLists_eq_ok (normalize : Normalizer) (config : FinderConfig)
    (h : ∀ name ∈ a.neededLists, (lists.get? name).isSome = true) :
    ∃ f, ofWordLists a lists normalize config = .ok f ∧ f.Built a lists ∧ f.config = config ∧
      f.lexicon.alphabet.normalize = normalize ∧
      ∀ c, c ∈ f.lexicon.alphabet.letters ↔ ∃ name ∈ a.neededLists, ∃ words,
        lists.get? name = some words ∧ ∃ word ∈ words, c ∈ normalize.canonical word := by
  cases hselect : lists.select a.neededLists with
  | error fault =>
    have hfind := WordLists.select_eq_error_iff.1 hselect
    rw [find?_missing_eq_none.2 h] at hfind
    cases hfind
  | ok selected =>
    obtain ⟨hnames, hpresent⟩ := WordLists.select_eq_ok hselect
    obtain ⟨tries, hlexicon⟩ := Lexicon.ofLists_eq_ok normalize selected
    have hneeded : a.neededLists.Nodup := NameMap.nodup_names _
    have hindexes := Lexicon.indexes_ofLists (by rw [hnames]; exact hneeded) hlexicon
    have hcontains : ∀ name ∈ a.neededLists, tries.contains name = true := by
      intro name hname
      obtain ⟨words, -, hlookup⟩ := hpresent name hname
      obtain ⟨t, ht, -⟩ := hindexes.present name words hlookup
      rw [NameMap.contains]
      exact Option.isSome_iff_exists.2 ⟨t, ht⟩
    obtain ⟨b, hb⟩ := Automaton.bind_eq_ok hcontains
    refine ⟨⟨b, _, config, 0⟩, ?_, ⟨hindexes.triesOf fun _ _ => get?_of_lookup_select hselect, hb⟩,
      rfl, rfl, fun c => mem_letters_of_select hselect hneeded⟩
    rw [ofWordLists, hselect]
    simp only [Except.mapError, bind, Except.bind, hlexicon, ofLexicon, hb]
    rfl

/-- If there is a finder, no needed list is missing. -/
theorem isSome_get?_of_ofWordLists (h : ofWordLists a lists normalize config = .ok f) :
    ∀ name ∈ a.neededLists, (lists.get? name).isSome = true := by
  intro name hname
  cases hfind : a.neededLists.find? fun name => (lists.get? name).isNone with
  | none =>
    exact find?_missing_eq_none.1 hfind name hname
  | some missing =>
    rw [ofWordLists_eq_error hfind] at h
    cases h

theorem built_of_ofWordLists (h : ofWordLists a lists normalize config = .ok f) :
    f.Built a lists := by
  obtain ⟨f', hf', hbuilt, -⟩ := ofWordLists_eq_ok normalize config (isSome_get?_of_ofWordLists h)
  rw [hf'] at h
  cases h
  exact hbuilt

theorem config_of_ofWordLists (h : ofWordLists a lists normalize config = .ok f) :
    f.config = config := by
  obtain ⟨f', hf', -, hconfig, -⟩ :=
    ofWordLists_eq_ok normalize config (isSome_get?_of_ofWordLists h)
  rw [hf'] at h
  cases h
  exact hconfig

end Finder

end PhraseSearch
