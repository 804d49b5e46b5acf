import PhraseSearch.Proofs.Finder.Building

/-!
# Missing lists

Lists that are missing are noticed in two places: when those that are needed are selected from word
lists, and when an automaton is bound to a catalog.  Both report the least of them, so it does not
matter which way a finder is built.

    a finder over word lists is refused for the least missing list     (ofWordLists_eq_error_iff)
    so is one over a lexicon of these word lists                       (ofLexicon_eq_error_iff)
    its catalog has the needed lists and no others                     (names_of_ofWordLists)
    what binding does, again and again                                 (attach_spec)
-/

namespace PhraseSearch

namespace Finder

variable {a : Automaton} {lists : WordLists} {normalize : Normalizer} {config : FinderConfig}
  {f : Finder}

/-- A finder over word lists is one over a lexicon of those that are needed. -/
theorem exists_of_ofWordLists (h : ofWordLists a lists normalize config = .ok f) :
    ∃ selected, lists.select a.neededLists = .ok selected ∧
      Lexicon.ofLists normalize selected = .ok f.lexicon ∧
      ofLexicon a f.lexicon config = .ok f := by
  rw [ofWordLists] at h
  cases hselect : lists.select a.neededLists with
  | error fault =>
    rw [hselect] at h
    cases h
  | ok selected =>
    rw [hselect] at h
    cases hlexicon : Lexicon.ofLists normalize selected with
    | error fault =>
      simp only [Except.mapError, bind, Except.bind, hlexicon] at h
      cases h
    | ok lexicon =>
      simp only [Except.mapError, bind, Except.bind, hlexicon] at h
      cases hfinder : ofLexicon a lexicon config with
      | error fault =>
        rw [hfinder] at h
        cases h
      | ok g =>
        rw [hfinder] at h
        cases h
        obtain ⟨rfl, -, -⟩ := bind_of_ofLexicon hfinder
        exact ⟨selected, rfl, hlexicon, hfinder⟩

theorem names_of_ofWordLists (h : ofWordLists a lists normalize config = .ok f) :
    f.lexicon.tries.names = a.neededLists := by
  obtain ⟨selected, hselect, hlexicon, -⟩ := exists_of_ofWordLists h
  obtain ⟨hnames, -⟩ := WordLists.select_eq_ok hselect
  have hascending : (selected.map Prod.fst).Pairwise (· < ·) := by
    rw [hnames]
    exact NameMap.names_pairwise _
  have hnodup : (selected.map Prod.fst).Nodup := by
    rw [hnames]
    exact NameMap.nodup_names _
  rw [(Lexicon.indexes_ofLists hnodup hlexicon).names_eq_map hascending, hnames]

theorem attach_of_ofLexicon {lexicon : Lexicon} (h : ofLexicon a lexicon config = .ok f) :
    f.lexicon = lexicon ∧ Automaton.attach lexicon.tries a = .ok () f.automaton := by
  obtain ⟨hlexicon, -, hbind⟩ := bind_of_ofLexicon h
  exact ⟨hlexicon, Automaton.attach_eq_ok_iff.2 hbind⟩

/-- A finder over word lists is refused because of the least list that is missing, and for nothing
else. -/
theorem ofWordLists_eq_error_iff {fault : Error} :
    ofWordLists a lists normalize config = .error fault ↔
      ∃ name, fault = .missingList ⟨name⟩ ∧ a.LeastMissing lists.contains name := by
  have hpred : (fun name => (lists.get? name).isNone) = fun name => !lists.contains name :=
    funext fun name => (lists.not_contains name).symm
  cases hfind : a.neededLists.find? fun name => !lists.contains name with
  | some name =>
    have hfirst : a.neededLists.find? (fun name => (lists.get? name).isNone) = some name := by
      rw [hpred, hfind]
    rw [ofWordLists_eq_error hfirst]
    have hleast := Automaton.leastMissing_of_find? hfind
    constructor
    · intro h
      cases h
      exact ⟨name, rfl, hleast⟩
    · rintro ⟨other, rfl, hother⟩
      rw [hleast.unique hother]
  | none =>
    have hpresent := Automaton.find?_missing_eq_none_iff.1 hfind
    obtain ⟨f, hf, -⟩ := ofWordLists_eq_ok normalize config hpresent
    rw [hf]
    constructor
    · intro h
      cases h
    · rintro ⟨name, -, hname⟩
      have hthere := hpresent name hname.needed
      rw [hname.missing] at hthere
      cases hthere

/-- So is a finder over a lexicon, because of the least list that has no trie. -/
theorem ofLexicon_eq_error_iff {lexicon : Lexicon} {fault : Automaton.MissingList} :
    ofLexicon a lexicon config = .error fault ↔
      a.LeastMissing lexicon.tries.contains fault.name := by
  rw [← Automaton.bind_eq_error_iff, ofLexicon]
  cases hbind : a.bind lexicon.tries with
  | error found =>
    constructor
    · intro h
      cases h
      rfl
    · intro h
      cases h
      rfl
  | ok b =>
    constructor
    · intro h
      cases h
    · intro h
      cases h

end Finder

namespace Automaton

theorem trie?_attemptedAll (a : Automaton) (catalogs : List Catalog) (id : Nat) :
    (a.attemptedAll catalogs).trie? id =
      match catalogs.reverse.find? a.serves with
      | some tries => (a.list? id).bind tries.get?
      | none => a.trie? id := by
  rw [attemptedAll_eq]
  cases hfind : catalogs.reverse.find? a.serves with
  | none => rfl
  | some tries => exact trie?_of_bind (bind_of_serves (List.find?_some hfind)) id

theorem exists_attach_eq_error_iff {a : Automaton} {tries : Catalog} :
    (∃ fault b, attach tries a = .error fault b) ↔
      ∃ list ∈ a.neededLists, tries.get? list = none := by
  have hleast : (∃ name, a.LeastMissing tries.contains name) ↔
      ∃ list ∈ a.neededLists, tries.get? list = none := by
    rw [exists_leastMissing_iff]
    exact exists_congr fun list => and_congr_right fun _ => NameMap.contains_eq_false_iff
  rw [← hleast]
  constructor
  · rintro ⟨fault, b, h⟩
    exact ⟨fault.name, (attach_eq_error_iff.1 h).2⟩
  · rintro ⟨name, h⟩
    exact ⟨⟨name⟩, a, attach_eq_error_iff.2 ⟨rfl, h⟩⟩

/-- An automaton that has been attempted to be bound to some catalogs, one after the other.  It has
the tries of the last of these that had all lists, or those it had at first.  Binding it to a further
catalog fails if a list is missing; then the least of the missing lists is reported, and the automaton
is left as it was.  Otherwise every word state has the trie of its list, and nothing else is changed.
A finder over word lists is refused because of the same list as one over a lexicon of them all, and
its catalog has the needed lists and no others. -/
theorem attach_spec (a : Automaton) (earlier : List Catalog) :
    let b := a.attemptedAll earlier
    b.unbound = a.unbound ∧
    (∀ id, b.trie? id =
      match earlier.reverse.find? a.serves with
      | some tries => (a.list? id).bind tries.get?
      | none => a.trie? id) ∧
    (∀ tries : Catalog,
      ((∃ fault b', attach tries b = .error fault b') ↔
        ∃ list ∈ b.neededLists, tries.get? list = none) ∧
      (∀ fault b', attach tries b = .error fault b' →
        b' = b ∧ b.LeastMissing tries.contains fault.name) ∧
      ∀ b', attach tries b = .ok () b' → b'.unbound = b.unbound ∧ b'.isBound = true ∧
        ∀ id list, b'.list? id = some list → ∃ t, tries.get? list = some t ∧ b'.trie? id = some t) ∧
    ∀ (lists : WordLists) (order : List (String × List String)), order.Perm lists.entries →
      ∀ (normalize normalize' : Normalizer) (config config' : FinderConfig), ∃ lexicon,
        Lexicon.ofLists normalize' order = .ok lexicon ∧
        (∀ fault, Finder.ofLexicon b lexicon config' = .error fault ↔
          b.LeastMissing lists.contains fault.name) ∧
        (∀ fault, Finder.ofWordLists b lists normalize config = .error fault ↔
          ∃ name, fault = .missingList ⟨name⟩ ∧ b.LeastMissing lists.contains name) ∧
        ∀ f, Finder.ofWordLists b lists normalize config = .ok f →
          f.lexicon.tries.names = b.neededLists ∧ attach f.lexicon.tries b = .ok () f.automaton := by
  intro b
  refine ⟨unbound_attemptedAll a earlier, trie?_attemptedAll a earlier, fun tries => ⟨?_, ?_, ?_⟩,
    fun lists order horder normalize normalize' config config' => ?_⟩
  · exact exists_attach_eq_error_iff
  · intro fault b' h
    exact attach_eq_error_iff.1 h
  · intro b' h
    have hbind := attach_eq_ok_iff.1 h
    exact ⟨unbound_of_bind hbind, isBound_of_bind hbind, fun id list => exists_trie?_of_bind hbind⟩
  · obtain ⟨lexicon, hlexicon, -, hcontains, -⟩ := Lexicon.exists_ofLists_of_perm normalize' horder
    refine ⟨lexicon, hlexicon, fun fault => ?_, fun fault => Finder.ofWordLists_eq_error_iff,
      fun f hf => ?_⟩
    · have hpresent : lexicon.tries.contains = lists.contains := funext hcontains
      rw [Finder.ofLexicon_eq_error_iff, hpresent]
    · obtain ⟨-, -, -, hfinder⟩ := Finder.exists_of_ofWordLists hf
      obtain ⟨-, hattach⟩ := Finder.attach_of_ofLexicon hfinder
      exact ⟨Finder.names_of_ofWordLists hf, hattach⟩

end Automaton

end PhraseSearch
