import PhraseSearch.Finder
import PhraseSearch.Proofs.Letter.Order
import PhraseSearch.Proofs.Trie.Contents

/-!
# Building lexicons

The alphabet of a lexicon has every letter of every word, so no word of a list is refused, and
every list gets the trie of its words.  Neither the alphabet nor the tries depend on the order in
which the lists are visited.

    building a lexicon never fails                                     (ofLists_eq_ok)
    the tries are those of the lists, by name                          (indexes_ofLists)
    in whatever order the lists come                                   (exists_ofLists_of_perm)
    what the lexicon of word lists is                                  (ofWordLists_spec)
-/

namespace PhraseSearch

theorem NameMap.nodup_names {α : Type} (m : NameMap α) : m.names.Nodup := by
  refine (names_pairwise m).imp fun {k n} hlt he => ?_
  rw [he] at hlt
  exact String.lt_irrefl n hlt

/-- What is listed under distinct names is found by its name. -/
theorem lookup_eq_some_iff_mem {α : Type} {l : List (String × α)} (hnodup : (l.map Prod.fst).Nodup)
    {name : String} {value : α} : l.lookup name = some value ↔ (name, value) ∈ l := by
  induction l with
  | nil => simp
  | cons e l ih =>
    obtain ⟨first, firstValue⟩ := e
    obtain ⟨hnew, hnodup⟩ := List.nodup_cons.1 hnodup
    rw [NameMap.lookup_cons_eq_ite, List.mem_cons, Prod.mk.injEq]
    by_cases hname : name = first
    · subst hname
      rw [if_pos rfl, Option.some_inj]
      refine ⟨fun h => .inl ⟨rfl, h.symm⟩, ?_⟩
      rintro (⟨-, rfl⟩ | h)
      · rfl
      · exact (hnew (List.mem_map.2 ⟨_, h, rfl⟩)).elim
    · rw [if_neg hname, ih hnodup]
      exact ⟨.inr, fun h => h.resolve_left fun he => hname he.1⟩

/-- What is found by a name does not depend on the order, if no name is listed twice. -/
theorem lookup_eq_of_perm {α : Type} {l l' : List (String × α)} (hnodup : (l.map Prod.fst).Nodup)
    (h : l.Perm l') (name : String) : l.lookup name = l'.lookup name := by
  refine Option.ext fun value => ?_
  rw [lookup_eq_some_iff_mem hnodup, h.mem_iff,
    lookup_eq_some_iff_mem ((h.map Prod.fst).nodup_iff.1 hnodup)]

/-! ## Tries of known words -/

theorem Trie.insertWords_eq_ok {a : Alphabet} {words : List String}
    (h : ∀ word ∈ words, ∃ path, a.spell word = .ok path) (t : Trie) :
    ∃ u, insertWords a words t = .ok u := by
  induction words generalizing t with
  | nil => exact ⟨t, rfl⟩
  | cons word words ih =>
    obtain ⟨path, hpath⟩ := h word (by simp)
    obtain ⟨u, hu⟩ := ih (fun w hw => h w (by simp [hw]))
      (if path.isEmpty then t else t.insert word path)
    exact ⟨u, by rw [insertWords, hpath]; exact hu⟩

theorem Trie.ofWords_isOk {a : Alphabet} {words : List String}
    (h : ∀ word ∈ words, ∃ path, a.spell word = .ok path) : ∃ t, ofWords a words = .ok t := by
  obtain ⟨u, hu⟩ := insertWords_eq_ok h empty
  exact ⟨u.refreshJumps, by rw [ofWords, hu]; rfl⟩

namespace Lexicon

/-- Whether the tries of a lexicon are those of some lists, by name. -/
structure Indexes (lexicon : Lexicon) (lists : List (String × List String)) : Prop where
  missing : ∀ name, lists.lookup name = none → lexicon.tries.get? name = none
  present : ∀ name words, lists.lookup name = some words →
    ∃ t, lexicon.tries.get? name = some t ∧ Trie.ofWords lexicon.alphabet words = .ok t

/-- Whether every trie of a lexicon is made of the words of the list of its name. -/
def TriesOf (lexicon : Lexicon) (lists : WordLists) : Prop :=
  ∀ name t, lexicon.tries.get? name = some t →
    ∃ words, lists.get? name = some words ∧ Trie.ofWords lexicon.alphabet words = .ok t

theorem Indexes.triesOf {lexicon : Lexicon} {selected : List (String × List String)}
    {lists : WordLists} (h : lexicon.Indexes selected)
    (hselected : ∀ name words, selected.lookup name = some words →
      lists.get? name = some words) : lexicon.TriesOf lists := by
  intro name t ht
  cases hlookup : selected.lookup name with
  | none =>
    rw [h.missing name hlookup] at ht
    cases ht
  | some words =>
    obtain ⟨u, hu, hwords⟩ := h.present name words hlookup
    rw [hu] at ht
    cases ht
    exact ⟨words, hselected name words hlookup, hwords⟩

theorem Indexes.contains_eq {lexicon : Lexicon} {lists : List (String × List String)}
    (h : lexicon.Indexes lists) (name : String) :
    lexicon.tries.contains name = (lists.lookup name).isSome := by
  rw [NameMap.contains]
  cases hlookup : lists.lookup name with
  | none => rw [h.missing name hlookup]; rfl
  | some words =>
    obtain ⟨t, ht, -⟩ := h.present name words hlookup
    rw [ht]
    rfl

/-! ## Catalogs -/

theorem addTries_eq_ok {a : Alphabet} {lists : List (String × List String)}
    (h : ∀ list ∈ lists, ∀ word ∈ list.2, ∃ path, a.spell word = .ok path) (tries : Catalog) :
    ∃ result, addTries a lists tries = .ok result := by
  induction lists generalizing tries with
  | nil => exact ⟨tries, rfl⟩
  | cons list lists ih =>
    obtain ⟨name, words⟩ := list
    obtain ⟨t, ht⟩ := Trie.ofWords_isOk (h (name, words) (by simp))
    obtain ⟨result, hresult⟩ := ih (fun l hl => h l (by simp [hl])) (tries.insert name t)
    exact ⟨result, by rw [addTries, ht]; exact hresult⟩

theorem addTries_cons_eq_ok {a : Alphabet} {name : String} {words : List String}
    {lists : List (String × List String)} {tries result : Catalog}
    (h : addTries a ((name, words) :: lists) tries = .ok result) :
    ∃ t, Trie.ofWords a words = .ok t ∧ addTries a lists (tries.insert name t) = .ok result := by
  rw [addTries] at h
  cases ht : Trie.ofWords a words with
  | error fault => rw [ht] at h; cases h
  | ok t => rw [ht] at h; exact ⟨t, rfl, h⟩

/-- A list gets its trie, and names without a list keep what they had. -/
theorem get?_addTries {a : Alphabet} {lists : List (String × List String)}
    {tries result : Catalog} (hnodup : (lists.map Prod.fst).Nodup)
    (h : addTries a lists tries = .ok result) (name : String) :
    (lists.lookup name = none → result.get? name = tries.get? name) ∧
      ∀ words, lists.lookup name = some words →
        ∃ t, result.get? name = some t ∧ Trie.ofWords a words = .ok t := by
  induction lists generalizing tries with
  | nil =>
    cases h
    exact ⟨fun _ => rfl, fun words hwords => by simp at hwords⟩
  | cons list lists ih =>
    obtain ⟨first, firstWords⟩ := list
    obtain ⟨t, ht, hrest⟩ := addTries_cons_eq_ok h
    obtain ⟨hnew, hnodup⟩ := List.nodup_cons.1 hnodup
    obtain ⟨hmissing, hpresent⟩ := ih hnodup hrest
    rw [NameMap.lookup_cons_eq_ite]
    by_cases hname : name = first
    · subst hname
      have hnone : lists.lookup name = none := by
        rw [List.lookup_eq_none_iff]
        intro p hp
        exact bne_iff_ne.2 fun he => hnew (List.mem_map.2 ⟨p, hp, he.symm⟩)
      rw [if_pos rfl]
      refine ⟨nofun, fun words hwords => ?_⟩
      cases hwords
      refine ⟨t, ?_, ht⟩
      rw [hmissing hnone, NameMap.get?_insert, if_pos rfl]
    · rw [if_neg hname]
      refine ⟨fun hnone => ?_, hpresent⟩
      rw [hmissing hnone, NameMap.get?_insert, if_neg hname]

/-- The lists may be visited in any order. -/
theorem addTries_eq_of_perm {a : Alphabet} {lists lists' : List (String × List String)}
    {result : Catalog} (hnodup : (lists.map Prod.fst).Nodup) (hperm : lists'.Perm lists)
    (h : addTries a lists .empty = .ok result) : addTries a lists' .empty = .ok result := by
  have hnodup' : (lists'.map Prod.fst).Nodup := (hperm.map Prod.fst).nodup_iff.2 hnodup
  have hspell : ∀ list ∈ lists', ∀ word ∈ list.2, ∃ path, a.spell word = .ok path := by
    intro ⟨name, words⟩ hlist word hword
    obtain ⟨t, -, ht⟩ := (get?_addTries hnodup h name).2 words
      ((lookup_eq_some_iff_mem hnodup).2 (hperm.mem_iff.1 hlist))
    exact Trie.exists_spell_of_ofWords ht hword
  obtain ⟨result', h'⟩ := addTries_eq_ok hspell .empty
  rw [h']
  congr 1
  refine NameMap.ext_get? fun name => ?_
  obtain ⟨hmissing, hpresent⟩ := get?_addTries hnodup h name
  obtain ⟨hmissing', hpresent'⟩ := get?_addTries hnodup' h' name
  rw [lookup_eq_of_perm hnodup' hperm] at hmissing' hpresent'
  cases hlookup : lists.lookup name with
  | none => rw [hmissing hlookup, hmissing' hlookup]
  | some words =>
    obtain ⟨t, hget, ht⟩ := hpresent words hlookup
    obtain ⟨t', hget', ht'⟩ := hpresent' words hlookup
    rw [hget, hget']
    exact congrArg some (Except.ok.inj (ht'.symm.trans ht))

/-! ## Lexicons -/

theorem ofLists_eq_ok_iff {normalize : Normalizer} {lists : List (String × List String)}
    {lexicon : Lexicon} : ofLists normalize lists = .ok lexicon ↔
      Alphabet.ofBatches normalize (lists.map Prod.snd) = lexicon.alphabet ∧
        addTries lexicon.alphabet lists .empty = .ok lexicon.tries := by
  obtain ⟨alphabet, tries⟩ := lexicon
  rw [ofLists]
  constructor
  · intro h
    cases htries : addTries (Alphabet.ofBatches normalize (lists.map Prod.snd)) lists .empty with
    | error fault => simp only [htries] at h; cases h
    | ok result => simp only [htries] at h; cases h; exact ⟨rfl, htries⟩
  · rintro ⟨rfl, htries⟩
    simp only [htries]
    rfl

theorem ofLists_eq_ok (normalize : Normalizer) (lists : List (String × List String)) :
    ∃ tries, ofLists normalize lists =
      .ok ⟨Alphabet.ofBatches normalize (lists.map Prod.snd), tries⟩ := by
  have hspell : ∀ list ∈ lists, ∀ word ∈ list.2,
      ∃ path, (Alphabet.ofBatches normalize (lists.map Prod.snd)).spell word = .ok path := by
    intro list hlist word hword
    refine Alphabet.spell_isOk_iff.2 fun c hc => ?_
    exact Alphabet.mem_letters_ofBatches.2 ⟨list.2, List.mem_map_of_mem hlist, word, hword, hc⟩
  obtain ⟨tries, htries⟩ := addTries_eq_ok hspell .empty
  exact ⟨tries, ofLists_eq_ok_iff.2 ⟨rfl, htries⟩⟩

theorem alphabet_ofLists {normalize : Normalizer} {lists : List (String × List String)}
    {lexicon : Lexicon} (h : ofLists normalize lists = .ok lexicon) :
    lexicon.alphabet = Alphabet.ofBatches normalize (lists.map Prod.snd) :=
  (ofLists_eq_ok_iff.1 h).1.symm

theorem indexes_ofLists {normalize : Normalizer} {lists : List (String × List String)}
    {lexicon : Lexicon} (hnodup : (lists.map Prod.fst).Nodup)
    (h : ofLists normalize lists = .ok lexicon) : lexicon.Indexes lists := by
  have hget := get?_addTries hnodup (ofLists_eq_ok_iff.1 h).2
  exact ⟨fun name hname => (hget name).1 hname,
    fun name words hwords => (hget name).2 words hwords⟩

/-- The lexicon of word lists, visited in any order, has tries of these lists and the letters of
their words. -/
theorem exists_ofLists_of_perm (normalize : Normalizer) {lists : WordLists}
    {order : List (String × List String)} (horder : order.Perm lists.entries) :
    ∃ lexicon, ofLists normalize order = .ok lexicon ∧ lexicon.TriesOf lists ∧
      (∀ name, lexicon.tries.contains name = (lists.get? name).isSome) ∧
      lexicon.alphabet.normalize = normalize ∧
      ∀ c, c ∈ lexicon.alphabet.letters ↔ ∃ name words, lists.get? name = some words ∧
        ∃ word ∈ words, c ∈ normalize.canonical word := by
  have hnames : (lists.entries.map Prod.fst).Nodup := lists.nodup_names
  have horders : (order.map Prod.fst).Nodup := (horder.map Prod.fst).nodup_iff.2 hnames
  have hlookup : ∀ name, order.lookup name = lists.get? name := lookup_eq_of_perm horders horder
  obtain ⟨tries, hlexicon⟩ := ofLists_eq_ok normalize order
  have hindexes := indexes_ofLists horders hlexicon
  refine ⟨_, hlexicon, hindexes.triesOf fun name words h => by rwa [← hlookup], fun name => ?_, rfl,
    fun c => ?_⟩
  · rw [hindexes.contains_eq, hlookup]
  · rw [Alphabet.mem_letters_ofBatches]
    constructor
    · rintro ⟨words, hwords, hword⟩
      obtain ⟨⟨name, words⟩, hentry, rfl⟩ := List.mem_map.1 hwords
      exact ⟨name, words, by rw [← hlookup, lookup_eq_some_iff_mem horders]; exact hentry, hword⟩
    · rintro ⟨name, words, hwords, hword⟩
      rw [← hlookup, lookup_eq_some_iff_mem horders] at hwords
      exact ⟨words, List.mem_map.2 ⟨_, hwords, rfl⟩, hword⟩

/-- There is a trie for every list and no other. -/
theorem Indexes.names_eq_map {lexicon : Lexicon} {lists : List (String × List String)}
    (h : lexicon.Indexes lists) (hascending : (lists.map Prod.fst).Pairwise (· < ·)) :
    lexicon.tries.names = lists.map Prod.fst := by
  have hnodup : (lists.map Prod.fst).Nodup := hascending.imp fun {k n} hlt he => by
    rw [he] at hlt
    exact String.lt_irrefl n hlt
  have hperm : lexicon.tries.names.Perm (lists.map Prod.fst) :=
    (List.perm_ext_iff_of_nodup lexicon.tries.nodup_names hnodup).2 fun name => by
      rw [NameMap.mem_names_iff, h.contains_eq, List.lookup_isSome_iff, List.mem_map]
      constructor
      · rintro ⟨e, he, hname⟩
        exact ⟨e, he, (beq_iff_eq.1 hname).symm⟩
      · rintro ⟨e, he, rfl⟩
        exact ⟨e, he, BEq.rfl⟩
  exact hperm.eq_of_pairwise (fun n k _ _ hlt hgt => absurd hgt (String.lt_asymm hlt))
    lexicon.tries.names_pairwise hascending

theorem Indexes.names_eq {lexicon : Lexicon} {lists : WordLists} (h : lexicon.Indexes lists.entries) :
    lexicon.tries.names = lists.names :=
  h.names_eq_map lists.names_pairwise

/-- Building the lexicon of word lists never fails, and the lists may be visited in any order, in
one to count their letters and in another to build their tries; nor does it matter in which order
the letters that have been counted are listed.  There is a trie for every list and no other.  It has
no spelling at its root; at the end of any other path it has the distinct words of the list that are
spelled along the path, in the order of the list. -/
theorem ofWordLists_spec (normalize : Normalizer) (lists : WordLists) :
    ∃ lexicon, ofWordLists normalize lists = .ok lexicon ∧
      (∀ counted visited : List (String × List String),
        counted.Perm lists.entries → visited.Perm lists.entries →
          Alphabet.ofBatches normalize (counted.map Prod.snd) = lexicon.alphabet ∧
          (∀ tally : Tally, tally.entries.Perm
              ((counted.map Prod.snd).foldl (Tally.addTexts normalize) .empty).entries →
            Alphabet.ofTally normalize tally = lexicon.alphabet) ∧
          addTries lexicon.alphabet visited .empty = .ok lexicon.tries ∧
          ofLists normalize visited = .ok lexicon) ∧
      lexicon.tries.names = lists.names ∧
      ∀ name words, lists.get? name = some words → ∃ t, lexicon.tries.get? name = some t ∧
        t.spellings = [] ∧ ∀ path, path ≠ [] →
          t.spellingsAt path = (lexicon.alphabet.spelledAs words path).eraseDups := by
  have hnames : (lists.entries.map Prod.fst).Nodup := lists.nodup_names
  obtain ⟨tries, hlexicon⟩ := ofLists_eq_ok normalize lists.entries
  have hindexes := indexes_ofLists hnames hlexicon
  obtain ⟨-, htries⟩ := ofLists_eq_ok_iff.1 hlexicon
  refine ⟨_, hlexicon, fun counted visited hcounted hvisited => ?_, hindexes.names_eq,
    fun name words hwords => ?_⟩
  · have halphabet : ∀ {order : List (String × List String)}, order.Perm lists.entries →
        Alphabet.ofBatches normalize (order.map Prod.snd) =
          Alphabet.ofBatches normalize (lists.entries.map Prod.snd) :=
      fun horder => Alphabet.ofBatches_eq_of_perm normalize (horder.map Prod.snd)
    have hvisit := addTries_eq_of_perm hnames hvisited htries
    refine ⟨halphabet hcounted, fun tally htally => ?_, hvisit,
      ofLists_eq_ok_iff.2 ⟨halphabet hvisited, hvisit⟩⟩
    exact (Alphabet.ofTally_eq_of_perm normalize htally).trans (halphabet hcounted)
  · obtain ⟨t, ht, hof⟩ := hindexes.present name words hwords
    refine ⟨t, ht, ?_, fun path hpath => ?_⟩
    · rw [← Trie.spellingsAt_nil, Trie.spellingsAt_ofWords hof, if_pos rfl]
    · rw [Trie.spellingsAt_ofWords hof, if_neg hpath, Trie.foldl_addSpelling_nil]

end Lexicon

/-! ## Selected lists -/

theorem WordLists.select_eq_ok {lists : WordLists} {names : List String}
    {selected : List (String × List String)} (h : lists.select names = .ok selected) :
    selected.map Prod.fst = names ∧ ∀ name ∈ names, ∃ words,
      lists.get? name = some words ∧ selected.lookup name = some words := by
  induction names generalizing selected with
  | nil =>
    cases h
    exact ⟨rfl, nofun⟩
  | cons first names ih =>
    rw [select] at h
    cases hfirst : lists.get? first with
    | none => rw [hfirst] at h; cases h
    | some firstWords =>
      rw [hfirst] at h
      cases hrest : lists.select names with
      | error fault => rw [hrest] at h; cases h
      | ok rest =>
        rw [hrest] at h
        cases h
        obtain ⟨hmap, hlookup⟩ := ih hrest
        refine ⟨by rw [List.map_cons, hmap], fun name hname => ?_⟩
        rw [NameMap.lookup_cons_eq_ite]
        by_cases he : name = first
        · exact ⟨firstWords, by rw [he, hfirst], if_pos he⟩
        · have hrest := (List.mem_cons.1 hname).resolve_left he
          obtain ⟨words, hwords, hselected⟩ := hlookup name hrest
          exact ⟨words, hwords, by rw [if_neg he, hselected]⟩

/-- Selecting lists fails at the first name that has none. -/
theorem WordLists.select_eq_error_iff {lists : WordLists} {names : List String}
    {fault : Automaton.MissingList} :
    lists.select names = .error fault ↔
      names.find? (fun name => (lists.get? name).isNone) = some fault.name := by
  induction names with
  | nil => simp [select]
  | cons first names ih =>
    rw [select, List.find?_cons]
    cases hfirst : lists.get? first with
    | none =>
      obtain ⟨name⟩ := fault
      simp
    | some firstWords =>
      simp only [Option.isNone_some]
      rw [← ih]
      cases lists.select names <;> simp [Except.map]

end PhraseSearch
