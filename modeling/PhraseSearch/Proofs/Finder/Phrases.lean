import PhraseSearch.Proofs.Finder.Runs
import PhraseSearch.Proofs.Search.Findings

/-!
# All phrases of a grammar

`findPhrases` compiles, selects lists, indexes them, binds and searches, and each of these steps
can fail in one way only.  If none does, the phrases are the sequences of listed words that the
grammar allows and that have the letters of the phrase.

    solutions are listed words in an accepted order that have the letters  (exists_solves_iff)
    what may come of it                                                (findOutcome)
    all errors, and all phrases                                        (findPhrases_spec)
-/

namespace PhraseSearch

/-- Whether words follow list names: each is in the list of its name and has a letter. -/
def Listed (lists : WordLists) (normalize : Normalizer) (names words : List String) : Prop :=
  List.Forall₂ (fun name word => ∃ list, lists.get? name = some list ∧ word ∈ list ∧
    ∃ ch ∈ word.toList, ∃ c, normalize ch = some c) names words

namespace Alphabet

variable {alphabet : Alphabet} {words : List String} {letters : List Nat} {phrase : String}

/-- Words whose letters are all known are spelled one by one. -/
theorem exists_spellings (words : List String)
    (h : ∀ word ∈ words, ∀ c ∈ alphabet.normalize.canonical word, c ∈ alphabet.letters) :
    ∃ spellings,
      List.Forall₂ (fun word path => alphabet.spell word = .ok path) words spellings := by
  induction words with
  | nil => exact ⟨[], .nil⟩
  | cons word words ih =>
    obtain ⟨path, hpath⟩ := spell_isOk_iff.2 (h word List.mem_cons_self)
    obtain ⟨spellings, hspellings⟩ := ih fun w hw => h w (List.mem_cons_of_mem _ hw)
    exact ⟨path :: spellings, .cons hpath hspellings⟩

/-- Words use up the indices of a phrase exactly if their letters are a permutation of the letters
of the phrase. -/
theorem spelled_iff_perm (hspell : alphabet.spell phrase = .ok letters) :
    (∃ spellings, List.Forall₂ (fun word spelling => alphabet.spell word = .ok spelling ∧
      spelling ≠ []) words spellings ∧ spellings.flatten.Perm letters) ↔
      (∀ word ∈ words, alphabet.normalize.canonical word ≠ []) ∧
        (words.flatMap alphabet.normalize.canonical).Perm
          (alphabet.normalize.canonical phrase) := by
  constructor
  · rintro ⟨spellings, hspelled, hperm⟩
    have hpaths : List.Forall₂ (fun word path => alphabet.spell word = .ok path) words spellings :=
      hspelled.imp fun _ _ h => h.1
    refine ⟨fun word hword hnone => ?_, ?_⟩
    · obtain ⟨spelling, hspelling, hne⟩ := exists_of_forall₂ hspelled.flip hword
      rw [spell_isEmpty_iff.2 hnone] at hspelling
      cases hspelling
      exact hne rfl
    · exact (perm_iff_map_perm (map_position?_flatten hpaths) (spell_eq_ok_iff.1 hspell)).1 hperm
  · rintro ⟨hne, hperm⟩
    have hknown := spell_isOk_iff.1 ⟨letters, hspell⟩
    obtain ⟨spellings, hpaths⟩ := exists_spellings words fun word hword c hc =>
      hknown c (hperm.subset (List.mem_flatMap.2 ⟨word, hword, hc⟩))
    refine ⟨spellings, ?_, ?_⟩
    · have hboth := (List.forall₂_and_left words spellings).2 ⟨hne, hpaths⟩
      refine hboth.imp fun word spelling h => ⟨h.2, ?_⟩
      rintro rfl
      exact h.1 (spell_isEmpty_iff.1 h.2)
    · exact (perm_iff_map_perm (map_position?_flatten hpaths) (spell_eq_ok_iff.1 hspell)).2 hperm

end Alphabet

namespace Automaton

variable {a : Automaton} {alphabet : Alphabet} {lists : WordLists} {letters : List Nat}
  {words : List String} {phrase : String}

/-- Words follow the states of a path if they follow the list names along it. -/
theorem forall₂_list?_iff {r : String → String → Prop} {path : List Nat} :
    List.Forall₂ (fun state word => ∃ name, a.list? state = some name ∧ r name word) path words ↔
      ∃ names, path.map a.list? = names.map some ∧ List.Forall₂ r names words := by
  induction path generalizing words with
  | nil =>
    constructor
    · intro h
      cases h
      exact ⟨[], rfl, .nil⟩
    · rintro ⟨names, hnames, h⟩
      obtain rfl : names = [] := by simpa using hnames.symm
      cases h
      exact .nil
  | cons state path ih =>
    constructor
    · intro h
      cases h with
      | cons hword hwords =>
        obtain ⟨name, hname, hr⟩ := hword
        obtain ⟨names, hnames, h⟩ := ih.1 hwords
        exact ⟨name :: names, by rw [List.map_cons, List.map_cons, hname, hnames], .cons hr h⟩
    · rintro ⟨names, hnames, h⟩
      cases h with
      | nil => simp at hnames
      | cons hr h =>
        obtain ⟨hname, hnames⟩ := List.cons.inj hnames
        exact .cons ⟨_, hname, hr⟩ (ih.2 ⟨_, hnames, h⟩)

/-- The words of the solutions: those that follow accepted list names and have the letters of the
phrase. -/
theorem exists_solves_iff (a : Automaton) (lists : WordLists) (words : List String)
    (hspell : alphabet.spell phrase = .ok letters) :
    (∃ path, a.Solves alphabet lists letters path words) ↔ words ≠ [] ∧
      ∃ names, a.Accepts names ∧ Listed lists alphabet.normalize names words ∧
        (words.flatMap alphabet.normalize.canonical).Perm
          (alphabet.normalize.canonical phrase) := by
  let inList : String → String → Prop := fun name word =>
    ∃ list, lists.get? name = some list ∧ word ∈ list
  constructor
  · rintro ⟨path, hne, haccept, hlisted, hspelled⟩
    obtain ⟨hletters, hperm⟩ := (Alphabet.spelled_iff_perm hspell).1 hspelled
    have hpath : List.Forall₂ (fun state word => ∃ name, a.list? state = some name ∧
        inList name word) path words := by
      refine hlisted.imp ?_
      rintro state word ⟨name, list, hname, hlist, hword⟩
      exact ⟨name, hname, list, hlist, hword⟩
    obtain ⟨names, hnames, hwords⟩ := forall₂_list?_iff.1 hpath
    refine ⟨hne, names, ⟨path, haccept, hnames⟩, ?_, hperm⟩
    have hboth := (List.forall₂_and_left words names).2 ⟨hletters, hwords.flip⟩
    refine hboth.flip.imp ?_
    rintro name word ⟨hletter, list, hlist, hword⟩
    exact ⟨list, hlist, hword, Normalizer.canonical_ne_nil_iff.1 hletter⟩
  · rintro ⟨hne, names, ⟨path, haccept, hnames⟩, hlisted, hperm⟩
    have hwords : List.Forall₂ inList names words := by
      refine hlisted.imp ?_
      rintro name word ⟨list, hlist, hword, -⟩
      exact ⟨list, hlist, hword⟩
    have hletters : ∀ word ∈ words, alphabet.normalize.canonical word ≠ [] := by
      intro word hword
      obtain ⟨name, list, -, -, hletter⟩ := exists_of_forall₂ hlisted hword
      exact Normalizer.canonical_ne_nil_iff.2 hletter
    refine ⟨path, hne, haccept, ?_, (Alphabet.spelled_iff_perm hspell).2 ⟨hletters, hperm⟩⟩
    refine (forall₂_list?_iff.2 ⟨names, hnames, hwords⟩).imp ?_
    rintro state word ⟨name, hname, list, hlist, hword⟩
    exact ⟨name, list, hname, hlist, hword⟩

end Automaton

/-! ## What is needed -/

namespace Automaton

/-- Whether a list is needed but not there. -/
def Lacks (a : Automaton) (lists : WordLists) (name : String) : Prop :=
  name ∈ a.neededLists ∧ lists.get? name = none

/-- Whether a letter occurs in a word of a needed list. -/
def HasLetter (a : Automaton) (lists : WordLists) (normalize : Normalizer) (c : Char) : Prop :=
  ∃ name ∈ a.neededLists, ∃ words, lists.get? name = some words ∧
    ∃ word ∈ words, ∃ ch ∈ word.toList, normalize ch = some c

variable {a : Automaton} {lists : WordLists}

/-- The needed lists are in ascending order, so the first that is lacking is the least. -/
theorem least_of_find? {name : String}
    (h : a.neededLists.find? (fun name => (lists.get? name).isNone) = some name) :
    a.Lacks lists name ∧ ∀ other, a.Lacks lists other → name ≤ other := by
  have hleast : a.LeastMissing lists.contains name := by
    refine leastMissing_of_find? ?_
    simp only [NameMap.not_contains]
    exact h
  refine ⟨⟨hleast.needed, NameMap.contains_eq_false_iff.1 hleast.missing⟩, ?_⟩
  rintro other ⟨hmem, hother⟩
  exact hleast.least other hmem (NameMap.contains_eq_false_iff.2 hother)

end Automaton

/-! ## All at once -/

section

variable {grammar : List String} {lists : WordLists} {phrase : String} {a : Automaton}
  {f : Finder} {phrases : List (List String)} {letters : List Nat}

theorem findPhrases_of_fault {fault : Grammar.Fault}
    (h : Grammar.compileLines grammar = .error fault) :
    findPhrases grammar lists phrase = .error (.grammar fault) := by
  rw [findPhrases, h]
  rfl

theorem findPhrases_of_missing (h : Grammar.compileLines grammar = .ok a) {name : String}
    (hname : a.neededLists.find? (fun name => (lists.get? name).isNone) = some name) :
    findPhrases grammar lists phrase = .error (.missingList ⟨name⟩) := by
  rw [findPhrases, h]
  simp only [Except.mapError, bind, Except.bind, Finder.ofWordLists_eq_error hname]

/-- Where no list is missing, there is a finder, and what it does with the phrase counts. -/
theorem exists_finder (h : Grammar.compileLines grammar = .ok a)
    (hlists : ∀ name, ¬ a.Lacks lists name) :
    ∃ f : Finder, Finder.ofWordLists a lists .lettersOnly .default = .ok f ∧
      f.lexicon.alphabet.normalize = Normalizer.lettersOnly ∧
      (∀ c, c ∈ f.lexicon.alphabet.letters ↔ a.HasLetter lists Normalizer.lettersOnly c) ∧
      ∀ phrase, findPhrases grammar lists phrase =
        ((f.phrases phrase .default).mapError .unknownLetter).map Prod.fst := by
  have hpresent : ∀ name ∈ a.neededLists, (lists.get? name).isSome = true := by
    intro name hname
    cases hget : lists.get? name with
    | none => exact (hlists name ⟨hname, hget⟩).elim
    | some words => rfl
  obtain ⟨f, hf, -, -, hnormalize, hletters⟩ :=
    Finder.ofWordLists_eq_ok .lettersOnly .default hpresent
  simp only [Normalizer.mem_canonical] at hletters
  refine ⟨f, hf, hnormalize, hletters, fun phrase => ?_⟩
  rw [findPhrases, h]
  simp only [Except.mapError, bind, Except.bind, hf]
  cases f.phrases phrase .default <;> rfl

theorem findPhrases_of_unknown (h : Grammar.compileLines grammar = .ok a)
    (hlists : ∀ name, ¬ a.Lacks lists name) {ch c : Char} (hch : ch ∈ phrase.toList)
    (hc : Normalizer.lettersOnly ch = some c)
    (hunknown : ¬ a.HasLetter lists Normalizer.lettersOnly c) :
    findPhrases grammar lists phrase = .error (.unknownLetter (.inPhrase phrase)) := by
  obtain ⟨f, -, hnormalize, hletters, hphrases⟩ := exists_finder h hlists
  have hmem : c ∈ f.lexicon.alphabet.normalize.canonical phrase := by
    rw [hnormalize]
    exact Normalizer.mem_canonical.2 ⟨ch, hch, hc⟩
  rw [← hletters] at hunknown
  rw [hphrases, Finder.phrases, Finder.run_of_unknown hmem hunknown]
  rfl

/-- What a search for all phrases comes to: a finder for the letters of the phrase, and all complete
drafts. -/
structure FoundAll (grammar : List String) (lists : WordLists) (phrase : String) (a : Automaton)
    (f : Finder) (letters : List Nat) (phrases : List (List String)) : Prop where
  compiles : Grammar.compileLines grammar = .ok a
  builds : Finder.ofWordLists a lists .lettersOnly .default = .ok f
  normalize : f.lexicon.alphabet.normalize = Normalizer.lettersOnly
  spells : f.lexicon.alphabet.spell phrase = .ok letters
  finds : phrases = (f.automaton.completeDrafts (f.bagFor letters)).flatMap Draft.phrases

namespace FoundAll

theorem built (h : FoundAll grammar lists phrase a f letters phrases) : f.Built a lists :=
  Finder.built_of_ofWordLists h.builds

theorem rootsOpen (h : FoundAll grammar lists phrase a f letters phrases) : f.automaton.RootsOpen :=
  (h.built.indexed (Grammar.nodup_edges_of_compileLines h.compiles)).rootsOpen

/-- The phrases are those of the solutions, if no letter occurs too often. -/
theorem mem_iff (h : FoundAll grammar lists phrase a f letters phrases)
    (hfew : ∀ c, (Normalizer.lettersOnly.canonical phrase).count c < 2 ^ 32)
    (words : List String) : words ∈ phrases ↔ words ≠ [] ∧ ∃ names, a.Accepts names ∧
      Listed lists Normalizer.lettersOnly names words ∧
      (words.flatMap Normalizer.lettersOnly.canonical).Perm
        (Normalizer.lettersOnly.canonical phrase) := by
  rw [← h.normalize] at hfew
  obtain ⟨solutions, -, hmem, hsolutions⟩ :=
    Finder.exists_solutions_of_built h.built (Grammar.nodup_edges_of_compileLines h.compiles)
      h.spells (Alphabet.count_lt_of_map_position? (Alphabet.spell_eq_ok_iff.1 h.spells) hfew)
  have hiff := Automaton.exists_solves_iff a lists words h.spells
  rw [h.normalize] at hiff
  rw [← hiff, h.finds, hsolutions, List.mem_map]
  constructor
  · rintro ⟨⟨path, words⟩, hsolution, rfl⟩
    exact ⟨path, (hmem path words).1 hsolution⟩
  · rintro ⟨path, hpath⟩
    exact ⟨(path, words), (hmem path words).2 hpath, rfl⟩

/-- Workers that take turns in another way find the same phrases. -/
theorem perm_of_exhausted (h : FoundAll grammar lists phrase a f letters phrases)
    {starts : List Draft} (hstarts : f.starts phrase = .ok starts) {p : Pool}
    (hp : p.Exhausted f.automaton starts) : (p.handled.flatMap Draft.phrases).Perm phrases := by
  rw [Finder.starts_eq_ok h.spells] at hstarts
  cases hstarts
  rw [h.finds]
  exact (hp.handled_perm h.rootsOpen).flatMap_right Draft.phrases

end FoundAll

/-- Where nothing is missing, the phrases are found. -/
theorem exists_foundAll (h : Grammar.compileLines grammar = .ok a)
    (hlists : ∀ name, ¬ a.Lacks lists name)
    (hletters : ∀ ch ∈ phrase.toList, ∀ c, Normalizer.lettersOnly ch = some c →
      a.HasLetter lists Normalizer.lettersOnly c) :
    ∃ f letters phrases, FoundAll grammar lists phrase a f letters phrases ∧
      findPhrases grammar lists phrase = .ok phrases := by
  obtain ⟨f, hf, hnormalize, hknown, hphrases⟩ := exists_finder h hlists
  obtain ⟨letters, hspell⟩ : ∃ letters, f.lexicon.alphabet.spell phrase = .ok letters := by
    refine Alphabet.spell_isOk_iff.2 fun c hc => (hknown c).2 ?_
    rw [hnormalize, Normalizer.mem_canonical] at hc
    obtain ⟨ch, hch, hc⟩ := hc
    exact hletters ch hch c hc
  have hfound : FoundAll grammar lists phrase a f letters _ := ⟨h, hf, hnormalize, hspell, rfl⟩
  refine ⟨f, letters, _, hfound, ?_⟩
  have hlimits : f.limits .default = ⟨none, false⟩ := by
    rw [Finder.limits, Finder.config_of_ofWordLists hf]
    rfl
  obtain ⟨f', hrun⟩ := Finder.run_eq_ok hspell .default
  rw [hphrases, Finder.phrases, hrun,
    ← Finder.completed_run_of_limits hfound.rootsOpen hlimits letters]
  rfl

/-! ### Outcomes -/

/-- What `findPhrases` may come to: the first thing that goes wrong, or the phrases. -/
inductive FindOutcome (grammar : List String) (lists : WordLists) (phrase : String) :
    Except Error (List (List String)) → Prop where
  | fault {fault : Grammar.Fault} (compile : Grammar.compileLines grammar = .error fault) :
    FindOutcome grammar lists phrase (.error (.grammar fault))
  | missing {a : Automaton} {name : String} (compile : Grammar.compileLines grammar = .ok a)
      (lacks : a.Lacks lists name) (least : ∀ other, a.Lacks lists other → name ≤ other) :
    FindOutcome grammar lists phrase (.error (.missingList ⟨name⟩))
  | unknown {a : Automaton} {ch c : Char} (compile : Grammar.compileLines grammar = .ok a)
      (listed : ∀ name, ¬ a.Lacks lists name) (occurs : ch ∈ phrase.toList)
      (letter : Normalizer.lettersOnly ch = some c)
      (unknown : ¬ a.HasLetter lists Normalizer.lettersOnly c) :
    FindOutcome grammar lists phrase (.error (.unknownLetter (.inPhrase phrase)))
  | found {a : Automaton} {f : Finder} {letters : List Nat} {phrases : List (List String)}
      (listed : ∀ name, ¬ a.Lacks lists name)
      (known : ∀ ch ∈ phrase.toList, ∀ c, Normalizer.lettersOnly ch = some c →
        a.HasLetter lists Normalizer.lettersOnly c)
      (found : FoundAll grammar lists phrase a f letters phrases) :
    FindOutcome grammar lists phrase (.ok phrases)

theorem findOutcome (grammar : List String) (lists : WordLists) (phrase : String) :
    FindOutcome grammar lists phrase (findPhrases grammar lists phrase) := by
  cases hcompile : Grammar.compileLines grammar with
  | error fault =>
    rw [findPhrases_of_fault hcompile]
    exact .fault hcompile
  | ok a =>
    cases hfind : a.neededLists.find? fun name => (lists.get? name).isNone with
    | some name =>
      obtain ⟨hlacks, hleast⟩ := Automaton.least_of_find? hfind
      rw [findPhrases_of_missing hcompile hfind]
      exact .missing hcompile hlacks hleast
    | none =>
      have hlists : ∀ name, ¬ a.Lacks lists name := by
        rintro name ⟨hname, hnone⟩
        have hsome := Finder.find?_missing_eq_none.1 hfind name hname
        rw [hnone] at hsome
        cases hsome
      by_cases hletters : ∀ ch ∈ phrase.toList, ∀ c, Normalizer.lettersOnly ch = some c →
          a.HasLetter lists Normalizer.lettersOnly c
      · obtain ⟨f, letters, phrases, hfound, hphrases⟩ := exists_foundAll hcompile hlists hletters
        rw [hphrases]
        exact .found hlists hletters hfound
      · simp only [not_forall] at hletters
        obtain ⟨ch, hch, c, hc, hunknown⟩ := hletters
        rw [findPhrases_of_unknown hcompile hlists hch hc hunknown]
        exact .unknown hcompile hlists hch hc hunknown

theorem findPhrases_eq_grammar_iff {fault : Grammar.Fault} :
    findPhrases grammar lists phrase = .error (.grammar fault) ↔
      Grammar.compileLines grammar = .error fault := by
  refine ⟨fun h => ?_, findPhrases_of_fault⟩
  have houtcome := findOutcome grammar lists phrase
  rw [h] at houtcome
  cases houtcome with
  | fault compile => exact compile

theorem findPhrases_eq_missing_iff {name : String} :
    findPhrases grammar lists phrase = .error (.missingList ⟨name⟩) ↔
      ∃ a, Grammar.compileLines grammar = .ok a ∧ a.Lacks lists name ∧
        ∀ other, a.Lacks lists other → name ≤ other := by
  constructor
  · intro h
    have houtcome := findOutcome grammar lists phrase
    rw [h] at houtcome
    cases houtcome with
    | missing compile lacks least => exact ⟨_, compile, lacks, least⟩
  · rintro ⟨a, hcompile, hlacks, hleast⟩
    cases hfind : a.neededLists.find? fun name => (lists.get? name).isNone with
    | none =>
      have hsome := Finder.find?_missing_eq_none.1 hfind name hlacks.1
      rw [hlacks.2] at hsome
      cases hsome
    | some first =>
      obtain ⟨hfirst, hmin⟩ := Automaton.least_of_find? hfind
      rw [findPhrases_of_missing hcompile hfind,
        String.le_antisymm (hleast first hfirst) (hmin name hlacks)]

theorem findPhrases_eq_unknown_iff {fault : UnknownLetter} :
    findPhrases grammar lists phrase = .error (.unknownLetter fault) ↔
      fault = .inPhrase phrase ∧ ∃ a, Grammar.compileLines grammar = .ok a ∧
        (∀ name, ¬ a.Lacks lists name) ∧ ∃ ch ∈ phrase.toList, ∃ c,
          Normalizer.lettersOnly ch = some c ∧
          ¬ a.HasLetter lists Normalizer.lettersOnly c := by
  constructor
  · intro h
    have houtcome := findOutcome grammar lists phrase
    rw [h] at houtcome
    cases houtcome with
    | unknown compile listed occurs letter unknown =>
      exact ⟨rfl, _, compile, listed, _, occurs, _, letter, unknown⟩
  · rintro ⟨rfl, a, hcompile, hlists, ch, hch, c, hc, hunknown⟩
    exact findPhrases_of_unknown hcompile hlists hch hc hunknown

/-- Phrases are returned only where nothing is missing. -/
theorem exists_foundAll_of_eq_ok (h : findPhrases grammar lists phrase = .ok phrases) :
    ∃ a f letters, (∀ name, ¬ a.Lacks lists name) ∧
      (∀ ch ∈ phrase.toList, ∀ c, Normalizer.lettersOnly ch = some c →
        a.HasLetter lists Normalizer.lettersOnly c) ∧
      FoundAll grammar lists phrase a f letters phrases := by
  have houtcome := findOutcome grammar lists phrase
  rw [h] at houtcome
  cases houtcome with
  | found listed known found => exact ⟨_, _, _, listed, known, found⟩

/-- All that `findPhrases` can do.  A fault of the grammar comes first, then the least list that is
missing, then letters of the phrase that no word has; the letters of a word are never unknown.
Otherwise there are phrases, and they are those that the grammar, the lists and the letters allow,
if no letter of the phrase occurs 2^32 times.  Workers that take turns in another way find the same
phrases. -/
theorem findPhrases_spec (grammar : List String) (lists : WordLists) (phrase : String) :
    (∀ fault, findPhrases grammar lists phrase = .error (.grammar fault) ↔
      Grammar.compileLines grammar = .error fault) ∧
    (∀ name, findPhrases grammar lists phrase = .error (.missingList ⟨name⟩) ↔
      ∃ a, Grammar.compileLines grammar = .ok a ∧ a.Lacks lists name ∧
        ∀ other, a.Lacks lists other → name ≤ other) ∧
    (∀ fault, findPhrases grammar lists phrase = .error (.unknownLetter fault) ↔
      fault = .inPhrase phrase ∧ ∃ a, Grammar.compileLines grammar = .ok a ∧
        (∀ name, ¬ a.Lacks lists name) ∧ ∃ ch ∈ phrase.toList, ∃ c,
          Normalizer.lettersOnly ch = some c ∧
          ¬ a.HasLetter lists Normalizer.lettersOnly c) ∧
    ((∃ phrases, findPhrases grammar lists phrase = .ok phrases) ↔
      ∃ a, Grammar.compileLines grammar = .ok a ∧ (∀ name, ¬ a.Lacks lists name) ∧
        ∀ ch ∈ phrase.toList, ∀ c, Normalizer.lettersOnly ch = some c →
          a.HasLetter lists Normalizer.lettersOnly c) ∧
    ∀ phrases, findPhrases grammar lists phrase = .ok phrases →
      ((∀ c, (phrase.toList.filterMap Normalizer.lettersOnly).count c < 2 ^ 32) →
        ∃ rule rules, Grammar.rulesOf grammar = .ok (rule :: rules) ∧
          ∀ words, words ∈ phrases ↔ words ≠ [] ∧ ∃ names,
            Rule.Derives (rule :: rules) [.rule rule.name] names ∧
            Listed lists Normalizer.lettersOnly names words ∧
            (words.flatMap fun word => word.toList.filterMap Normalizer.lettersOnly).Perm
              (phrase.toList.filterMap Normalizer.lettersOnly)) ∧
      ∃ a f starts, Grammar.compileLines grammar = .ok a ∧
        Finder.ofWordLists a lists .lettersOnly .default = .ok f ∧
        f.starts phrase = .ok starts ∧ ∀ p : Pool, p.Exhausted f.automaton starts →
          (p.handled.flatMap Draft.phrases).Perm phrases := by
  refine ⟨fun _ => findPhrases_eq_grammar_iff, fun _ => findPhrases_eq_missing_iff,
    fun _ => findPhrases_eq_unknown_iff, ⟨?_, ?_⟩, fun phrases h => ?_⟩
  · rintro ⟨phrases, h⟩
    obtain ⟨a, f, letters, hlists, hknown, hfound⟩ := exists_foundAll_of_eq_ok h
    exact ⟨a, hfound.compiles, hlists, hknown⟩
  · rintro ⟨a, hcompile, hlists, hknown⟩
    obtain ⟨f, letters, phrases, -, h⟩ := exists_foundAll hcompile hlists hknown
    exact ⟨phrases, h⟩
  · obtain ⟨a, f, letters, -, -, hfound⟩ := exists_foundAll_of_eq_ok h
    have hstarts := Finder.starts_eq_ok hfound.spells
    refine ⟨fun hfew => ?_, a, f, _, hfound.compiles, hfound.builds, hstarts,
      fun p hp => hfound.perm_of_exhausted hstarts hp⟩
    obtain ⟨rule, rules, hrules, haccepts, -⟩ := Grammar.language_compileLines hfound.compiles
    refine ⟨rule, rules, hrules, fun words => ?_⟩
    rw [hfound.mem_iff hfew]
    simp only [haccepts]
    rfl

end

end PhraseSearch
