import PhraseSearch.Proofs.Finder.Building
import PhraseSearch.Proofs.Grammar.Language
import PhraseSearch.Proofs.Letter.Cells
import PhraseSearch.Proofs.Search.Schedules

/-!
# What a run finds

A run begins with the letters of the phrase, and the complete drafts of its search stand for the
solutions: every accepting path with words of its lists that use up the letters.  Each solution
comes up once, in whatever order the drafts are expanded.  Letters are counted in cells of 32 bits;
a letter that fills its cell is never used up, so then there is nothing to be found.

    a run hands over the complete drafts                               (completed_run_of_limits)
    there are none if a cell gets full                                 (completeDrafts_eq_nil_of_full)
    their phrases are those of the solutions                           (run_perm_solutions)
-/

namespace PhraseSearch

namespace Automaton

variable {a : Automaton} {alphabet : Alphabet} {lists : WordLists} {letters : List Nat}

/-- Without letters there is nothing to be found. -/
theorem completeDrafts_eq_nil (hindexed : a.Indexed alphabet lists) {bag : Bag}
    (hbag : bag.total = 0) : a.completeDrafts bag = [] := by
  rw [List.eq_nil_iff_forall_not_mem]
  intro d hd
  obtain ⟨⟨steps, h⟩, hcompletes⟩ := (mem_completeDrafts hindexed).1 hd
  obtain ⟨-, hends, -⟩ := completes_iff.1 hcompletes
  obtain ⟨placed, rest, root, hsteps, hroot, hwalk⟩ := h.at_last
  have htotal := h.total
  rw [hbag, hsteps, placedLetters, List.flatMap_cons, List.length_append] at htotal
  have hplaced : placed = [] := by
    apply List.eq_nil_of_length_eq_zero
    simp only at htotal
    omega
  rw [hplaced] at hwalk
  cases hwalk
  rw [hindexed.rootsOpen _ _ hroot] at hends
  cases hends

theorem Solves.ne_nil {path : List Nat} {words : List String}
    (h : a.Solves alphabet lists letters path words) : letters ≠ [] := by
  rintro rfl
  obtain ⟨spellings, hspelled, hperm⟩ := h.spelled
  cases hspelled with
  | nil => exact h.nonempty rfl
  | cons hword _ =>
    obtain ⟨hspelling, -⟩ := List.append_eq_nil_iff.1 hperm.eq_nil
    exact hword.2 hspelling

end Automaton

namespace Finder

variable {a : Automaton} {lists : WordLists} {f : Finder} {phrase : String} {letters : List Nat}
  {options : RunOptions}

/-- The bag with which the search for some letters begins. -/
def bagFor (f : Finder) (letters : List Nat) : Bag :=
  (letters.foldl Bag.add (Bag.empty f.lexicon.alphabet.size)).inCells

theorem total_bagFor (f : Finder) (letters : List Nat) :
    (f.bagFor letters).total = letters.length := by
  show (letters.foldl Bag.add _).total = _
  rw [Bag.total_foldl_add]
  exact Nat.zero_add _

theorem get_bagFor (h : f.lexicon.alphabet.spell phrase = .ok letters) (i : Nat) :
    (f.bagFor letters).get i = letters.count i % 2 ^ 32 := by
  rw [bagFor, Bag.get_inCells, Alphabet.get_bagOf h]

theorem starts_eq_ok (h : f.lexicon.alphabet.spell phrase = .ok letters) :
    f.starts phrase = .ok (f.automaton.starts (f.bagFor letters)) := by
  rw [starts, Alphabet.bagOf_of_spell h, bagFor]
  rfl

/-- A phrase that can be spelled is searched for. -/
theorem run_eq_ok (h : f.lexicon.alphabet.spell phrase = .ok letters) (options : RunOptions) :
    ∃ f', f.run phrase options =
      .ok (f.automaton.run (f.automaton.starts (f.bagFor letters)) (f.limits options), f') := by
  rw [run, starts_eq_ok h]
  exact ⟨_, rfl⟩

/-- A phrase with an unknown letter is refused. -/
theorem run_of_unknown {c : Char} (hc : c ∈ f.lexicon.alphabet.normalize.canonical phrase)
    (hunknown : c ∉ f.lexicon.alphabet.letters) (options : RunOptions) :
    f.run phrase options = .error (.inPhrase phrase) := by
  rw [run, starts, Alphabet.bagOf_eq_error_iff.2 ⟨rfl, c, hc, hunknown⟩]
  rfl

/-- A run that nothing cuts short hands over the complete drafts. -/
theorem completed_run_of_limits (hroots : f.automaton.RootsOpen)
    (hlimits : f.limits options = ⟨none, false⟩) (letters : List Nat) :
    (f.automaton.run (f.automaton.starts (f.bagFor letters)) (f.limits options)).completed =
      f.automaton.completeDrafts (f.bagFor letters) := by
  rw [Automaton.completed_run hroots, hlimits]
  rfl

/-- So does every schedule that exhausts the search. -/
theorem handled_perm_completeDrafts (hroots : f.automaton.RootsOpen) {s : Session}
    (hs : Session.Schedule f.automaton none (.start (f.automaton.starts (f.bagFor letters))) s)
    (hover : s.Exhausted) : s.handled.Perm (f.automaton.completeDrafts (f.bagFor letters)) :=
  (hs.balanced hroots (Session.balanced_start _ _)).handled_perm hover

/-- The solutions of the letters of a phrase, and the phrases of the complete drafts, if no letter
occurs so often that its cell gets full. -/
theorem exists_solutions_of_built (hbuilt : f.Built a lists) (hnodup : ∀ id, (a.edges id).Nodup)
    (hspell : f.lexicon.alphabet.spell phrase = .ok letters)
    (hfew : ∀ i, letters.count i < 2 ^ 32) :
    ∃ solutions : List (List Nat × List String), solutions.Nodup ∧
      (∀ path words, (path, words) ∈ solutions ↔
        a.Solves f.lexicon.alphabet lists letters path words) ∧
      (f.automaton.completeDrafts (f.bagFor letters)).flatMap Draft.phrases =
        solutions.map Prod.snd := by
  have hget : ∀ i, (f.bagFor letters).get i = letters.count i := fun i =>
    (get_bagFor hspell i).trans (Nat.mod_eq_of_lt (hfew i))
  obtain ⟨solutions, hdistinct, hmem, hphrases⟩ :=
    Automaton.exists_solutions (hbuilt.indexed hnodup) hget (f.total_bagFor letters)
  refine ⟨solutions, hdistinct, fun path words => ?_, hphrases⟩
  rw [hmem, Automaton.solves_of_bind hbuilt.bound]

/-- If a cell gets full, letters of it are missing, and nothing is found. -/
theorem completeDrafts_eq_nil_of_full (hbuilt : f.Built a lists)
    (hnodup : ∀ id, (a.edges id).Nodup) (hspell : f.lexicon.alphabet.spell phrase = .ok letters)
    {i : Nat} (hfull : 2 ^ 32 ≤ letters.count i) :
    f.automaton.completeDrafts (f.bagFor letters) = [] := by
  refine Automaton.completeDrafts_eq_nil_of_lt (hbuilt.indexed hnodup) (fun j => ?_)
    (f.total_bagFor letters) (i := i) ?_
  · rw [get_bagFor hspell]
    exact Nat.mod_le _ _
  · rw [get_bagFor hspell]
    exact Nat.lt_of_lt_of_le (Nat.mod_lt _ (by decide)) hfull

/-- Whatever is found are solutions. -/
theorem exists_solves_of_mem_phrases (hbuilt : f.Built a lists)
    (hnodup : ∀ id, (a.edges id).Nodup) (hspell : f.lexicon.alphabet.spell phrase = .ok letters)
    {words : List String}
    (hwords : words ∈ (f.automaton.completeDrafts (f.bagFor letters)).flatMap Draft.phrases) :
    ∃ path, a.Solves f.lexicon.alphabet lists letters path words := by
  by_cases hfew : ∀ i, letters.count i < 2 ^ 32
  · obtain ⟨solutions, -, hmem, hphrases⟩ :=
      exists_solutions_of_built hbuilt hnodup hspell hfew
    rw [hphrases] at hwords
    obtain ⟨⟨path, words⟩, hsolution, rfl⟩ := List.mem_map.1 hwords
    exact ⟨path, (hmem path words).1 hsolution⟩
  · obtain ⟨i, hfull⟩ := not_forall.1 hfew
    rw [completeDrafts_eq_nil_of_full hbuilt hnodup hspell (Nat.le_of_not_lt hfull)] at hwords
    cases hwords

/-- What is searched for can be spelled. -/
theorem exists_spell_of_run {r : Run} {f' : Finder} (h : f.run phrase options = .ok (r, f')) :
    ∃ letters, f.lexicon.alphabet.spell phrase = .ok letters ∧
      r = f.automaton.run (f.automaton.starts (f.bagFor letters)) (f.limits options) := by
  have hknown : ∀ c ∈ f.lexicon.alphabet.normalize.canonical phrase,
      c ∈ f.lexicon.alphabet.letters := by
    intro c hc
    by_contra hunknown
    rw [run_of_unknown hc hunknown options] at h
    cases h
  obtain ⟨letters, hspell⟩ := Alphabet.spell_isOk_iff.2 hknown
  obtain ⟨f'', hrun⟩ := run_eq_ok hspell options
  rw [hrun] at h
  cases h
  exact ⟨letters, hspell, rfl⟩

/-- The words that a run finds are words of the lists. -/
theorem listed_of_mem_phrases (hbuilt : f.Built a lists) (hnodup : ∀ id, (a.edges id).Nodup)
    (hspell : f.lexicon.alphabet.spell phrase = .ok letters) {words : List String}
    (hwords : words ∈ (f.automaton.completeDrafts (f.bagFor letters)).flatMap Draft.phrases) :
    ∀ word ∈ words, ∃ name list, lists.get? name = some list ∧ word ∈ list := by
  obtain ⟨path, hsolves⟩ := exists_solves_of_mem_phrases hbuilt hnodup hspell hwords
  intro word hword
  obtain ⟨state, name, list, -, hlist, hin⟩ := exists_of_forall₂ hsolves.listed hword
  exact ⟨name, list, hlist, hin⟩

/-- The phrases of a run that nothing cuts short are those of the solutions, each solution counted
once, and so are those of every schedule that exhausts the search.  No letter of the phrase may
occur 2^32 times.  A phrase without letters has no solution. -/
theorem run_perm_solutions {grammar : List String} {normalize : Normalizer}
    {config : FinderConfig} (hcompile : Grammar.compileLines grammar = .ok a)
    (hfinder : ofWordLists a lists normalize config = .ok f ∨
      ∃ lexicon : Lexicon, lexicon.TriesOf lists ∧ ofLexicon a lexicon config = .ok f)
    (hspell : f.lexicon.alphabet.spell phrase = .ok letters)
    (hfew : ∀ i, letters.count i < 2 ^ 32) (hlimits : f.limits options = ⟨none, false⟩) :
    ∃ r f' starts, ∃ solutions : List (List Nat × List String),
      f.run phrase options = .ok (r, f') ∧ f.starts phrase = .ok starts ∧
      solutions.Nodup ∧
      (∀ path words, (path, words) ∈ solutions ↔
        a.Solves f.lexicon.alphabet lists letters path words) ∧
      (r.completed.flatMap Draft.phrases).Perm (solutions.map Prod.snd) ∧
      (∀ s, Session.Schedule f.automaton none (.start starts) s → s.Exhausted →
        (s.handled.flatMap Draft.phrases).Perm (solutions.map Prod.snd)) ∧
      (letters = [] → r.completed = [] ∧ solutions = []) := by
  have hbuilt : f.Built a lists := by
    rcases hfinder with hfinder | ⟨lexicon, htries, hfinder⟩
    · exact built_of_ofWordLists hfinder
    · exact built_of_ofLexicon htries hfinder
  have hnodup := Grammar.nodup_edges_of_compileLines hcompile
  have hindexed := hbuilt.indexed hnodup
  obtain ⟨solutions, hdistinct, hmem, hphrases⟩ :=
    exists_solutions_of_built hbuilt hnodup hspell hfew
  obtain ⟨f', hrun⟩ := run_eq_ok hspell options
  have hcompleted := completed_run_of_limits hindexed.rootsOpen hlimits letters
  refine ⟨_, f', _, solutions, hrun, starts_eq_ok hspell, hdistinct, hmem, ?_, ?_, ?_⟩
  · rw [hcompleted, hphrases]
  · intro s hs hover
    rw [← hphrases]
    exact (handled_perm_completeDrafts hindexed.rootsOpen hs hover).flatMap_right Draft.phrases
  · rintro rfl
    have hnone : f.automaton.completeDrafts (f.bagFor []) = [] :=
      Automaton.completeDrafts_eq_nil hindexed rfl
    refine ⟨by rw [hcompleted, hnone], ?_⟩
    rw [List.eq_nil_iff_forall_not_mem]
    rintro ⟨path, words⟩ hsolution
    exact ((hmem path words).1 hsolution).ne_nil rfl

/-- The automaton of one word or more: a first word, and others in a loop. -/
def wordsAutomaton : Automaton :=
  ⟨#[⟨.start, [2]⟩, ⟨.finish, []⟩, ⟨.word "word" none, [1, 3]⟩, ⟨.word "word" none, [3, 1]⟩]⟩

/-- Three words of two letters, one of them with a space inside. -/
def threeWords : WordLists := .ofList [("word", ["a b", "a", "b"])]

/-- Their lexicon. -/
def twoLetters : Lexicon :=
  let alphabet : Alphabet := ⟨.lettersOnly, ['a', 'b'], by decide⟩
  ⟨alphabet, .ofList [("word", (Trie.ofWords alphabet ["a b", "a", "b"]).toOption.getD .empty)]⟩

theorem compileLines_eq_wordsAutomaton :
    Grammar.compileLines ["phrase -> <word>+"] = .ok wordsAutomaton := by
  have hsame : (Grammar.compileLines ["phrase -> <word>+"]).toOption = some wordsAutomaton := by
    decide +kernel
  cases hcompile : Grammar.compileLines ["phrase -> <word>+"] with
  | error fault =>
    rw [hcompile] at hsame
    cases hsame
  | ok a =>
    rw [hcompile] at hsame
    exact congrArg Except.ok (Option.some.inj hsame)

theorem ofLists_eq_twoLetters :
    Lexicon.ofLists .lettersOnly [("word", ["a b", "a", "b"])] = .ok twoLetters := by
  have hentries : (Tally.addTexts .lettersOnly .empty ["a b", "a", "b"]).entries =
      [('a', 2), ('b', 2)] := by
    decide +kernel
  have hletters : Alphabet.ofBatches .lettersOnly [["a b", "a", "b"]] = twoLetters.alphabet := by
    rw [Alphabet.ofBatches, Alphabet.ofTally]
    simp [hentries, List.mergeSort, List.MergeSort.Internal.splitInTwo, Alphabet.comesBefore,
      twoLetters]
  rw [Lexicon.ofLists]
  simp only [List.map_cons, List.map_nil, hletters]
  rfl

/-- The finder of the three words. -/
def wordsFinder : Finder :=
  ⟨(wordsAutomaton.bind twoLetters.tries).toOption.getD wordsAutomaton, twoLetters, .default, 0⟩

theorem ofWordLists_eq_wordsFinder :
    ofWordLists wordsAutomaton threeWords .lettersOnly .default = .ok wordsFinder := by
  have hneeded : threeWords.select wordsAutomaton.neededLists =
      .ok [("word", ["a b", "a", "b"])] := by
    rfl
  rw [ofWordLists, hneeded]
  simp only [Except.mapError, bind, Except.bind, ofLists_eq_twoLetters]
  rfl

theorem run_perm_solutions_of_three_words :
    ∃ r f', ∃ solutions : List (List Nat × List String),
      Grammar.compileLines ["phrase -> <word>+"] = .ok wordsAutomaton ∧
      ofWordLists wordsAutomaton threeWords .lettersOnly .default = .ok wordsFinder ∧
      wordsFinder.lexicon.alphabet.spell "B a!" = .ok [1, 0] ∧ (∀ i, [1, 0].count i < 2 ^ 32) ∧
      wordsFinder.limits .default = ⟨none, false⟩ ∧
      wordsFinder.run "B a!" .default = .ok (r, f') ∧ solutions.Nodup ∧
      (∀ path words, (path, words) ∈ solutions ↔
        wordsAutomaton.Solves twoLetters.alphabet threeWords [1, 0] path words) ∧
      (solutions.map Prod.snd).Perm [["b", "a"], ["a", "b"], ["a b"]] ∧
      ([2, 3], ["b", "a"]) ∈ solutions := by
  have hspell : wordsFinder.lexicon.alphabet.spell "B a!" = .ok [1, 0] := by rfl
  have hfew : ∀ i, [1, 0].count i < 2 ^ 32 := fun i =>
    Nat.lt_of_le_of_lt List.count_le_length (by decide)
  have hlimits : wordsFinder.limits .default = ⟨none, false⟩ := rfl
  obtain ⟨r, f', -, solutions, hrun, -, hdistinct, hmem, hperm, -, -⟩ :=
    run_perm_solutions compileLines_eq_wordsAutomaton (.inl ofWordLists_eq_wordsFinder) hspell
      hfew hlimits
  have hphrases : (wordsFinder.run "B a!" .default).toOption.map
      (fun found => found.1.completed.flatMap Draft.phrases) =
        some [["b", "a"], ["a", "b"], ["a b"]] := by
    decide +kernel
  rw [hrun] at hphrases
  refine ⟨r, f', solutions, compileLines_eq_wordsAutomaton, ofWordLists_eq_wordsFinder, hspell,
    hfew, hlimits, hrun, hdistinct, hmem, ?_, (hmem _ _).2 ?_⟩
  · rw [← Option.some.inj hphrases]
    exact hperm.symm
  · refine ⟨by simp, .step (by decide) (.step (by decide) (.last (by decide))), ?_, [[1], [0]], ?_,
      .refl _⟩
    · exact .cons ⟨"word", _, rfl, rfl, by decide⟩ (.cons ⟨"word", _, rfl, rfl, by decide⟩ .nil)
    · exact .cons ⟨rfl, by decide⟩ (.cons ⟨rfl, by decide⟩ .nil)

end Finder

end PhraseSearch
