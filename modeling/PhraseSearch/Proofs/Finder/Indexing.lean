import PhraseSearch.Proofs.Finder.Phrases
import PhraseSearch.Proofs.Search.Findings

/-!
# Indices do not matter

A finder may be built over the lists that its automaton needs, or over a lexicon of more lists.
Then the alphabets differ: letters are counted in more words, and there may be more of them.  The
searches go another way, and come to the same: either finder expands as many drafts, hands over as
many, and finds the same phrases.  Only a phrase with letters that no needed list has is refused by
the one and searched in vain by the other.

    both searches of a phrase that both can spell find the same        (findings_eq_of_built)
    either both finders can be built, and agree, or neither can        (agrees_of_ofLexicon)
-/

namespace PhraseSearch

/-- A bound on the counts of one spelling is one for the other. -/
theorem Alphabet.count_lt_of_agree {a a' : Alphabet} {p q : List Nat} {n : Nat}
    (h : List.Forall₂ (a.Agree a') p q) (hcount : ∀ i, p.count i < n) (j : Nat) : q.count j < n := by
  by_cases hj : j ∈ q
  · obtain ⟨i, hij⟩ := exists_of_forall₂ h hj
    rw [← count_eq_of_agree h hij]
    exact hcount i
  · rw [List.count_eq_zero_of_not_mem hj]
    exact Nat.lt_of_le_of_lt (Nat.zero_le _) (hcount j)

namespace Automaton

variable {a : Automaton} {alphabet alphabet' : Alphabet} {lists : WordLists}
  {letters letters' : List Nat} {phrase : String}

/-- The solutions of a phrase do not depend on the alphabet that it is spelled in. -/
theorem solves_congr (hnormalize : alphabet.normalize = alphabet'.normalize)
    (hspell : alphabet.spell phrase = .ok letters)
    (hspell' : alphabet'.spell phrase = .ok letters') {path : List Nat} {words : List String} :
    a.Solves alphabet lists letters path words ↔ a.Solves alphabet' lists letters' path words := by
  constructor
  · intro h
    have hspelled := (Alphabet.spelled_iff_perm hspell).1 h.spelled
    rw [hnormalize] at hspelled
    exact ⟨h.nonempty, h.accepting, h.listed, (Alphabet.spelled_iff_perm hspell').2 hspelled⟩
  · intro h
    have hspelled := (Alphabet.spelled_iff_perm hspell').1 h.spelled
    rw [← hnormalize] at hspelled
    exact ⟨h.nonempty, h.accepting, h.listed, (Alphabet.spelled_iff_perm hspell).2 hspelled⟩

/-- A phrase with a letter that no needed list has is not solved. -/
theorem not_solves_of_unknown (hspell : alphabet.spell phrase = .ok letters) {c : Char}
    (hc : c ∈ alphabet.normalize.canonical phrase)
    (hunknown : ¬ a.HasLetter lists alphabet.normalize c) (path : List Nat) (words : List String) :
    ¬ a.Solves alphabet lists letters path words := by
  intro h
  obtain ⟨-, hperm⟩ := (Alphabet.spelled_iff_perm hspell).1 h.spelled
  obtain ⟨word, hword, hcword⟩ := List.mem_flatMap.1 (hperm.mem_iff.2 hc)
  obtain ⟨state, name, list, hname, hlist, hmem⟩ := exists_of_forall₂ h.listed hword
  exact hunknown ⟨name, mem_neededLists.2 ⟨state, hname⟩, list, hlist, word, hmem,
    Normalizer.mem_canonical.1 hcword⟩

end Automaton

namespace Finder

variable {a : Automaton} {lists : WordLists} {f g : Finder} {phrase : String}
  {letters letters' : List Nat}

/-! ## Two finders of one automaton -/

theorem counterparts_of_built (hf : f.Built a lists) (hg : g.Built a lists)
    (hnodup : ∀ id, (a.edges id).Nodup)
    (hnormalize : f.lexicon.alphabet.normalize = g.lexicon.alphabet.normalize)
    (hspell : f.lexicon.alphabet.spell phrase = .ok letters)
    (hspell' : g.lexicon.alphabet.spell phrase = .ok letters') :
    Automaton.Counterparts f.automaton g.automaton f.lexicon.alphabet g.lexicon.alphabet lists
      (f.bagFor letters) (g.bagFor letters') where
  edges id := (Automaton.edges_of_bind hf.bound id).trans (Automaton.edges_of_bind hg.bound id).symm
  list? id := (Automaton.list?_of_bind hf.bound id).trans (Automaton.list?_of_bind hg.bound id).symm
  left := hf.indexed hnodup
  right := hg.indexed hnodup
  normalize := hnormalize
  total := by
    rw [total_bagFor, total_bagFor]
    exact (Alphabet.forall₂_agree_of_spell hnormalize hspell hspell').length_eq
  get i j hij := by
    rw [get_bagFor hspell, get_bagFor hspell']
    congr 1
    exact Alphabet.count_eq_of_agree (Alphabet.forall₂_agree_of_spell hnormalize hspell hspell') hij

/-- Either both have room for all letters of a phrase, and find its solutions, or both find
nothing. -/
theorem phrases_perm_of_built (hf : f.Built a lists) (hg : g.Built a lists)
    (hnodup : ∀ id, (a.edges id).Nodup)
    (hnormalize : f.lexicon.alphabet.normalize = g.lexicon.alphabet.normalize)
    (hspell : f.lexicon.alphabet.spell phrase = .ok letters)
    (hspell' : g.lexicon.alphabet.spell phrase = .ok letters') :
    ((f.automaton.completeDrafts (f.bagFor letters)).flatMap Draft.phrases).Perm
      ((g.automaton.completeDrafts (g.bagFor letters')).flatMap Draft.phrases) := by
  have hagree := Alphabet.forall₂_agree_of_spell hnormalize hspell hspell'
  by_cases hfew : ∀ i, letters.count i < 2 ^ 32
  · obtain ⟨solutions, hdistinct, hmem, hphrases⟩ :=
      exists_solutions_of_built hf hnodup hspell hfew
    obtain ⟨solutions', hdistinct', hmem', hphrases'⟩ :=
      exists_solutions_of_built hg hnodup hspell' (Alphabet.count_lt_of_agree hagree hfew)
    have hperm : solutions.Perm solutions' := by
      refine (List.perm_ext_iff_of_nodup hdistinct hdistinct').2 fun ⟨path, words⟩ => ?_
      rw [hmem, hmem', Automaton.solves_congr hnormalize hspell hspell']
    rw [hphrases, hphrases']
    exact hperm.map Prod.snd
  · obtain ⟨i, hfull⟩ := not_forall.1 hfew
    have hnone := completeDrafts_eq_nil_of_full hf hnodup hspell (Nat.le_of_not_lt hfull)
    have hlength :=
      (counterparts_of_built hf hg hnodup hnormalize hspell hspell').length_completeDrafts_eq
    rw [hnone] at hlength
    rw [hnone, List.eq_nil_of_length_eq_zero hlength.symm]

/-- Two finders of one automaton begin as many drafts for a phrase that both can spell, and there is
the same to be found from these. -/
theorem findings_eq_of_built (hf : f.Built a lists) (hg : g.Built a lists)
    (hnodup : ∀ id, (a.edges id).Nodup)
    (hnormalize : f.lexicon.alphabet.normalize = g.lexicon.alphabet.normalize)
    (hspell : f.lexicon.alphabet.spell phrase = .ok letters)
    (hspell' : g.lexicon.alphabet.spell phrase = .ok letters') :
    (f.automaton.starts (f.bagFor letters)).length =
        (g.automaton.starts (g.bagFor letters')).length ∧
      f.automaton.findings (f.automaton.starts (f.bagFor letters)) =
        g.automaton.findings (g.automaton.starts (g.bagFor letters')) := by
  have hcounterparts := counterparts_of_built hf hg hnodup hnormalize hspell hspell'
  have hphrases := phrases_perm_of_built hf hg hnodup hnormalize hspell hspell'
  refine ⟨hcounterparts.length_starts_eq, ?_⟩
  rw [Automaton.findings_starts, Automaton.findings_starts, hcounterparts.length_eq,
    hcounterparts.length_completeDrafts_eq, Multiset.coe_eq_coe.2 hphrases]

theorem completeDrafts_eq_nil_of_unknown (hg : g.Built a lists)
    (hnodup : ∀ id, (a.edges id).Nodup) (hspell : g.lexicon.alphabet.spell phrase = .ok letters)
    {c : Char} (hc : c ∈ g.lexicon.alphabet.normalize.canonical phrase)
    (hunknown : ¬ a.HasLetter lists g.lexicon.alphabet.normalize c) :
    g.automaton.completeDrafts (g.bagFor letters) = [] := by
  refine List.eq_nil_iff_forall_not_mem.2 fun d hd => ?_
  obtain ⟨⟨steps, h⟩, hcompletes⟩ := (Automaton.mem_completeDrafts (hg.indexed hnodup)).1 hd
  obtain ⟨words, hwords⟩ := List.exists_mem_of_ne_nil _
    (Draft.phrases_ne_nil (h.endsWord (Automaton.completes_iff.1 hcompletes).2.1))
  obtain ⟨path, hsolves⟩ := exists_solves_of_mem_phrases hg hnodup hspell
    (List.mem_flatMap.2 ⟨d, hd, hwords⟩)
  exact Automaton.not_solves_of_unknown hspell hc hunknown path words hsolves

/-! ## More lists than needed -/

/-- Whether what a finder makes of a phrase is what another makes of it: where the one searches, so
does the other, and both find the same unless they are cut short; where the one refuses the phrase,
the other refuses it, or finds nothing. -/
structure Agrees (f g : Finder) (phrase : String) (options options' : RunOptions) : Prop where
  ok : ∀ r f', f.run phrase options = .ok (r, f') → ∃ starts starts' r' g',
    f.starts phrase = .ok starts ∧ g.starts phrase = .ok starts' ∧
      g.run phrase options' = .ok (r', g') ∧ starts.length = starts'.length ∧
      (r.Exhausted → r'.Exhausted → r.findings = r'.findings) ∧
      ∀ p p' : Pool, p.Exhausted f.automaton starts → p'.Exhausted g.automaton starts' →
        p.findings = p'.findings
  error : ∀ fault, f.run phrase options = .error fault → fault = .inPhrase phrase ∧
    (g.run phrase options' = .error fault ∨ ∃ starts' r' g', g.starts phrase = .ok starts' ∧
      g.run phrase options' = .ok (r', g') ∧ r'.completed = [] ∧
      ∀ workers sample p, Pool.Ended g.automaton workers starts' sample p → p.handled = [])

theorem spell_or_unknown (f : Finder) (phrase : String) :
    (∃ letters, f.lexicon.alphabet.spell phrase = .ok letters) ∨
      ∃ c ∈ f.lexicon.alphabet.normalize.canonical phrase, c ∉ f.lexicon.alphabet.letters := by
  rw [Alphabet.spell_isOk_iff]
  by_cases h : ∀ c ∈ f.lexicon.alphabet.normalize.canonical phrase, c ∈ f.lexicon.alphabet.letters
  · exact .inl h
  · exact .inr (by simpa using h)

/-- A finder whose alphabet has the letters of the needed lists agrees with one that knows more. -/
theorem agrees_of_built (hf : f.Built a lists) (hg : g.Built a lists)
    (hnodup : ∀ id, (a.edges id).Nodup)
    (hnormalize : f.lexicon.alphabet.normalize = g.lexicon.alphabet.normalize)
    (hletters : ∀ c, c ∈ f.lexicon.alphabet.letters ↔
      a.HasLetter lists f.lexicon.alphabet.normalize c)
    (hmore : ∀ c ∈ f.lexicon.alphabet.letters, c ∈ g.lexicon.alphabet.letters)
    (phrase : String) (options options' : RunOptions) : f.Agrees g phrase options options' := by
  have hroots := (hf.indexed hnodup).rootsOpen
  have hroots' := (hg.indexed hnodup).rootsOpen
  rcases f.spell_or_unknown phrase with ⟨letters, hspell⟩ | ⟨c, hc, hunknown⟩
  · obtain ⟨f₁, hrun⟩ := run_eq_ok hspell options
    refine ⟨fun r f' h => ?_, fun fault h => ?_⟩
    · obtain ⟨letters', hspell'⟩ : ∃ letters', g.lexicon.alphabet.spell phrase = .ok letters' := by
        rw [Alphabet.spell_isOk_iff, ← hnormalize]
        exact fun c hc => hmore c (Alphabet.spell_isOk_iff.1 ⟨letters, hspell⟩ c hc)
      obtain ⟨hstarts, hfindings⟩ :=
        findings_eq_of_built hf hg hnodup hnormalize hspell hspell'
      obtain ⟨g', hrun'⟩ := run_eq_ok hspell' options'
      rw [hrun] at h
      cases h
      refine ⟨_, _, _, g', starts_eq_ok hspell, starts_eq_ok hspell', hrun', hstarts,
        fun hr hr' => ?_, fun p p' hp hp' => ?_⟩
      · rw [Run.findings_eq hroots hr, Run.findings_eq hroots' hr', hfindings]
      · rw [Pool.findings_eq hroots hp, Pool.findings_eq hroots' hp', hfindings]
    · rw [hrun] at h
      cases h
  · have hrun := run_of_unknown hc hunknown options
    refine ⟨fun r f' h => ?_, fun fault h => ?_⟩
    · rw [hrun] at h
      cases h
    · rw [hrun] at h
      cases h
      refine ⟨rfl, ?_⟩
      rcases g.spell_or_unknown phrase with ⟨letters', hspell'⟩ | ⟨c', hc', hunknown'⟩
      · rw [hletters, hnormalize] at hunknown
        rw [hnormalize] at hc
        have hnone := completeDrafts_eq_nil_of_unknown hg hnodup hspell' hc hunknown
        obtain ⟨g', hrun'⟩ := run_eq_ok hspell' options'
        refine .inr ⟨_, _, g', starts_eq_ok hspell', hrun', ?_, fun workers sample p hp => ?_⟩
        · obtain ⟨p, hp, hcompleted, -⟩ := Pool.exists_ended_run hroots' 1
            (g.automaton.starts (g.bagFor letters')) (g.limits options')
          rw [← hcompleted, hp.handled_eq_nil hroots' hnone, List.reverse_nil]
        · exact hp.handled_eq_nil hroots' hnone
      · exact .inl (run_of_unknown hc' hunknown' options')

/-- A finder over word lists and a finder over a lexicon of all of them, made in any order, can both
be built, or both are refused because of the same list; and then they agree about every phrase. -/
theorem agrees_of_ofLexicon {grammar : List String} {order : List (String × List String)}
    (normalize : Normalizer) (config config' : FinderConfig)
    (hcompile : Grammar.compileLines grammar = .ok a) (horder : order.Perm lists.entries) :
    ∃ lexicon, Lexicon.ofLists normalize order = .ok lexicon ∧
      ((∃ name, ofWordLists a lists normalize config = .error (.missingList ⟨name⟩) ∧
          ofLexicon a lexicon config' = .error ⟨name⟩) ∨
        ∃ f g, ofWordLists a lists normalize config = .ok f ∧
          ofLexicon a lexicon config' = .ok g ∧
          ∀ phrase options options', f.Agrees g phrase options options') := by
  obtain ⟨lexicon, hlexicon, htries, hcontains, hnormalize, hletters⟩ :=
    Lexicon.exists_ofLists_of_perm normalize horder
  refine ⟨lexicon, hlexicon, ?_⟩
  have hmissing : a.neededLists.find? (fun name => !lexicon.tries.contains name) =
      a.neededLists.find? fun name => (lists.get? name).isNone := by
    simp only [hcontains, Option.not_isSome]
  cases hfind : a.neededLists.find? fun name => (lists.get? name).isNone with
  | some name =>
    refine .inl ⟨name, ofWordLists_eq_error hfind, ?_⟩
    rw [ofLexicon, Automaton.bind_eq_error (hmissing.trans hfind)]
    rfl
  | none =>
    have hpresent := find?_missing_eq_none.1 hfind
    obtain ⟨f, hf, hbuilt, -, hnormal, hknown⟩ := ofWordLists_eq_ok normalize config hpresent
    have hbound : ∀ name ∈ a.neededLists, lexicon.tries.contains name = true := by
      intro name hname
      rw [hcontains]
      exact hpresent name hname
    obtain ⟨b, hb⟩ := Automaton.bind_eq_ok hbound
    have hg : ofLexicon a lexicon config' = .ok ⟨b, lexicon, config', 0⟩ := by
      rw [ofLexicon, hb]
      rfl
    have hnodup := Grammar.nodup_edges_of_compileLines hcompile
    have hneeded : ∀ c, c ∈ f.lexicon.alphabet.letters ↔
        a.HasLetter lists f.lexicon.alphabet.normalize c := by
      intro c
      rw [hknown, hnormal]
      simp only [Normalizer.mem_canonical, Automaton.HasLetter]
    refine .inr ⟨f, _, hf, hg, agrees_of_built hbuilt (built_of_ofLexicon htries hg) hnodup
      (hnormal.trans hnormalize.symm) hneeded fun c hc => ?_⟩
    obtain ⟨name, -, words, hwords, hword⟩ := (hknown c).1 hc
    exact (hletters c).2 ⟨name, words, hwords, hword⟩

/-- Another list puts the letter of the needed list that is the rarer one there in front. -/
theorem agrees_of_ofLexicon_of_other_list :
    ∃ a lexicon f g, Grammar.compileLines ["phrase -> <word>+"] = .ok a ∧
      Lexicon.ofLists .lettersOnly [("word", ["ab", "a"]), ("other", ["b", "bc"])] = .ok lexicon ∧
      lexicon.alphabet.letters = ['b', 'a', 'c'] ∧
      ofWordLists a (.ofList [("word", ["ab", "a"]), ("other", ["b", "bc"])]) .lettersOnly
        .default = .ok f ∧
      ofLexicon a lexicon .default = .ok g ∧
      ∀ phrase options options', f.Agrees g phrase options options' := by
  have hneeded : (match Grammar.compileLines ["phrase -> <word>+"] with
      | .error _ => []
      | .ok a => a.neededLists) = ["word"] := by
    decide +kernel
  have hletters : (Alphabet.ofBatches .lettersOnly [["ab", "a"], ["b", "bc"]]).letters =
      ['b', 'a', 'c'] := by
    have hentries : ([["ab", "a"], ["b", "bc"]].foldl (Tally.addTexts .lettersOnly)
        .empty).entries = [('a', 2), ('b', 3), ('c', 1)] := by
      decide +kernel
    show (List.mergeSort _ Alphabet.comesBefore).map Prod.fst = _
    rw [hentries]
    simp [List.mergeSort, List.MergeSort.Internal.splitInTwo, Alphabet.comesBefore]
  cases hcompile : Grammar.compileLines ["phrase -> <word>+"] with
  | error fault =>
    rw [hcompile] at hneeded
    cases hneeded
  | ok a =>
    simp only [hcompile] at hneeded
    have horder : [("word", ["ab", "a"]), ("other", ["b", "bc"])].Perm
        (NameMap.ofList [("word", ["ab", "a"]), ("other", ["b", "bc"])]).entries :=
      .swap ("other", ["b", "bc"]) ("word", ["ab", "a"]) []
    obtain ⟨lexicon, hlexicon, ⟨name, herror, -⟩ | ⟨f, g, hf, hg, hagrees⟩⟩ :=
      agrees_of_ofLexicon .lettersOnly .default .default hcompile horder
    · have hpresent : ∀ name ∈ a.neededLists, ((NameMap.ofList
          [("word", ["ab", "a"]), ("other", ["b", "bc"])]).get? name).isSome = true := by
        rw [hneeded]
        decide
      obtain ⟨f, hf, -⟩ := ofWordLists_eq_ok .lettersOnly .default hpresent
      rw [hf] at herror
      cases herror
    · refine ⟨a, lexicon, f, g, rfl, hlexicon, ?_, hf, hg, hagrees⟩
      rw [Lexicon.alphabet_ofLists hlexicon]
      exact hletters

end Finder

end PhraseSearch
