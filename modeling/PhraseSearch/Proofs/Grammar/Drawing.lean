import PhraseSearch.Proofs.Automaton.Drawing
import PhraseSearch.Proofs.Grammar.Trim
import PhraseSearch.Proofs.Rule.Printing

/-!
# Drawings of grammars

What a grammar calls a list is a name, and no character of a name breaks a line.  An automaton that
has just been compiled has no tries, so its drawing shows all of it.

    the lists that are needed have names                               (isName_of_compileLines)
    what is drawn alike is the same automaton                          (drawing_inj_of_compileLines)
-/

namespace PhraseSearch

/-! ## Names of lists -/

theorem Rule.Uses.isName {rules : List Rule} (hrules : ∀ r ∈ rules, r.Printable) {atom : Atom}
    {list : String} (h : Rule.Uses rules atom list) (hatom : Text.isName atom.name.toList = true) :
    Text.isName list.toList = true := by
  induction h with
  | list name => exact hatom
  | rule alternative mem _ _ _ ih =>
    obtain ⟨r, hr, -, helements⟩ := Rule.mem_alternativesOf.1 alternative
    exact ih ((hrules r hr).elements _ helements _ mem).name

/-- Nothing is bound in a well-formed automaton. -/
theorem Automaton.WellFormed.unbound_eq {a : Automaton} (h : a.WellFormed) : a.unbound = a := by
  have hstate : ∀ state ∈ a.states, state.unbound = state := by
    intro state hmem
    obtain ⟨n, hn⟩ := Array.mem_iff_getElem?.1 hmem
    by_cases hstart : n = start
    · obtain ⟨edges, heq⟩ := h.start_state
      obtain rfl := Option.some.inj (hn.symm.trans (hstart ▸ heq))
      rfl
    by_cases hfinish : n = finish
    · obtain rfl := Option.some.inj (hn.symm.trans (hfinish ▸ h.finish_state))
      rfl
    · have hlt : n < a.size := (Array.getElem?_eq_some_iff.1 hn).1
      obtain ⟨list, edges, heq⟩ := h.word_state n hlt hstart hfinish
      obtain rfl := Option.some.inj (hn.symm.trans heq)
      rfl
  refine congrArg Automaton.mk ?_
  rw [Array.map_congr_left hstate, Array.map_id']

namespace Grammar

variable {lines lines' : List String} {a b : Automaton} {name name' : String}

theorem printable_of_rulesOf {rules : List Rule} (h : rulesOf lines = .ok rules) :
    ∀ r ∈ rules, r.Printable := by
  intro r hr
  obtain ⟨hread, -⟩ := readFrom_of_rulesOf h
  obtain ⟨raw, -, hraw⟩ := exists_of_readFrom hread hr
  rw [Rule.toList_canonicalLine] at hraw
  exact Rule.exists_written_iff.1 ⟨_, Rule.read_canonical_eq_ok_iff.1 hraw⟩

/-- The lists that an automaton needs are called by names. -/
theorem isName_of_compileLines (h : compileLines lines = .ok a) :
    ∀ list ∈ a.neededLists, Text.isName list.toList = true := by
  obtain ⟨rule, rules, hrules, huses⟩ := uses_of_compileLines h
  have hprintable := printable_of_rulesOf hrules
  exact fun list hlist => (huses list hlist).isName hprintable (hprintable rule (by simp)).name

theorem break_notMem_of_compileLines (h : compileLines lines = .ok a) :
    ∀ list ∈ a.neededLists, '\n' ∉ list.toList := fun list hlist hbreak =>
  absurd ((Text.isName_iff.1 (isName_of_compileLines h list hlist)).2 _ hbreak) (by decide)

/-! ## Drawings -/

/-- Two automata that have been compiled and drawn to the same text, under names without line breaks,
are the same: state by state, with what each stands for and its edges in their order. -/
theorem drawing_inj_of_compileLines (ha : compileLines lines = .ok a)
    (hb : compileLines lines' = .ok b) (hname : '\n' ∉ name.toList) (hname' : '\n' ∉ name'.toList)
    (h : a.drawing name = b.drawing name') : name = name' ∧ a = b := by
  obtain ⟨heq, hsame⟩ := Automaton.drawing_inj hname hname' (break_notMem_of_compileLines ha)
    (break_notMem_of_compileLines hb) h
  rw [(wellFormed_of_compileLines ha).1.unbound_eq,
    (wellFormed_of_compileLines hb).1.unbound_eq] at hsame
  exact ⟨heq, hsame⟩

/-- Two ways to write a grammar whose one list is called as the start is labelled. -/
theorem drawing_inj_of_compileLines_of_two_bounds : ∃ a b,
    compileLines ["phrase -> <IN>+"] = .ok a ∧ compileLines ["phrase -> <IN>{1,}"] = .ok b ∧
    a.drawing "grammar" = b.drawing "grammar" ∧ a = b := by
  have hok : (compileLines ["phrase -> <IN>+"]).toOption.isSome = true := by
    decide +kernel
  have hdrawing : (compileLines ["phrase -> <IN>+"]).toOption.map (·.drawing "grammar") =
      (compileLines ["phrase -> <IN>{1,}"]).toOption.map (·.drawing "grammar") := by
    decide +kernel
  cases ha : compileLines ["phrase -> <IN>+"] with
  | error fault =>
    rw [ha] at hok
    cases hok
  | ok a =>
    cases hb : compileLines ["phrase -> <IN>{1,}"] with
    | error fault =>
      rw [ha, hb] at hdrawing
      cases hdrawing
    | ok b =>
      rw [ha, hb] at hdrawing
      have hsame : a.drawing "grammar" = b.drawing "grammar" := Option.some.inj hdrawing
      obtain ⟨-, heq⟩ := drawing_inj_of_compileLines ha hb (by decide) (by decide) hsame
      exact ⟨a, b, rfl, rfl, hsame, heq⟩

end Grammar

end PhraseSearch
