import PhraseSearch.Proofs.Automaton.Binding
import PhraseSearch.Proofs.Grammar.Layout

/-!
# Trim automata of grammars

Every rule that is read has an alternative, so the expansion of the first rule has no dead end, and
its automaton is trim.  The lists that it needs are those that stand in a sequence it accepts; a
list that is only mentioned where something is repeated zero times, or in rules that the first one
does not come to, is not needed.

    the automaton of a grammar is well formed and trim, and needs the lists that it accepts
                                                                       (trim_of_compileLines)
-/

namespace PhraseSearch.Grammar

variable {lines : List String} {a : Automaton}

/-- Every rule has an alternative, so nothing in the expansion of the first one is a dead end. -/
theorem wellFormed_of_compileLines (h : compileLines lines = .ok a) : a.WellFormed ∧ a.Trim := by
  obtain ⟨rule, rules, hrules, -⟩ := language_compileLines h
  obtain ⟨p, hexpands, hp⟩ := exists_expands_roots_of_compileLines hrules h
  have hviable : p.Viable := by
    refine hexpands.viable fun name hname => Pattern.viable_ofRules ?_
    obtain ⟨r, hr, rfl⟩ := mem_roots_ofRules.1 hname
    obtain ⟨elements, helements⟩ :=
      List.exists_mem_of_ne_nil _ (alternatives_ne_nil_of_rulesOf hrules hr)
    exact List.ne_nil_of_mem (Rule.mem_alternativesOf.2 ⟨r, hr, rfl, helements⟩)
  exact Pattern.trim_of_compile hexpands.references_eq_nil hviable hp

theorem mem_neededLists_of_compileLines (h : compileLines lines = .ok a) (list : String) :
    list ∈ a.neededLists ↔ ∃ w, a.Accepts w ∧ list ∈ w := by
  obtain ⟨hformed, htrim⟩ := wellFormed_of_compileLines h
  exact Automaton.mem_neededLists.trans (Automaton.list?_iff_accepts hformed htrim)

/-- What is needed stands in a sequence that the first rule derives. -/
theorem uses_of_compileLines (h : compileLines lines = .ok a) :
    ∃ rule rules, rulesOf lines = .ok (rule :: rules) ∧
      ∀ list ∈ a.neededLists, Rule.Uses (rule :: rules) (.rule rule.name) list := by
  obtain ⟨rule, rules, hrules, hlanguage, -⟩ := language_compileLines h
  refine ⟨rule, rules, hrules, fun list hlist => ?_⟩
  obtain ⟨w, hw, hmem⟩ := (mem_neededLists_of_compileLines h list).1 hlist
  have hderives : Rule.Derives (rule :: rules) [.rule rule.name] w := (hlanguage w).1 hw
  obtain ⟨atom, hatom, huses⟩ := hderives.uses hmem
  exact List.mem_singleton.1 hatom ▸ huses

/-- The automaton of some lines is well formed and trim.  It needs just the lists that stand in the
sequences that it accepts, and these are used by the first rule. -/
theorem trim_of_compileLines (h : compileLines lines = .ok a) :
    a.WellFormed ∧ a.Trim ∧
    (∀ list, list ∈ a.neededLists ↔ ∃ w, a.Accepts w ∧ list ∈ w) ∧
    ∃ rule rules, rulesOf lines = .ok (rule :: rules) ∧
      ∀ list ∈ a.neededLists, Rule.Uses (rule :: rules) (.rule rule.name) list :=
  ⟨(wellFormed_of_compileLines h).1, (wellFormed_of_compileLines h).2,
    mem_neededLists_of_compileLines h, uses_of_compileLines h⟩

/-- No verb can stand at the only place that is left for one, and no rule comes to the adverb. -/
theorem trim_of_compileLines_of_unused : ∃ a,
    compileLines ["phrase -> <det>? thing+", "thing -> <noun> | <name> <verb>{0}",
      "other -> <adverb>"] = .ok a ∧
    a.WellFormed ∧ a.Trim ∧ a.neededLists = ["det", "name", "noun"] := by
  have hneeded : (compileLines ["phrase -> <det>? thing+", "thing -> <noun> | <name> <verb>{0}",
      "other -> <adverb>"]).toOption.map (·.neededLists) = some ["det", "name", "noun"] := by
    decide +kernel
  cases hcompile : compileLines ["phrase -> <det>? thing+", "thing -> <noun> | <name> <verb>{0}",
      "other -> <adverb>"] with
  | error fault =>
    rw [hcompile] at hneeded
    cases hneeded
  | ok a =>
    obtain ⟨hformed, htrim, -⟩ := trim_of_compileLines hcompile
    rw [hcompile] at hneeded
    exact ⟨a, rfl, hformed, htrim, Option.some.inj hneeded⟩

end PhraseSearch.Grammar
