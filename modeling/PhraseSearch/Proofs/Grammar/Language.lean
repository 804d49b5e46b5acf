import PhraseSearch.Proofs.Grammar.Inlining
import PhraseSearch.Proofs.Pattern.Compile
import PhraseSearch.Proofs.Rule.Language
import PhraseSearch.Proofs.Rule.Reading

/-!
# Languages of grammars

The automaton of a grammar accepts what its first rule derives.  The trees of the rules have the
languages of their names to begin with, inlining keeps these, and the closed tree of the first rule
is compiled.

    the automaton has the language of the first rule                   (language_compileLines)
    it accepts just what can be derived                    (accepts_compileLines_iff_derives)
-/

namespace PhraseSearch

namespace Grammar

variable {lines : List String} {a : Automaton}

theorem exists_of_compileLines (h : compileLines lines = .ok a) :
    ∃ rules, rulesOf lines = .ok rules ∧ (ofRules rules).compile = .ok a := by
  rw [compileLines] at h
  cases hlines : ofLines lines with
  | error fault =>
    rw [hlines] at h
    cases h
  | ok g =>
    rw [hlines] at h
    obtain ⟨rules, hrules, rfl⟩ := exists_of_ofLines hlines
    exact ⟨rules, hrules, h⟩

/-- What a grammar is compiled to is what the pattern of its first rule is. -/
theorem exists_of_compile {g : Grammar} (h : g.compile = .ok a) :
    ∃ g' name top roots pattern, g.inline = (.ok (), g') ∧ g'.roots = (name, top) :: roots ∧
      g'.network.pattern? top = some pattern ∧ pattern.compile = .ok a := by
  rw [compile] at h
  cases hinline : g.inline with
  | mk result g' =>
    rw [hinline] at h
    cases result with
    | error fault => cases h
    | ok _ =>
      cases hroots : g'.roots with
      | nil =>
        simp only [hroots] at h
        cases h
      | cons e roots =>
        obtain ⟨name, top⟩ := e
        simp only [hroots] at h
        cases hpattern : g'.network.pattern? top with
        | none =>
          rw [hpattern] at h
          cases h
        | some pattern =>
          cases hcompile : pattern.compile with
          | error fault =>
            simp only [hpattern, hcompile] at h
            cases h
          | ok automaton =>
            simp only [hpattern, hcompile] at h
            cases h
            exact ⟨g', name, top, roots, pattern, rfl, hroots, hpattern, hcompile⟩

/-- The automaton of a grammar has the language of the first rule, and no edge twice. -/
theorem language_compileLines (h : compileLines lines = .ok a) :
    ∃ rule rules, rulesOf lines = .ok (rule :: rules) ∧
      (∀ w, a.Accepts w ↔ w ∈ Rule.language (rule :: rules) rule.name) ∧
      ∀ n, (a.edges n).Nodup := by
  obtain ⟨rules, hrules, hcompile⟩ := exists_of_compileLines h
  obtain ⟨-, hne⟩ := readFrom_of_rulesOf hrules
  obtain ⟨rule, rest, rfl⟩ := List.exists_cons_of_ne_nil hne
  obtain ⟨g, name, top, roots, pattern, hinline, hroots, hpattern, hcompile'⟩ :=
    exists_of_compile hcompile
  obtain ⟨depth, hrooted⟩ := rooted_ofRules (rule :: rest)
  obtain ⟨hsame, htrees⟩ := closed_of_inline hrooted
    (fun e _ => Rule.languageIn_ofRules (rule :: rest) e.1) hinline
  obtain ⟨root, roots', hfirst⟩ := roots_ofRules_cons rule rest
  rw [hroots, hfirst] at hsame
  obtain ⟨hentry, -⟩ := List.cons_eq_cons.1 hsame
  obtain ⟨rfl, rfl⟩ := Prod.mk.inj hentry
  obtain ⟨p, hp, hclosed, hlanguage⟩ := htrees (rule.name, top) (by rw [hfirst]; simp)
  obtain rfl : pattern = p := Option.some.inj (hpattern.symm.trans hp)
  obtain ⟨haccepts, hnodup⟩ := Pattern.accepts_compile hclosed hcompile'
  refine ⟨rule, rest, hrules, fun w => ?_, hnodup⟩
  rw [haccepts w, hlanguage]

theorem nodup_edges_of_compileLines (h : compileLines lines = .ok a) (id : Nat) :
    (a.edges id).Nodup := by
  obtain ⟨-, -, -, -, hnodup⟩ := language_compileLines h
  exact hnodup id

/-- If a grammar is compiled, its automaton accepts just the sequences of list names that can be
derived from the name of the first rule, where bounds allow the numbers between them. -/
theorem accepts_compileLines_iff_derives (h : compileLines lines = .ok a) :
    ∃ rule rules, rulesOf lines = .ok (rule :: rules) ∧
      (∀ w, a.Accepts w ↔ Rule.Derives (rule :: rules) [.rule rule.name] w) ∧
      ∀ r ∈ rule :: rules, ∀ elements ∈ r.alternatives, ∀ e ∈ elements, ∀ b ∈ e.bounds,
        ∀ n, b.Allows n ↔ b.low ≤ n ∧ ∀ high ∈ b.high, n ≤ high := by
  obtain ⟨rule, rules, hrules, hlanguage, -⟩ := language_compileLines h
  refine ⟨rule, rules, hrules, hlanguage, ?_⟩
  intro r hr elements helements e he b hb n
  exact Bounds.allows_iff (isReversed_of_rulesOf hrules hr helements he hb)

theorem accepts_compileLines_iff_derives_of_two_rules :
    ∃ a, compileLines ["phrase -> <det>? thing+", "thing -> <name> | <adj>{1,2} <noun>"] = .ok a ∧
      a.Accepts ["adj", "noun", "name"] := by
  have hrules : rulesOf ["phrase -> <det>? thing+", "thing -> <name> | <adj>{1,2} <noun>"] =
      .ok [⟨"phrase", [[⟨.list "det", some ⟨0, some 1⟩⟩, ⟨.rule "thing", some ⟨1, none⟩⟩]]⟩,
        ⟨"thing", [[⟨.list "name", none⟩],
          [⟨.list "adj", some ⟨1, some 2⟩⟩, ⟨.list "noun", none⟩]]⟩] := by
    decide +kernel
  have hok : (compileLines ["phrase -> <det>? thing+",
      "thing -> <name> | <adj>{1,2} <noun>"]).toOption.isSome = true := by
    decide +kernel
  cases hcompile : compileLines ["phrase -> <det>? thing+",
      "thing -> <name> | <adj>{1,2} <noun>"] with
  | error fault =>
    rw [hcompile] at hok
    cases hok
  | ok a =>
    refine ⟨a, rfl, ?_⟩
    obtain ⟨rule, rules, hread, haccepts, -⟩ := accepts_compileLines_iff_derives hcompile
    rw [hrules] at hread
    cases hread
    have htop : Rule.Unrolls [⟨.list "det", some ⟨0, some 1⟩⟩, ⟨.rule "thing", some ⟨1, none⟩⟩]
        [.rule "thing", .rule "thing"] :=
      .cons (n := 0) (by simp [Element.Allows, Bounds.Allows])
        (.cons (n := 2) (by simp [Element.Allows, Bounds.Allows]) .nil)
    have hname : Rule.Unrolls [⟨.list "name", none⟩] [.list "name"] := .cons (n := 1) rfl .nil
    have hnoun : Rule.Unrolls [⟨.list "adj", some ⟨1, some 2⟩⟩, ⟨.list "noun", none⟩]
        [.list "adj", .list "noun"] :=
      .cons (n := 1) (by simp [Element.Allows, Bounds.Allows]) (.cons (n := 1) rfl .nil)
    rw [haccepts]
    refine .rule ?_ htop (.rule ?_ hnoun (.list (.list (.rule ?_ hname (.list .nil)))))
    · decide
    · decide
    · decide

end Grammar

end PhraseSearch
