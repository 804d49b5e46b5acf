import PhraseSearch.Proofs.Grammar.Resolution

/-!
# The layout of grammars

The automaton is that of the expansion of the first rule, and an expansion takes only those rules
into account that references lead to, and only their alternatives.  How these are split over lines,
where the lines stand, and what other rules there are changes the nodes and the rounds, but not the
automaton.

    it does not matter in which network lines are compiled (compileLinesInPlace_eq_compileLines)
    rules that agree have the same automaton               (compileLinesInPlace_eq_of_agree)
-/

namespace PhraseSearch.Grammar

variable {lines lines' : List String} {rule rule' : Rule} {rules rules' : List Rule}
  {a a' : Automaton}

/-- Lines are compiled to the same automaton in a network of its own and in that of their rules. -/
theorem compileLinesInPlace_eq_compileLines (lines : List String) :
    compileLinesInPlace lines = compileLines lines := by
  rw [compileLinesInPlace, compileLines]
  cases hlines : ofLines lines with
  | error fault => rfl
  | ok g =>
    obtain ⟨rules, -, rfl⟩ := exists_of_ofLines hlines
    obtain ⟨depth, pattern, htended⟩ := exists_tended_ofRules rules
    exact compileInPlace_eq htended

/-- The automaton of some lines is that of the expansion of their first rule into those that there
are. -/
theorem exists_expands_roots_of_compileLines (hrules : rulesOf lines = .ok (rule :: rules))
    (h : compileLines lines = .ok a) : ∃ p, Pattern.Expands (Pattern.ofRules (rule :: rules))
      ((ofRules (rule :: rules)).roots.map Prod.fst) rule.name p ∧ p.compile = .ok a := by
  obtain ⟨depth, pattern, htended⟩ := exists_tended_ofRules (rule :: rules)
  obtain ⟨top, roots, hroots⟩ := roots_ofRules_cons rule rules
  rw [compileLines, ofLines, hrules] at h
  have h : (ofRules (rule :: rules)).compile = .ok a := h
  obtain ⟨g, -, -, -, -, hinline, -⟩ := exists_of_compile h
  have hok : (ofRules (rule :: rules)).inline.1 = .ok () := by rw [hinline]
  obtain ⟨p, b, hexpands, hp, hcompile, -⟩ := exists_compile_of_inline htended hroots hok
  obtain rfl : b = a := Except.ok.inj (hcompile.symm.trans h)
  exact ⟨p, hexpands, hp⟩

theorem exists_expands_of_compileLines (hrules : rulesOf lines = .ok (rule :: rules))
    (h : compileLines lines = .ok a) : ∃ names p,
      Pattern.Expands (Pattern.ofRules (rule :: rules)) names rule.name p ∧ p.compile = .ok a :=
  ⟨_, exists_expands_roots_of_compileLines hrules h⟩

/-- Two lists of lines that are both compiled have the same automaton, state by state, if their
first rules have the same name and every rule that references lead to from there has the same
alternatives in the same order. -/
theorem compileLinesInPlace_eq_of_agree (hrules : rulesOf lines = .ok (rule :: rules))
    (hrules' : rulesOf lines' = .ok (rule' :: rules'))
    (ha : compileLinesInPlace lines = .ok a) (ha' : compileLinesInPlace lines' = .ok a')
    (htop : rule.name = rule'.name)
    (hsame : ∀ name, Rule.LeadsTo (rule :: rules) rule.name name →
      Rule.alternativesOf (rule :: rules) name = Rule.alternativesOf (rule' :: rules') name) :
    a = a' ∧ compileLines lines = .ok a ∧ compileLines lines' = .ok a' := by
  rw [compileLinesInPlace_eq_compileLines] at ha ha'
  obtain ⟨names, p, hexpands, hp⟩ := exists_expands_of_compileLines hrules ha
  obtain ⟨names', q, hexpands', hq⟩ := exists_expands_of_compileLines hrules' ha'
  rw [← htop] at hexpands'
  obtain rfl : p = q := hexpands.eq_of_agree hsame hexpands'
  exact ⟨Except.ok.inj (hp.symm.trans hq), ha, ha'⟩

/-- The alternatives of a rule may stand on lines of their own, and other rules between them. -/
theorem compileLinesInPlace_eq_of_agree_split : ∃ a,
    compileLinesInPlace ["phrase -> <det> thing", "thing -> <noun>{2} | <name>"] = .ok a ∧
    compileLinesInPlace ["phrase -> <det> thing", "other -> <verb>", "thing -> <noun>{2}",
      "thing -> <name>  # a comment"] = .ok a := by
  have hrules : rulesOf ["phrase -> <det> thing", "thing -> <noun>{2} | <name>"] =
      .ok [⟨"phrase", [[⟨.list "det", none⟩, ⟨.rule "thing", none⟩]]⟩,
        ⟨"thing", [[⟨.list "noun", some ⟨2, some 2⟩⟩], [⟨.list "name", none⟩]]⟩] := by
    decide +kernel
  have hrules' : rulesOf ["phrase -> <det> thing", "other -> <verb>", "thing -> <noun>{2}",
      "thing -> <name>  # a comment"] =
      .ok [⟨"phrase", [[⟨.list "det", none⟩, ⟨.rule "thing", none⟩]]⟩,
        ⟨"other", [[⟨.list "verb", none⟩]]⟩,
        ⟨"thing", [[⟨.list "noun", some ⟨2, some 2⟩⟩]]⟩, ⟨"thing", [[⟨.list "name", none⟩]]⟩] := by
    decide +kernel
  have hok : (compileLinesInPlace ["phrase -> <det> thing",
      "thing -> <noun>{2} | <name>"]).toOption.isSome = true := by
    decide +kernel
  have hok' : (compileLinesInPlace ["phrase -> <det> thing", "other -> <verb>",
      "thing -> <noun>{2}", "thing -> <name>  # a comment"]).toOption.isSome = true := by
    decide +kernel
  have hreach : ∀ top name, Rule.LeadsTo
      [⟨"phrase", [[⟨.list "det", none⟩, ⟨.rule "thing", none⟩]]⟩,
        ⟨"thing", [[⟨.list "noun", some ⟨2, some 2⟩⟩], [⟨.list "name", none⟩]]⟩] top name →
      top = "phrase" ∨ top = "thing" → name = "phrase" ∨ name = "thing" := by
    intro top name hlead
    induction hlead with
    | refl => exact id
    | step first _ ih =>
      rintro (rfl | rfl)
      · simp [Rule.Refers, Rule.alternativesOf] at first
        exact ih (.inr first.symm)
      · simp [Rule.Refers, Rule.alternativesOf] at first
  cases ha : compileLinesInPlace ["phrase -> <det> thing", "thing -> <noun>{2} | <name>"] with
  | error fault =>
    rw [ha] at hok
    cases hok
  | ok a =>
    cases ha' : compileLinesInPlace ["phrase -> <det> thing", "other -> <verb>",
        "thing -> <noun>{2}", "thing -> <name>  # a comment"] with
    | error fault =>
      rw [ha'] at hok'
      cases hok'
    | ok a' =>
      obtain ⟨rfl, -⟩ :=
        compileLinesInPlace_eq_of_agree hrules hrules' ha ha' rfl fun name hlead => by
        rcases hreach _ name hlead (.inl rfl) with rfl | rfl
        · decide
        · decide
      exact ⟨a, rfl, rfl⟩

end PhraseSearch.Grammar
