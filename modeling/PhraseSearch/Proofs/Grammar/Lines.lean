import PhraseSearch.Grammar.Compile
import PhraseSearch.Proofs.Rule.Canonical

/-!
# Lines that are shown alike

A grammar is read from the canonical forms of its lines, those that are empty left out.  Two lists
of lines for which these are the same, one after the other, have the same rules or the same fault;
only the number of the line that it names, and how that line is written, may be others.

    the first line that counts                                         (readFrom_cases)
    lines that are shown alike are read alike                          (sameOutcome_readFrom)
    ... and compiled alike                                             (sameOutcome_compileLines)
-/

namespace PhraseSearch.Grammar

/-! ## Faults that say the same -/

/-- Whether two faults say the same, the numbers of lines apart, of lines that have the same
canonical form. -/
inductive Fault.Alike : Fault → Fault → Prop
  | repeated {number number' earlier earlier' : Nat} {text text' : String}
      (line : Rule.canonicalLine text = Rule.canonicalLine text') :
      Alike (.badLine number text (.repeated earlier)) (.badLine number' text' (.repeated earlier'))
  | malformed {number number' : Nat} {text text' : String} {fault : Rule.Fault}
      (line : Rule.canonicalLine text = Rule.canonicalLine text') :
      Alike (.badLine number text (.malformed fault)) (.badLine number' text' (.malformed fault))
  | noRules : Alike .noRules .noRules
  | recursion (rules : List String) : Alike (.recursion rules) (.recursion rules)

theorem Fault.Alike.refl (fault : Fault) : fault.Alike fault := by
  match fault with
  | .badLine _ _ (.repeated _) => exact .repeated rfl
  | .badLine _ _ (.malformed _) => exact .malformed rfl
  | .noRules => exact .noRules
  | .recursion rules => exact .recursion rules

/-- Whether two results are equal, or two faults that say the same. -/
inductive SameOutcome {α : Type} : Except Fault α → Except Fault α → Prop
  | ok (result : α) : SameOutcome (.ok result) (.ok result)
  | error {fault fault' : Fault} (alike : fault.Alike fault') :
      SameOutcome (.error fault) (.error fault')

namespace SameOutcome

variable {α β : Type} {r r' : Except Fault α}

theorem refl (r : Except Fault α) : SameOutcome r r := by
  cases r with
  | error fault => exact .error (.refl fault)
  | ok result => exact .ok result

theorem map (h : SameOutcome r r') (f : α → β) : SameOutcome (r.map f) (r'.map f) := by
  cases h with
  | ok result => exact .ok (f result)
  | error alike => exact .error alike

theorem bind (h : SameOutcome r r') (f : α → Except Fault β) :
    SameOutcome (r >>= f) (r' >>= f) := by
  cases h with
  | ok result => exact .refl (f result)
  | error alike => exact .error alike

end SameOutcome

/-! ## Reading -/

variable {seen seen' : Std.TreeMap String Nat} {number number' : Nat} {lines lines' : List String}

theorem shownLines_cons_of_empty {raw : String} (h : (Rule.canonicalLine raw).isEmpty = true)
    (lines : List String) : Rule.shownLines (raw :: lines) = Rule.shownLines lines := by
  simp [Rule.shownLines, h]

theorem shownLines_cons_of_ne {raw : String} (h : (Rule.canonicalLine raw).isEmpty = false)
    (lines : List String) :
    Rule.shownLines (raw :: lines) = Rule.canonicalLine raw :: Rule.shownLines lines := by
  simp [Rule.shownLines, h]

/-- Either no line counts, or reading goes on at the first that does. -/
theorem readFrom_cases (seen : Std.TreeMap String Nat) (number : Nat) (lines : List String) :
    (Rule.shownLines lines = [] ∧ readFrom seen number lines = .ok []) ∨
      ∃ raw rest later, (Rule.canonicalLine raw).isEmpty = false ∧
        Rule.shownLines lines = Rule.canonicalLine raw :: Rule.shownLines rest ∧
        readFrom seen number lines = readFrom seen later (raw :: rest) := by
  induction lines generalizing number with
  | nil => exact .inl ⟨rfl, rfl⟩
  | cons raw lines ih =>
    cases hempty : (Rule.canonicalLine raw).isEmpty with
    | false => exact .inr ⟨raw, lines, number, hempty, shownLines_cons_of_ne hempty lines, rfl⟩
    | true =>
      have hskip : readFrom seen number (raw :: lines) = readFrom seen (number + 1) lines := by
        rw [readFrom, if_pos hempty]
      rw [shownLines_cons_of_empty hempty, hskip]
      exact ih (number + 1)

section

variable {raw : String} (hempty : (Rule.canonicalLine raw).isEmpty = false) (rest : List String)

include hempty

theorem readFrom_of_seen {earlier : Nat}
    (hseen : seen[Rule.canonicalLine raw]? = some earlier) :
    readFrom seen number (raw :: rest) = .error (.badLine number raw (.repeated earlier)) := by
  simp [readFrom, hempty, hseen]

theorem readFrom_of_fault {fault : Rule.Fault} (hseen : seen[Rule.canonicalLine raw]? = none)
    (hread : Rule.read (Rule.canonicalLine raw).toList = .error fault) :
    readFrom seen number (raw :: rest) = .error (.badLine number raw (.malformed fault)) := by
  simp [readFrom, hempty, hseen, hread]

theorem readFrom_of_rule {rule : Rule} (hseen : seen[Rule.canonicalLine raw]? = none)
    (hread : Rule.read (Rule.canonicalLine raw).toList = .ok rule) :
    readFrom seen number (raw :: rest) =
      (readFrom (seen.insert (Rule.canonicalLine raw) number) (number + 1) rest).map
        (rule :: ·) := by
  simp [readFrom, hempty, hseen, hread]

end

/-- The induction is on the lines that are shown; what has been seen counts, but not where. -/
theorem sameOutcome_readFrom (hseen : ∀ line, line ∈ seen ↔ line ∈ seen')
    (h : Rule.shownLines lines = Rule.shownLines lines') :
    SameOutcome (readFrom seen number lines) (readFrom seen' number' lines') := by
  generalize hshown : Rule.shownLines lines = shown at h
  induction shown generalizing seen seen' number number' lines lines' with
  | nil =>
    rcases readFrom_cases seen number lines with ⟨-, hread⟩ | ⟨raw, rest, later, -, hnext, -⟩
    · rcases readFrom_cases seen' number' lines' with ⟨-, hread'⟩ | ⟨raw, rest, later, -, hnext, -⟩
      · rw [hread, hread']
        exact .ok []
      · cases h.trans hnext
    · cases hshown.symm.trans hnext
  | cons line shown ih =>
    rcases readFrom_cases seen number lines with
      ⟨hnone, -⟩ | ⟨raw, rest, later, hempty, hnext, hread⟩
    · cases hshown.symm.trans hnone
    rcases readFrom_cases seen' number' lines' with
      ⟨hnone, -⟩ | ⟨raw', rest', later', hempty', hnext', hread'⟩
    · cases h.trans hnone
    obtain ⟨hline, hrest⟩ := List.cons.inj (hshown.symm.trans hnext)
    obtain ⟨hline', hrest'⟩ := List.cons.inj (h.trans hnext')
    have hsame : Rule.canonicalLine raw = Rule.canonicalLine raw' := hline.symm.trans hline'
    rw [hread, hread']
    have hmem := hseen (Rule.canonicalLine raw)
    rw [Std.TreeMap.mem_iff_isSome_getElem?, Std.TreeMap.mem_iff_isSome_getElem?] at hmem
    cases hfound : seen[Rule.canonicalLine raw]? with
    | some earlier =>
      rw [hfound, hsame] at hmem
      obtain ⟨earlier', hfound'⟩ := Option.isSome_iff_exists.1 (hmem.1 rfl)
      rw [readFrom_of_seen hempty rest hfound, readFrom_of_seen hempty' rest' hfound']
      exact .error (.repeated hsame)
    | none =>
      have hfound' : seen'[Rule.canonicalLine raw']? = none := by
        rw [hfound, hsame] at hmem
        exact Option.not_isSome_iff_eq_none.1 fun hsome => Bool.false_ne_true (hmem.2 hsome)
      cases hrule : Rule.read (Rule.canonicalLine raw).toList with
      | error fault =>
        have hrule' := hrule
        rw [hsame] at hrule'
        rw [readFrom_of_fault hempty rest hfound hrule,
          readFrom_of_fault hempty' rest' hfound' hrule']
        exact .error (.malformed hsame)
      | ok rule =>
        have hrule' := hrule
        rw [hsame] at hrule'
        rw [readFrom_of_rule hempty rest hfound hrule, readFrom_of_rule hempty' rest' hfound' hrule']
        refine SameOutcome.map (ih (fun line => ?_) hrest.symm hrest') _
        rw [Std.TreeMap.mem_insert, Std.TreeMap.mem_insert, hseen line, hsame]

/-! ## Compiling -/

theorem sameOutcome_rulesOf (h : Rule.shownLines lines = Rule.shownLines lines') :
    SameOutcome (rulesOf lines) (rulesOf lines') := by
  have hread : SameOutcome (readFrom ∅ 1 lines) (readFrom ∅ 1 lines') :=
    sameOutcome_readFrom (fun _ => Iff.rfl) h
  rw [rulesOf, rulesOf]
  generalize readFrom ∅ 1 lines = r at hread
  generalize readFrom ∅ 1 lines' = r' at hread
  cases hread with
  | ok rules => exact .refl _
  | error alike => exact .error alike

theorem sameOutcome_compileLines (h : Rule.shownLines lines = Rule.shownLines lines') :
    SameOutcome (compileLines lines) (compileLines lines') :=
  ((sameOutcome_rulesOf h).map ofRules).bind compile

end PhraseSearch.Grammar
