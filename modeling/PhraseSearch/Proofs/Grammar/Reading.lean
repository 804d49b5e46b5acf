import PhraseSearch.Proofs.Grammar.Roots
import PhraseSearch.Proofs.Grammar.WrongLines

/-!
# The grammar of some lines

The grammar has the names of its rules in the order of their first lines; the root of a name is the
alternation of the alternatives of all its lines.  It is the same if the rules are planted while the
lines are read.

    the names of a grammar                                             (names_ofRules)
    the root of a name                                                 (alternation_ofRules)
    one pass does the same                                             (plantLines_eq_ofLines)
    the grammar of some lines                                          (ofLines_spec)
-/

namespace PhraseSearch.Grammar

open Network Network.Planting

variable {lines : List String}

/-! ## Names -/

theorem eraseDups_append_singleton (names : List String) (name : String) :
    (names ++ [name]).eraseDups =
      if name ∈ names then names.eraseDups else names.eraseDups ++ [name] := by
  rw [List.eraseDups_append]
  by_cases h : name ∈ names <;> simp [List.removeAll, h, List.eraseDups_cons]

/-- The names of rules, after some names that have been there before. -/
theorem names_plantRules {index : Std.TreeMap String Nat} {roots : List (String × Nat)}
    {names : List String} {net : Network} (more : List Rule)
    (hroots : roots.map Prod.fst = names.eraseDups)
    (hindex : ∀ name, index[name]? = none ↔ name ∉ names) :
    (roots ++ (plantRules index more net).1).map Prod.fst =
      (names ++ more.map Rule.name).eraseDups := by
  induction more generalizing index roots names net with
  | nil =>
    rw [List.map_nil, List.append_nil, ← hroots]
    exact congrArg (List.map Prod.fst) (List.append_nil roots)
  | cons rule more ih =>
    have hnext : names ++ (rule :: more).map Rule.name =
        names ++ [rule.name] ++ more.map Rule.name := by simp
    rw [hnext]
    cases hname : index[rule.name]? with
    | some root =>
      have hold : rule.name ∈ names := by
        by_contra hnew
        rw [(hindex rule.name).2 hnew] at hname
        cases hname
      rw [plantRules_of_some hname]
      refine ih ?_ fun name => ?_
      · rw [hroots, eraseDups_append_singleton, if_pos hold]
      · rw [hindex, List.mem_append, List.mem_singleton, not_or]
        exact ⟨fun h => ⟨h, fun e => h (e ▸ hold)⟩, And.left⟩
    | none =>
      have hnew : rule.name ∉ names := (hindex rule.name).1 hname
      rw [plantRules_of_none hname]
      refine (congrArg (List.map Prod.fst) (List.append_cons roots _ _)).trans
        (ih ?_ fun name => ?_)
      · rw [eraseDups_append_singleton, if_neg hnew, List.map_append, hroots]
        rfl
      · rw [Std.TreeMap.getElem?_insert, List.mem_append, List.mem_singleton, not_or, ← hindex]
        by_cases heq : rule.name = name
        · subst heq
          simp
        · simp [heq, Ne.symm heq]

/-- The names of a grammar are those of its rules, in the order of their first places. -/
theorem names_ofRules (rules : List Rule) :
    (ofRules rules).names = (rules.map Rule.name).eraseDups := by
  have hindex : ∀ name, (∅ : Std.TreeMap String Nat)[name]? = none ↔ name ∉ ([] : List String) := by
    simp
  have hroots : ([] : List (String × Nat)).map Prod.fst = ([] : List String).eraseDups := rfl
  exact names_plantRules rules hroots hindex

/-! ## Alternations -/

/-- The root of a name is the alternation of the alternatives of all its rules. -/
theorem alternation_ofRules {rules : List Rule} {e : String × Nat}
    (he : e ∈ (ofRules rules).roots) :
    ∃ ids, (ofRules rules).network.kind? e.2 = some (.alternation ids) ∧
      ids.mapM (ofRules rules).network.pattern? =
        some ((Rule.alternativesOf rules e.1).map Pattern.ofAlternative) := by
  obtain ⟨depth, hrooted⟩ := rooted_ofRules rules
  obtain ⟨ids, hkind⟩ := hrooted.alternation e he
  obtain ⟨depth', hgrove, -, -⟩ := exists_alternatives hkind (hrooted.tree e he)
  exact ⟨ids, hkind, hgrove.mapM_pattern?⟩

/-! ## One pass -/

/-- An alternation may as well be made without alternatives, and be given them then. -/
theorem push_alternation (net : Network) (ids : List Nat) :
    (net.push (.alternation [])).update net.size (·.addAlternatives ids) =
      net.push (.alternation ids) := by
  refine congrArg Network.mk (Array.ext_getElem? fun i => ?_)
  rw [Array.getElem?_modify, Network.push, Array.getElem?_push, Array.getElem?_push, Network.size]
  by_cases hi : i = net.nodes.size
  · subst hi
    simp [Node.addAlternatives]
  · simp [hi, Ne.symm hi]

namespace Bed

/-- The roots and the network after some rules have been planted on top of what is there. -/
def plant (bed : Bed) (rules : List Rule) : List (String × Nat) × Network :=
  let planted := plantRules bed.index rules bed.network
  (bed.roots ++ planted.1, planted.2)

theorem plant_nil (bed : Bed) : bed.plant [] = (bed.roots, bed.network) := by
  show (bed.roots ++ [], bed.network) = _
  rw [List.append_nil]

theorem plant_cons (bed : Bed) (rule : Rule) (rules : List Rule) :
    bed.plant (rule :: rules) = (bed.addRule rule).plant rules := by
  rw [plant]
  cases hname : bed.index[rule.name]? with
  | some root =>
    rw [plantRules_of_some hname, addRule, hname]
    rfl
  | none =>
    rw [plantRules_of_none hname, addRule, hname]
    simp only [plant, Planting.plant, push_alternation]
    exact Prod.ext (List.append_cons _ _ _) rfl

/-- Planting while reading is planting what has been read. -/
theorem map_addLines (bed : Bed) (number : Nat) (lines : List String) :
    (bed.addLines number lines).map (fun bed => (bed.roots, bed.network)) =
      (readFrom bed.seen number lines).map bed.plant := by
  induction lines generalizing bed number with
  | nil => exact congrArg Except.ok bed.plant_nil.symm
  | cons raw lines ih =>
    rw [addLines, addLine]
    cases hempty : (Rule.canonicalLine raw).isEmpty with
    | true =>
      rw [readFrom, if_pos hempty, if_pos rfl]
      exact ih bed (number + 1)
    | false =>
      rw [if_neg Bool.false_ne_true]
      cases hseen : bed.seen[Rule.canonicalLine raw]? with
      | some earlier => rw [readFrom_of_seen hempty lines hseen]; rfl
      | none =>
        cases hread : Rule.read (Rule.canonicalLine raw).toList with
        | error reason => rw [readFrom_of_fault hempty lines hseen hread]; rfl
        | ok rule =>
          rw [readFrom_of_rule hempty lines hseen hread]
          refine (ih _ (number + 1)).trans ?_
          cases readFrom (bed.seen.insert (Rule.canonicalLine raw) number) (number + 1) lines with
          | error fault => rfl
          | ok rules => exact congrArg Except.ok (plant_cons bed rule rules).symm

end Bed

/-- Planting lines while they are read gives the same grammar, or the same fault. -/
theorem plantLines_eq_ofLines (lines : List String) : plantLines lines = ofLines lines := by
  have hmap := Bed.empty.map_addLines 1 lines
  have hseen : Bed.empty.seen = ∅ := rfl
  rw [hseen] at hmap
  rw [plantLines, ofLines]
  cases hread : readFrom ∅ 1 lines with
  | error fault =>
    rw [hread] at hmap
    have hrules : rulesOf lines = .error fault := by rw [rulesOf, hread]
    cases hadd : Bed.empty.addLines 1 lines with
    | ok bed => rw [hadd] at hmap; cases hmap
    | error fault' =>
      rw [hadd] at hmap
      rw [hrules, Except.error.inj hmap]
      rfl
  | ok rules =>
    rw [hread] at hmap
    cases hadd : Bed.empty.addLines 1 lines with
    | error fault => rw [hadd] at hmap; cases hmap
    | ok bed =>
      rw [hadd] at hmap
      obtain ⟨hroots, hnetwork⟩ := Prod.mk.inj (Except.ok.inj hmap)
      cases rules with
      | nil =>
        have hrules : rulesOf lines = .error .noRules := by rw [rulesOf, hread]
        have hnone : bed.roots = [] := hroots
        rw [hrules]
        show (if bed.roots.isEmpty then _ else _) = _
        rw [hnone]
        rfl
      | cons rule rules =>
        have hall : bed.roots = (ofRules (rule :: rules)).roots := hroots
        obtain ⟨root, roots, hfirst⟩ := roots_ofRules_cons rule rules
        have hsome : bed.roots.isEmpty = false := by rw [hall, hfirst, List.isEmpty_cons]
        rw [rulesOf_of_ne_nil hread (List.cons_ne_nil rule rules)]
        show (if bed.roots.isEmpty then _ else _) = Except.ok (ofRules (rule :: rules))
        rw [hsome, hall, hnetwork]
        rfl

/-! ## The grammar of some lines -/

/-- The grammar of some lines.  There is one, whether rules are planted at the end or while they are
read, if some line counts and those that count are different rules.  Then it has the names of these
rules, by their first lines, and the root of a name is the alternation of the alternatives of all its
lines, in their order.  Otherwise the fault names the first wrong line and what is wrong with it, or
says that there are no rules if no line is wrong. -/
theorem ofLines_spec (lines : List String) :
    plantLines lines = ofLines lines ∧
    ((∃ g, ofLines lines = .ok g) ↔ Rule.shownLines lines ≠ [] ∧
      (∀ line ∈ Rule.shownLines lines, ∃ rule, Rule.read line.toList = .ok rule) ∧
      (Rule.shownLines lines).Nodup) ∧
    (∀ g, ofLines lines = .ok g → ∃ rules,
      List.Forall₂ (fun line rule => Rule.read line.toList = .ok rule) (Rule.shownLines lines)
        rules ∧
      g.names = (rules.map Rule.name).eraseDups ∧
      ∀ e ∈ g.roots, ∃ ids, g.network.kind? e.2 = some (.alternation ids) ∧
        ids.mapM g.network.pattern? =
          some ((Rule.alternativesOf rules e.1).map Pattern.ofAlternative)) ∧
    ∀ reason, ofLines lines = .error reason ↔
      (∃ i raw fault, FirstWrong lines i raw fault ∧ reason = .badLine (i + 1) raw fault) ∨
        Flawless lines ∧ Rule.shownLines lines = [] ∧ reason = .noRules := by
  refine ⟨plantLines_eq_ofLines lines, ?_, ?_, fun reason => ?_⟩
  · constructor
    · rintro ⟨g, hg⟩
      obtain ⟨rules, hrules, -⟩ := exists_of_ofLines hg
      exact exists_rulesOf_iff.1 ⟨rules, hrules⟩
    · intro h
      obtain ⟨rules, hrules⟩ := exists_rulesOf_iff.2 h
      exact ⟨ofRules rules, by rw [ofLines, hrules]; rfl⟩
  · intro g hg
    obtain ⟨rules, hrules, rfl⟩ := exists_of_ofLines hg
    obtain ⟨-, -, each⟩ := rulesOf_eq_ok_iff.1 hrules
    exact ⟨rules, each, names_ofRules rules, fun e he => alternation_ofRules he⟩
  · rw [← rulesOf_eq_error_iff, ofLines]
    cases rulesOf lines with
    | error fault => exact ⟨fun h => congrArg _ (Except.error.inj h),
        fun h => congrArg _ (Except.error.inj h)⟩
    | ok rules => exact iff_of_false (fun h => by cases h) (fun h => by cases h)

end PhraseSearch.Grammar
