import Mathlib.Data.List.Forall2
import Mathlib.Data.List.Induction
import Mathlib.Data.List.Nodup
import PhraseSearch.Grammar.Reading
import PhraseSearch.Proofs.Grammar.Lines
import PhraseSearch.Proofs.Rule.Reading

/-!
# Which lines are wrong

Reading stops at the first wrong line.  If no line is wrong, there is a rule for each line that
counts; these lines are rules then, and different ones.

    what is wrong with a line                                          (wrong_length_iff)
    when no line is wrong                                              (flawless_iff)
    where reading stops                                                (outcome_readFrom)
    which lines have rules                                             (exists_rulesOf_iff)
    why lines have no rules                                            (rulesOf_eq_error_iff)
-/

namespace PhraseSearch.Grammar

variable {lines done : List String} {raw line : String} {i : Nat} {fault : LineFault}

/-! ## Places -/

theorem place?_append (done more : List String) (line : String) :
    place? (done ++ more) line = (place? done line).or
      ((place? more line).map (· + done.length)) := by
  rw [place?, List.map_append, List.idxOf?, List.findIdx?_append, List.length_map]
  rfl

theorem place?_singleton (raw line : String) :
    place? [raw] line = if Rule.canonicalLine raw = line then some 0 else none := by
  rw [place?, List.map_singleton, List.idxOf?_cons]
  by_cases h : Rule.canonicalLine raw = line <;> simp [h]

theorem place?_append_singleton (done : List String) (raw line : String) :
    place? (done ++ [raw]) line = (place? done line).or
      (if Rule.canonicalLine raw = line then some done.length else none) := by
  rw [place?_append, place?_singleton]
  split <;> simp

theorem place?_eq_none_iff : place? lines line = none ↔ line ∉ lines.map Rule.canonicalLine :=
  List.idxOf?_eq_none_iff

theorem lt_of_place? (h : place? lines line = some i) : i < lines.length := by
  obtain ⟨hlt, -⟩ := List.idxOf?_eq_some_iff.1 h
  rwa [List.length_map] at hlt

/-- Further lines do not change the first places of the lines before. -/
theorem place?_append_of_lt (more : List String) (hi : i < done.length) :
    place? (done ++ more) line = some i ↔ place? done line = some i := by
  rw [place?_append]
  cases place? done line with
  | some j => rw [Option.some_or]
  | none =>
    rw [Option.none_or, Option.map_eq_some_iff]
    refine ⟨?_, nofun⟩
    rintro ⟨j, -, rfl⟩
    omega

/-! ## Wrong lines -/

theorem Wrong.getElem?_eq (h : Wrong lines i raw fault) : lines[i]? = some raw := by
  cases h with
  | repeated line _ _ _ => exact line
  | malformed line _ _ _ => exact line

theorem Wrong.lt_length (h : Wrong lines i raw fault) : i < lines.length :=
  (List.getElem?_eq_some_iff.1 h.getElem?_eq).1

/-- There is only one thing wrong with a line. -/
theorem Wrong.unique {raw' : String} {fault' : LineFault} (h : Wrong lines i raw fault)
    (h' : Wrong lines i raw' fault') : raw = raw' ∧ fault = fault' := by
  obtain rfl : raw = raw' := Option.some.inj (h.getElem?_eq.symm.trans h'.getElem?_eq)
  refine ⟨rfl, ?_⟩
  cases h with
  | repeated _ _ place earlier =>
    cases h' with
    | repeated _ _ place' _ => rw [Option.some.inj (place.symm.trans place')]
    | malformed _ _ place' _ =>
      exact absurd (Option.some.inj (place.symm.trans place')) (Nat.ne_of_lt earlier)
  | malformed _ _ place read =>
    cases h' with
    | repeated _ _ place' earlier =>
      exact absurd (Option.some.inj (place'.symm.trans place)) (Nat.ne_of_lt earlier)
    | malformed _ _ _ read' =>
      rw [read] at read'
      rw [Except.error.inj read']

theorem FirstWrong.unique {j : Nat} {raw' : String} {fault' : LineFault}
    (h : FirstWrong lines i raw fault) (h' : FirstWrong lines j raw' fault') :
    i = j ∧ raw = raw' ∧ fault = fault' := by
  obtain hlt | rfl | hlt := Nat.lt_trichotomy i j
  · exact absurd h.wrong (h'.least i hlt raw fault)
  · exact ⟨rfl, h.wrong.unique h'.wrong⟩
  · exact absurd h'.wrong (h.least j hlt raw' fault')

/-- Whether a line is wrong depends on the lines before it alone. -/
theorem wrong_append_iff (more : List String) (hi : i < done.length) :
    Wrong (done ++ more) i raw fault ↔ Wrong done i raw fault := by
  have hline : (done ++ more)[i]? = done[i]? := List.getElem?_append_left hi
  constructor
  · intro h
    cases h with
    | repeated line shown place earlier =>
      exact .repeated (hline ▸ line) shown
        ((place?_append_of_lt more (Nat.lt_trans earlier hi)).1 place) earlier
    | malformed line shown place read =>
      exact .malformed (hline ▸ line) shown ((place?_append_of_lt more hi).1 place) read
  · intro h
    cases h with
    | repeated line shown place earlier =>
      exact .repeated (hline ▸ line) shown
        ((place?_append_of_lt more (Nat.lt_trans earlier hi)).2 place) earlier
    | malformed line shown place read =>
      exact .malformed (hline ▸ line) shown ((place?_append_of_lt more hi).2 place) read

/-- What may be wrong with the line after some others. -/
theorem wrong_length_iff {raw' : String} (more : List String) :
    Wrong (done ++ raw :: more) done.length raw' fault ↔
      raw' = raw ∧ (Rule.canonicalLine raw).isEmpty = false ∧
        ((∃ j, place? done (Rule.canonicalLine raw) = some j ∧ fault = .repeated (j + 1)) ∨
          place? done (Rule.canonicalLine raw) = none ∧
            ∃ reason, Rule.read (Rule.canonicalLine raw).toList = .error reason ∧
              fault = .malformed reason) := by
  have hline : (done ++ raw :: more)[done.length]? = some raw := by
    rw [List.getElem?_append_right (Nat.le_refl _), Nat.sub_self, List.getElem?_cons_zero]
  have hplace : place? (done ++ raw :: more) (Rule.canonicalLine raw) =
      (place? done (Rule.canonicalLine raw)).or (some done.length) := by
    rw [place?_append, place?, place?, List.map_cons, List.idxOf?_cons, if_pos BEq.rfl,
      Option.map_some, Nat.zero_add]
  constructor
  · intro h
    obtain rfl : raw' = raw := Option.some.inj (h.getElem?_eq.symm.trans hline)
    cases h with
    | repeated _ shown place earlier =>
      exact ⟨rfl, shown, .inl ⟨_, (place?_append_of_lt _ earlier).1 place, rfl⟩⟩
    | malformed _ shown place read =>
      refine ⟨rfl, shown, .inr ⟨?_, _, read, rfl⟩⟩
      rw [hplace] at place
      cases hdone : place? done (Rule.canonicalLine raw') with
      | none => rfl
      | some j =>
        rw [hdone, Option.some_or] at place
        exact absurd (Option.some.inj place) (Nat.ne_of_lt (lt_of_place? hdone))
  · rintro ⟨rfl, shown, ⟨j, hj, rfl⟩ | ⟨hnone, reason, read, rfl⟩⟩
    · refine .repeated hline shown ?_ (lt_of_place? hj)
      rw [hplace, hj, Option.some_or]
    · refine .malformed hline shown ?_ read
      rw [hplace, hnone, Option.none_or]

theorem flawless_nil : Flawless [] := fun _ _ _ h => absurd h.lt_length (Nat.not_lt_zero _)

/-- Some lines and one more are flawless if the lines are, and the one more is empty, or new and a
rule. -/
theorem flawless_append_singleton_iff : Flawless (done ++ [raw]) ↔
    Flawless done ∧ ((Rule.canonicalLine raw).isEmpty = false →
      place? done (Rule.canonicalLine raw) = none ∧
        ∃ rule, Rule.read (Rule.canonicalLine raw).toList = .ok rule) := by
  constructor
  · intro h
    refine ⟨fun i raw' fault hwrong =>
      h i raw' fault ((wrong_append_iff _ hwrong.lt_length).2 hwrong), fun shown => ?_⟩
    cases hplace : place? done (Rule.canonicalLine raw) with
    | some j =>
      exact absurd ((wrong_length_iff []).2 ⟨rfl, shown, .inl ⟨j, hplace, rfl⟩⟩)
        (h done.length raw (.repeated (j + 1)))
    | none =>
      refine ⟨rfl, ?_⟩
      cases hread : Rule.read (Rule.canonicalLine raw).toList with
      | ok rule => exact ⟨rule, rfl⟩
      | error reason =>
        exact absurd ((wrong_length_iff []).2 ⟨rfl, shown, .inr ⟨hplace, reason, hread, rfl⟩⟩)
          (h done.length raw (.malformed reason))
  · rintro ⟨hdone, hlast⟩ i raw' fault hwrong
    obtain hlt | rfl : i < done.length ∨ i = done.length := by
      have := hwrong.lt_length
      rw [List.length_append, List.length_singleton] at this
      omega
    · exact hdone i raw' fault ((wrong_append_iff _ hlt).1 hwrong)
    · obtain ⟨-, shown, ⟨j, hplace, -⟩ | ⟨-, reason, hread, -⟩⟩ := (wrong_length_iff []).1 hwrong
      · rw [(hlast shown).1] at hplace
        cases hplace
      · obtain ⟨rule, hrule⟩ := (hlast shown).2
        rw [hrule] at hread
        cases hread

theorem mem_shownLines :
    line ∈ Rule.shownLines lines ↔ line ∈ lines.map Rule.canonicalLine ∧ line.isEmpty = false := by
  rw [Rule.shownLines, List.mem_filter, Bool.not_eq_true']

theorem shownLines_append (lines more : List String) :
    Rule.shownLines (lines ++ more) = Rule.shownLines lines ++ Rule.shownLines more := by
  rw [Rule.shownLines, List.map_append, List.filter_append]
  rfl

/-- No line is wrong if all that count are rules, and different ones. -/
theorem flawless_iff : Flawless lines ↔
    (∀ line ∈ Rule.shownLines lines, ∃ rule, Rule.read line.toList = .ok rule) ∧
      (Rule.shownLines lines).Nodup := by
  induction lines using List.reverseRecOn with
  | nil => exact iff_of_true flawless_nil ⟨nofun, List.nodup_nil⟩
  | append_singleton lines raw ih =>
    rw [flawless_append_singleton_iff, ih, shownLines_append]
    cases hempty : (Rule.canonicalLine raw).isEmpty with
    | true =>
      have hlast : Rule.shownLines [raw] = [] := shownLines_cons_of_empty hempty []
      rw [hlast, List.append_nil]
      exact and_iff_left nofun
    | false =>
      have hlast : Rule.shownLines [raw] = [Rule.canonicalLine raw] :=
        shownLines_cons_of_ne hempty []
      have hnew : place? lines (Rule.canonicalLine raw) = none ↔
          Rule.canonicalLine raw ∉ Rule.shownLines lines := by
        rw [place?_eq_none_iff, mem_shownLines, hempty, and_iff_left rfl]
      rw [hlast, hnew, List.nodup_append_comm, List.singleton_append, List.nodup_cons]
      simp only [List.mem_append, List.mem_singleton, or_imp, forall_and, forall_eq, true_imp_iff]
      simp only [and_assoc, and_comm, and_left_comm]

/-! ## Reading -/

/-- Where reading lines ends: at the first wrong line, or with a rule for each line that counts. -/
inductive Outcome (lines shown : List String) : Except Fault (List Rule) → Prop
  | stopped {i : Nat} {raw : String} {fault : LineFault} (first : FirstWrong lines i raw fault) :
      Outcome lines shown (.error (.badLine (i + 1) raw fault))
  | read {rules : List Rule} (flawless : Flawless lines)
      (each : List.Forall₂ (fun line rule => Rule.read line.toList = .ok rule) shown rules) :
      Outcome lines shown (.ok rules)

theorem Outcome.cons {shown : List String} {result : Except Fault (List Rule)} {rule : Rule}
    (h : Outcome lines shown result) (hread : Rule.read line.toList = .ok rule) :
    Outcome lines (line :: shown) (result.map (rule :: ·)) := by
  cases h with
  | stopped first => exact .stopped first
  | read flawless each => exact .read flawless (.cons hread each)

theorem firstWrong_length {more : List String} (hdone : Flawless done)
    (h : Wrong (done ++ raw :: more) done.length raw fault) :
    FirstWrong (done ++ raw :: more) done.length raw fault :=
  ⟨h, fun j hj raw' fault' hwrong => hdone j raw' fault' ((wrong_append_iff _ hj).1 hwrong)⟩

/-- Whether a map holds the number of the first line of each canonical form. -/
def Records (seen : Std.TreeMap String Nat) (done : List String) : Prop :=
  ∀ line, line.isEmpty = false → seen[line]? = (place? done line).map (· + 1)

variable {seen : Std.TreeMap String Nat}

theorem records_empty : Records ∅ [] := fun _ _ => Std.TreeMap.getElem?_emptyc

/-- A line that is passed over leaves no record. -/
theorem Records.skip (h : Records seen done) (hempty : (Rule.canonicalLine raw).isEmpty = true) :
    Records seen (done ++ [raw]) := by
  intro line hline
  have hne : Rule.canonicalLine raw ≠ line := by
    rintro rfl
    rw [hempty] at hline
    cases hline
  rw [h line hline, place?_append_singleton, if_neg hne, Option.or_none]

theorem Records.insert (h : Records seen done)
    (hnew : place? done (Rule.canonicalLine raw) = none) :
    Records (seen.insert (Rule.canonicalLine raw) (done.length + 1)) (done ++ [raw]) := by
  intro line hline
  rw [Std.TreeMap.getElem?_insert, place?_append_singleton]
  by_cases heq : Rule.canonicalLine raw = line
  · subst heq
    rw [if_pos Std.ReflCmp.compare_self, hnew, if_pos rfl]
    rfl
  · rw [if_neg (by simpa using heq), if_neg heq, Option.or_none, h line hline]

/-- The induction is on the lines that are left. -/
theorem outcome_readFrom (left : List String) (hdone : Flawless done) (hseen : Records seen done) :
    Outcome (done ++ left) (Rule.shownLines left) (readFrom seen (done.length + 1) left) := by
  induction left generalizing done seen with
  | nil =>
    rw [List.append_nil]
    exact .read hdone .nil
  | cons raw left ih =>
    have hlength : (done ++ [raw]).length = done.length + 1 := by simp
    have hnext := @ih (done ++ [raw])
    rw [hlength, List.append_assoc, List.singleton_append] at hnext
    cases hempty : (Rule.canonicalLine raw).isEmpty with
    | true =>
      have hflawless : Flawless (done ++ [raw]) := by
        refine flawless_append_singleton_iff.2 ⟨hdone, fun shown => ?_⟩
        rw [hempty] at shown
        cases shown
      rw [readFrom, if_pos hempty, shownLines_cons_of_empty hempty]
      exact hnext hflawless (hseen.skip hempty)
    | false =>
      have hraw := hseen _ hempty
      cases hfirst : place? done (Rule.canonicalLine raw) with
      | some j =>
        rw [hfirst, Option.map_some] at hraw
        rw [readFrom_of_seen hempty left hraw]
        exact .stopped (firstWrong_length hdone
          ((wrong_length_iff left).2 ⟨rfl, hempty, .inl ⟨j, hfirst, rfl⟩⟩))
      | none =>
        rw [hfirst, Option.map_none] at hraw
        cases hread : Rule.read (Rule.canonicalLine raw).toList with
        | error reason =>
          rw [readFrom_of_fault hempty left hraw hread]
          exact .stopped (firstWrong_length hdone
            ((wrong_length_iff left).2 ⟨rfl, hempty, .inr ⟨hfirst, reason, hread, rfl⟩⟩))
        | ok rule =>
          have hflawless : Flawless (done ++ [raw]) :=
            flawless_append_singleton_iff.2 ⟨hdone, fun _ => ⟨hfirst, rule, hread⟩⟩
          rw [readFrom_of_rule hempty left hraw hread, shownLines_cons_of_ne hempty]
          exact (hnext hflawless (hseen.insert hfirst)).cons hread

theorem outcome (lines : List String) :
    Outcome lines (Rule.shownLines lines) (readFrom ∅ 1 lines) :=
  outcome_readFrom lines flawless_nil records_empty

/-! ## Rules -/

theorem rulesOf_of_ne_nil {rules : List Rule} (h : readFrom ∅ 1 lines = .ok rules)
    (hne : rules ≠ []) : rulesOf lines = .ok rules := by
  rw [rulesOf, h]
  cases rules with
  | nil => exact absurd rfl hne
  | cons rule rules => rfl

/-- There are no rules if no line counts, and none is wrong. -/
theorem rulesOf_eq_error_iff {reason : Fault} : rulesOf lines = .error reason ↔
    (∃ i raw fault, FirstWrong lines i raw fault ∧ reason = .badLine (i + 1) raw fault) ∨
      Flawless lines ∧ Rule.shownLines lines = [] ∧ reason = .noRules := by
  have hend := outcome lines
  rw [rulesOf]
  generalize readFrom ∅ 1 lines = result at hend
  cases hend with
  | @stopped i raw fault first =>
    constructor
    · intro h
      cases h
      exact .inl ⟨i, raw, fault, first, rfl⟩
    · rintro (⟨i', raw', fault', first', rfl⟩ | ⟨flawless, -, -⟩)
      · obtain ⟨rfl, rfl, rfl⟩ := first.unique first'
        rfl
      · exact absurd first.wrong (flawless i raw fault)
  | @read rules flawless each =>
    cases rules with
    | nil =>
      rw [List.forall₂_nil_right_iff] at each
      constructor
      · intro h
        cases h
        exact .inr ⟨flawless, each, rfl⟩
      · rintro (⟨i, raw, fault, first, -⟩ | ⟨-, -, rfl⟩)
        · exact absurd first.wrong (flawless i raw fault)
        · rfl
    | cons rule rules =>
      refine iff_of_false (fun h => by cases h) ?_
      rintro (⟨i, raw, fault, first, -⟩ | ⟨-, hnone, -⟩)
      · exact absurd first.wrong (flawless i raw fault)
      · rw [hnone] at each
        cases each

theorem rulesOf_eq_ok_iff {rules : List Rule} : rulesOf lines = .ok rules ↔
    Flawless lines ∧ rules ≠ [] ∧ List.Forall₂ (fun line rule => Rule.read line.toList = .ok rule)
      (Rule.shownLines lines) rules := by
  have hend := outcome lines
  constructor
  · intro h
    obtain ⟨hread, hne⟩ := readFrom_of_rulesOf h
    rw [hread] at hend
    cases hend with
    | read flawless each => exact ⟨flawless, hne, each⟩
  · rintro ⟨flawless, hne, each⟩
    generalize hread : readFrom ∅ 1 lines = result at hend
    cases hend with
    | stopped first => exact absurd first.wrong (flawless _ _ _)
    | @read rules' _ each' =>
      have hunique : Relator.RightUnique fun (line : String) rule =>
          Rule.read line.toList = .ok rule :=
        fun _ _ _ h h' => Except.ok.inj (h.symm.trans h')
      obtain rfl : rules' = rules := List.right_unique_forall₂' hunique each' each
      exact rulesOf_of_ne_nil hread hne

/-- Rules for some lines are there if every line is a rule. -/
theorem exists_forall₂_read {shown : List String}
    (h : ∀ line ∈ shown, ∃ rule, Rule.read line.toList = .ok rule) :
    ∃ rules, List.Forall₂ (fun line rule => Rule.read line.toList = .ok rule) shown rules := by
  induction shown with
  | nil => exact ⟨[], .nil⟩
  | cons line shown ih =>
    obtain ⟨rule, hrule⟩ := h line List.mem_cons_self
    obtain ⟨rules, hrules⟩ := ih fun other hother => h other (List.mem_cons_of_mem _ hother)
    exact ⟨rule :: rules, .cons hrule hrules⟩

/-- There are rules if some line counts, and those that count are different rules. -/
theorem exists_rulesOf_iff : (∃ rules, rulesOf lines = .ok rules) ↔ Rule.shownLines lines ≠ [] ∧
    (∀ line ∈ Rule.shownLines lines, ∃ rule, Rule.read line.toList = .ok rule) ∧
    (Rule.shownLines lines).Nodup := by
  constructor
  · rintro ⟨rules, hrules⟩
    obtain ⟨flawless, hne, each⟩ := rulesOf_eq_ok_iff.1 hrules
    refine ⟨fun hnone => hne ?_, flawless_iff.1 flawless⟩
    rw [hnone, List.forall₂_nil_left_iff] at each
    exact each
  · rintro ⟨hsome, hflawless⟩
    obtain ⟨rules, each⟩ := exists_forall₂_read hflawless.1
    refine ⟨rules, rulesOf_eq_ok_iff.2 ⟨flawless_iff.2 hflawless, fun hnone => hsome ?_, each⟩⟩
    rw [hnone, List.forall₂_nil_right_iff] at each
    exact each

end PhraseSearch.Grammar
