import Mathlib.Data.List.Forall2
import PhraseSearch.Grammar.Lines
import PhraseSearch.Rule.Derivation

/-!
# What is read

The reader turns reversed bounds away, so the bounds in a rule that has been read allow just the
numbers from the lower one to the upper one.

    bounds that are not reversed mean what they say                    (allows_iff)
    bounds that have been read are not reversed                        (isReversed_of_rulesOf)
    rules that have been read have alternatives               (alternatives_ne_nil_of_rulesOf)
-/

namespace PhraseSearch

theorem Bounds.allows_iff {b : Bounds} (h : b.isReversed = false) {n : Nat} :
    b.Allows n ↔ b.low ≤ n ∧ ∀ high ∈ b.high, n ≤ high := by
  rw [Bounds.Allows, Bounds.isReversed] at *
  refine and_congr_right fun hlow => forall₂_congr fun high hhigh => ?_
  rw [hhigh, Option.any_some, decide_eq_false_iff_not] at h
  rw [Nat.max_eq_right (Nat.le_of_not_lt h)]

/-- A list of readings succeeds if each of them does. -/
theorem mapM_eq_ok_iff {α β ε : Type} {f : α → Except ε β} {l : List α} {l' : List β} :
    l.mapM f = .ok l' ↔ List.Forall₂ (fun a b => f a = .ok b) l l' := by
  induction l generalizing l' with
  | nil =>
    rw [List.mapM_nil, List.forall₂_nil_left_iff]
    exact ⟨fun h => (Except.ok.inj h).symm, fun h => h ▸ rfl⟩
  | cons a l ih =>
    rw [List.mapM_cons, List.forall₂_cons_left_iff]
    constructor
    · intro h
      cases ha : f a with
      | error e =>
        rw [ha] at h
        cases h
      | ok b =>
        cases hl : l.mapM f with
        | error e =>
          rw [ha, hl] at h
          cases h
        | ok bs =>
          rw [ha, hl] at h
          cases h
          exact ⟨b, bs, rfl, ih.1 hl, rfl⟩
    · rintro ⟨b, bs, hb, hbs, rfl⟩
      rw [hb, ih.2 hbs]
      rfl

/-- Every answer of a list of readings that succeed is the answer of one of them. -/
theorem exists_of_mapM_eq_ok {α β ε : Type} {f : α → Except ε β} {l : List α} {l' : List β}
    (h : l.mapM f = .ok l') {b : β} (hb : b ∈ l') : ∃ a ∈ l, f a = .ok b := by
  have hall := mapM_eq_ok_iff.1 h
  induction hall with
  | nil => cases hb
  | cons hfirst hrest ih =>
    rcases List.mem_cons.1 hb with rfl | hb
    · exact ⟨_, List.mem_cons_self, hfirst⟩
    · obtain ⟨a, ha, hf⟩ := ih (mapM_eq_ok_iff.2 hrest) hb
      exact ⟨a, List.mem_cons_of_mem _ ha, hf⟩

namespace Rule

theorem isReversed_of_readElement {cs : List Char} {e : Element} (h : readElement cs = .ok e)
    {b : Bounds} (hb : b ∈ e.bounds) : b.isReversed = false := by
  rw [readElement] at h
  cases hatom : readAtom cs with
  | error fault =>
    rw [hatom] at h
    cases h
  | ok read =>
    obtain ⟨atom, quantifier⟩ := read
    rw [hatom] at h
    simp only [bind, Except.bind] at h
    cases hbounds : readQuantifier? quantifier with
    | none =>
      rw [hbounds] at h
      cases h
    | some bounds =>
      simp only [hbounds] at h
      cases hreversed : bounds.any Bounds.isReversed with
      | true =>
        rw [hreversed] at h
        cases h
      | false =>
        rw [hreversed] at h
        cases h
        have hbounds' : bounds = some b := hb
        rw [hbounds'] at hreversed
        exact hreversed

theorem isReversed_of_readAlternative {cs : List Char} {elements : List Element}
    (h : readAlternative cs = .ok elements) {e : Element} (he : e ∈ elements) {b : Bounds}
    (hb : b ∈ e.bounds) : b.isReversed = false := by
  rw [readAlternative] at h
  split at h
  · cases h
  · obtain ⟨piece, -, hpiece⟩ := exists_of_mapM_eq_ok h he
    exact isReversed_of_readElement hpiece hb

/-- What has been read is a name before the first arrow and alternatives after it. -/
theorem exists_of_read {line : List Char} {rule : Rule} (h : read line = .ok rule) :
    ∃ name body, splitArrow? line = some (name, body) ∧ Text.isName name = true ∧
      rule.name = String.ofList name ∧ body ≠ [] ∧
      (Text.splitWhere (· == '|') body).mapM readAlternative = .ok rule.alternatives := by
  rw [read] at h
  split at h
  · cases h
  · next name body harrow =>
    split at h
    · cases h
    · next hname =>
      split at h
      · cases h
      · next hbody =>
        cases halternatives : (Text.splitWhere (· == '|') body).mapM readAlternative with
        | error fault =>
          rw [halternatives] at h
          cases h
        | ok alternatives =>
          rw [halternatives] at h
          cases h
          refine ⟨name, body, harrow, by simpa using hname, rfl, ?_, halternatives⟩
          rintro rfl
          exact hbody rfl

theorem isReversed_of_read {line : List Char} {rule : Rule} (h : read line = .ok rule)
    {elements : List Element} (halternative : elements ∈ rule.alternatives) {e : Element}
    (he : e ∈ elements) {b : Bounds} (hb : b ∈ e.bounds) : b.isReversed = false := by
  obtain ⟨_, _, -, -, -, -, hread⟩ := exists_of_read h
  obtain ⟨piece, -, hpiece⟩ := exists_of_mapM_eq_ok hread halternative
  exact isReversed_of_readAlternative hpiece he hb

theorem alternatives_ne_nil_of_read {line : List Char} {rule : Rule} (h : read line = .ok rule) :
    rule.alternatives ≠ [] := by
  obtain ⟨_, body, -, -, -, -, hread⟩ := exists_of_read h
  have hlength := (mapM_eq_ok_iff.1 hread).length_eq
  intro hnil
  rw [hnil] at hlength
  exact Text.splitWhere_ne_nil _ body (List.eq_nil_of_length_eq_zero hlength)

end Rule

namespace Grammar

/-- Every rule has been read from one of the lines. -/
theorem exists_of_readFrom {seen : Std.TreeMap String Nat} {number : Nat} {lines : List String}
    {rules : List Rule} (h : readFrom seen number lines = .ok rules) {rule : Rule}
    (hrule : rule ∈ rules) :
    ∃ raw ∈ lines, Rule.read (Rule.canonicalLine raw).toList = .ok rule := by
  induction lines generalizing seen number rules with
  | nil =>
    cases h
    cases hrule
  | cons raw lines ih =>
    rw [readFrom] at h
    split at h
    · obtain ⟨raw', hraw', hread⟩ := ih h hrule
      exact ⟨raw', List.mem_cons_of_mem _ hraw', hread⟩
    · split at h
      · cases h
      · split at h
        · cases h
        · next first hfirst =>
          cases hrest : readFrom (seen.insert (Rule.canonicalLine raw) number) (number + 1)
              lines with
          | error fault =>
            rw [hrest] at h
            cases h
          | ok rest =>
            rw [hrest] at h
            cases h
            rcases List.mem_cons.1 hrule with rfl | hrule
            · exact ⟨raw, List.mem_cons_self, hfirst⟩
            · obtain ⟨raw', hraw', hread⟩ := ih hrest hrule
              exact ⟨raw', List.mem_cons_of_mem _ hraw', hread⟩

theorem readFrom_of_rulesOf {lines : List String} {rules : List Rule}
    (h : rulesOf lines = .ok rules) : readFrom ∅ 1 lines = .ok rules ∧ rules ≠ [] := by
  rw [rulesOf] at h
  split at h
  · cases h
  · next hne =>
    refine ⟨h, ?_⟩
    rintro rfl
    exact hne h

/-- No bounds in the rules of some lines are reversed. -/
theorem isReversed_of_rulesOf {lines : List String} {rules : List Rule}
    (h : rulesOf lines = .ok rules) {rule : Rule} (hrule : rule ∈ rules)
    {elements : List Element} (halternative : elements ∈ rule.alternatives) {e : Element}
    (he : e ∈ elements) {b : Bounds} (hb : b ∈ e.bounds) : b.isReversed = false := by
  obtain ⟨hread, -⟩ := readFrom_of_rulesOf h
  obtain ⟨raw, -, hraw⟩ := exists_of_readFrom hread hrule
  exact Rule.isReversed_of_read hraw halternative he hb

/-- Every rule has an alternative. -/
theorem alternatives_ne_nil_of_rulesOf {lines : List String} {rules : List Rule}
    (h : rulesOf lines = .ok rules) {rule : Rule} (hrule : rule ∈ rules) :
    rule.alternatives ≠ [] := by
  obtain ⟨hread, -⟩ := readFrom_of_rulesOf h
  obtain ⟨raw, -, hraw⟩ := exists_of_readFrom hread hrule
  exact Rule.alternatives_ne_nil_of_read hraw

end Grammar

end PhraseSearch
