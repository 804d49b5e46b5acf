import Mathlib.Computability.Language
import PhraseSearch.Pattern
import PhraseSearch.Pattern.OfRules

/-!
# Languages of patterns

The sequences of list names that a pattern allows are a language, and sequences, alternations and
repetitions are products, sums and unions of powers of languages.  References get their languages
from an environment.

    without references the environment does not matter                 (languageIn_of_closed)
    replacing references by patterns of their languages keeps the language
                                                                       (languageIn_replace)
-/

namespace PhraseSearch

/-- The union of the powers that bounds allow. -/
def Bounds.powers (b : Bounds) (l : Language String) : Language String :=
  {w | ∃ n, b.Allows n ∧ w ∈ l ^ n}

theorem Bounds.mem_powers {b : Bounds} {l : Language String} {w : List String} :
    w ∈ b.powers l ↔ ∃ n, b.Allows n ∧ w ∈ l ^ n := Iff.rfl

namespace Pattern

mutual

/-- The language of a pattern, given the languages of the rules. -/
def languageIn (env : String → Language String) : Pattern → Language String
  | connector => 1
  | terminal list => {[list]}
  | sequence items => productIn env items
  | alternation alternatives => sumIn env alternatives
  | repetition inner bounds => bounds.powers (inner.languageIn env)
  | reference rule => env rule

/-- The product of the languages of some patterns. -/
def productIn (env : String → Language String) : List Pattern → Language String
  | [] => 1
  | p :: ps => p.languageIn env * productIn env ps

/-- The sum of the languages of some patterns. -/
def sumIn (env : String → Language String) : List Pattern → Language String
  | [] => 0
  | p :: ps => p.languageIn env + sumIn env ps

end

/-- The language of a pattern whose references stand for nothing. -/
def language (p : Pattern) : Language String := p.languageIn fun _ => 0

variable {env : String → Language String}

theorem sumIn_eq_sum (ps : List Pattern) : sumIn env ps = (ps.map (languageIn env)).sum := by
  induction ps with
  | nil => rfl
  | cons p ps ih => rw [sumIn, ih, List.map_cons, List.sum_cons]

theorem mem_sum {ls : List (Language String)} {w : List String} :
    w ∈ ls.sum ↔ ∃ l ∈ ls, w ∈ l := by
  induction ls with
  | nil => simp
  | cons l ls ih => simp [Language.mem_add, ih]

/-! ## References -/

mutual

/-- Where nothing is referred to, every environment gives the same language. -/
theorem languageIn_of_closed (env env' : String → Language String) :
    ∀ {p : Pattern}, p.references = [] → p.languageIn env = p.languageIn env'
  | connector, _ => rfl
  | terminal _, _ => rfl
  | sequence _, h => productIn_of_closed env env' h
  | alternation _, h => sumIn_of_closed env env' h
  | repetition inner bounds, h => by
    have hinner : inner.languageIn env = inner.languageIn env' := languageIn_of_closed env env' h
    rw [languageIn, languageIn, hinner]
  | reference _, h => nomatch h

theorem productIn_of_closed (env env' : String → Language String) :
    ∀ {ps : List Pattern}, allReferences ps = [] → productIn env ps = productIn env' ps
  | [], _ => rfl
  | p :: ps, h => by
    obtain ⟨hp, hps⟩ := List.append_eq_nil_iff.1 h
    rw [productIn, productIn, languageIn_of_closed env env' hp, productIn_of_closed env env' hps]

theorem sumIn_of_closed (env env' : String → Language String) :
    ∀ {ps : List Pattern}, allReferences ps = [] → sumIn env ps = sumIn env' ps
  | [], _ => rfl
  | p :: ps, h => by
    obtain ⟨hp, hps⟩ := List.append_eq_nil_iff.1 h
    rw [sumIn, sumIn, languageIn_of_closed env env' hp, sumIn_of_closed env env' hps]

end

section Replace

variable {trees : String → Option Pattern}

mutual

/-- A pattern that has the language of a rule may take the place of a reference to it. -/
theorem languageIn_replace (h : ∀ rule q, trees rule = some q → q.languageIn env = env rule) :
    ∀ p : Pattern, (p.replace trees).languageIn env = p.languageIn env
  | connector => rfl
  | terminal _ => rfl
  | sequence items => productIn_replaceAll h items
  | alternation alternatives => sumIn_replaceAll h alternatives
  | repetition inner bounds => by
    rw [replace, languageIn, languageIn, languageIn_replace h inner]
  | reference rule => by
    rw [replace, languageIn]
    cases htree : trees rule with
    | none => rfl
    | some q => exact h rule q htree

theorem productIn_replaceAll (h : ∀ rule q, trees rule = some q → q.languageIn env = env rule) :
    ∀ ps : List Pattern, productIn env (replaceAll trees ps) = productIn env ps
  | [] => rfl
  | p :: ps => by
    rw [replaceAll, productIn, productIn, languageIn_replace h p, productIn_replaceAll h ps]

theorem sumIn_replaceAll (h : ∀ rule q, trees rule = some q → q.languageIn env = env rule) :
    ∀ ps : List Pattern, sumIn env (replaceAll trees ps) = sumIn env ps
  | [] => rfl
  | p :: ps => by
    rw [replaceAll, sumIn, sumIn, languageIn_replace h p, sumIn_replaceAll h ps]

end

end Replace

end Pattern

end PhraseSearch
