import PhraseSearch.Text.Alphabetic
import PhraseSearch.Text.Lowercase

/-!
# Canonical letters

A search compares texts letter by letter, after a *normalizer* has given every character its
canonical form or dropped it.  `lettersOnly` is the usual choice: letters of any script in lower
case, nothing else.

    c ∈ canonical s ↔ c is the canonical form of a character of s      (mem_canonical)
    canonical (s ++ t) = canonical s ++ canonical t                    (canonical_append)
-/

namespace PhraseSearch

/-- Gives a character its canonical form; `none` drops it. -/
abbrev Normalizer := Char → Option Char

namespace Normalizer

/-- Lower-cases letters and drops all else. -/
def lettersOnly : Normalizer := fun c =>
  if Text.isAlphabetic c then some (Text.toLower c) else none

/-- The canonical letters of a text, in order. -/
def canonical (normalize : Normalizer) (text : String) : List Char :=
  text.toList.filterMap normalize

theorem mem_canonical {normalize : Normalizer} {text : String} {c : Char} :
    c ∈ normalize.canonical text ↔ ∃ ch ∈ text.toList, normalize ch = some c :=
  List.mem_filterMap

theorem canonical_ne_nil_iff {normalize : Normalizer} {text : String} :
    normalize.canonical text ≠ [] ↔ ∃ ch ∈ text.toList, ∃ c, normalize ch = some c := by
  rw [← List.isEmpty_eq_false_iff, List.isEmpty_eq_false_iff_exists_mem]
  simp only [mem_canonical]
  exact ⟨fun ⟨c, ch, hch, hc⟩ => ⟨ch, hch, c, hc⟩, fun ⟨ch, hch, c, hc⟩ => ⟨c, ch, hch, hc⟩⟩

theorem canonical_append (normalize : Normalizer) (s t : String) :
    normalize.canonical (s ++ t) = normalize.canonical s ++ normalize.canonical t := by
  simp [canonical]

end Normalizer

end PhraseSearch
