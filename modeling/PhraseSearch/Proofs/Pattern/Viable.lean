import PhraseSearch.Pattern.Expansion

/-!
# Patterns without dead ends

A pattern is *viable* if every alternation in it has an alternative, so that whoever follows it
never gets stuck.  What a rule is written as is viable if the rule has alternatives, and so are
expansions into such patterns.

    viable patterns may be put in the place of references              (Viable.replace)
    expansions into viable patterns are viable                         (Expands.viable)
-/

namespace PhraseSearch.Pattern

mutual

/-- Whether every alternation in a pattern has an alternative. -/
def Viable : Pattern → Prop
  | connector | terminal _ | reference _ => True
  | sequence items => AllViable items
  | alternation alternatives => alternatives ≠ [] ∧ AllViable alternatives
  | repetition inner _ => inner.Viable

/-- Whether every alternation in any of the patterns has an alternative. -/
def AllViable : List Pattern → Prop
  | [] => True
  | p :: ps => p.Viable ∧ AllViable ps

end

theorem allViable_iff {ps : List Pattern} : AllViable ps ↔ ∀ p ∈ ps, p.Viable := by
  induction ps with
  | nil => simp [AllViable]
  | cons p ps ih => simp [AllViable, ih]

/-! ## Replacing -/

variable {trees : String → Option Pattern}

mutual

theorem Viable.replace : ∀ {p : Pattern},
    (∀ r ∈ p.references, ∀ q, trees r = some q → q.Viable) → p.Viable → (p.replace trees).Viable
  | connector, _, _ => trivial
  | terminal _, _, _ => trivial
  | sequence _, htrees, h => AllViable.replaceAll htrees h
  | alternation _, htrees, ⟨hne, h⟩ => by
    refine ⟨?_, AllViable.replaceAll htrees h⟩
    rw [replaceAll_eq_map]
    exact mt List.map_eq_nil_iff.1 hne
  | repetition inner _, htrees, h => Viable.replace (p := inner) htrees h
  | reference rule, htrees, _ => by
    rw [Pattern.replace]
    cases hrule : trees rule with
    | none => exact trivial
    | some q => exact htrees rule (List.mem_singleton_self rule) q hrule

theorem AllViable.replaceAll : ∀ {ps : List Pattern},
    (∀ r ∈ allReferences ps, ∀ q, trees r = some q → q.Viable) → AllViable ps →
      AllViable (replaceAll trees ps)
  | [], _, _ => trivial
  | _ :: _, htrees, ⟨hp, hps⟩ =>
    ⟨hp.replace fun r hr => htrees r (List.mem_append_left _ hr),
      AllViable.replaceAll (fun r hr => htrees r (List.mem_append_right _ hr)) hps⟩

end

theorem Expands.viable {base : String → Pattern} {names : List String}
    (hbase : ∀ name ∈ names, (base name).Viable) {name : String} {p : Pattern}
    (h : Expands base names name p) : p.Viable := by
  induction h with
  | @replace name trees known _ ih =>
    refine (hbase name known).replace fun r hr q hq => ?_
    cases hq
    exact ih r hr

/-! ## Rules -/

theorem viable_ofElement (e : Element) : (ofElement e).Viable := by
  have hatom : ∀ atom : Atom, (ofAtom atom).Viable := by
    intro atom
    cases atom <;> exact trivial
  rw [ofElement]
  cases e.bounds <;> exact hatom e.atom

theorem viable_ofAlternative (elements : List Element) : (ofAlternative elements).Viable := by
  rw [ofAlternative.eq_def]
  split
  · exact viable_ofElement _
  · refine allViable_iff.2 fun p hp => ?_
    obtain ⟨e, -, rfl⟩ := List.mem_map.1 hp
    exact viable_ofElement e

theorem viable_ofRules {rules : List Rule} {name : String}
    (h : Rule.alternativesOf rules name ≠ []) : (ofRules rules name).Viable := by
  refine ⟨mt List.map_eq_nil_iff.1 h, allViable_iff.2 fun p hp => ?_⟩
  obtain ⟨elements, -, rfl⟩ := List.mem_map.1 hp
  exact viable_ofAlternative elements

end PhraseSearch.Pattern
