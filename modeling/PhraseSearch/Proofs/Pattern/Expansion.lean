import PhraseSearch.Pattern.Expansion
import PhraseSearch.Proofs.Pattern.Denotation
import PhraseSearch.Rule.References

/-!
# Replacing references

What a pattern becomes when references are replaced depends on nothing but what its own references
are replaced by, and two replacements are one.  So it does not matter in how many steps a pattern is
expanded: if no reference is left, it is the expansion of its name, and a name has only one.

    two replacements are one                                           (replace_replace)
    what is left to be referred to                                     (references_replace)
    a pattern without references is an expansion                       (Expanding.expands)
    rules that agree where a name leads to expand it to the same       (Expands.eq_of_agree)
-/

namespace PhraseSearch.Pattern

variable {f g : String → Option Pattern}

/-! ## Replacing -/

mutual

theorem replace_congr : ∀ {p : Pattern}, (∀ r ∈ p.references, f r = g r) →
    p.replace f = p.replace g
  | connector, _ => rfl
  | terminal _, _ => rfl
  | sequence _, h => congrArg sequence (replaceAll_congr h)
  | alternation _, h => congrArg alternation (replaceAll_congr h)
  | repetition _ bounds, h => congrArg (repetition · bounds) (replace_congr h)
  | reference rule, h => by rw [replace, replace, h rule (List.mem_singleton_self rule)]

theorem replaceAll_congr : ∀ {ps : List Pattern}, (∀ r ∈ allReferences ps, f r = g r) →
    replaceAll f ps = replaceAll g ps
  | [], _ => rfl
  | p :: ps, h => by
    have hp : p.replace f = p.replace g :=
      replace_congr fun r hr => h r (List.mem_append_left _ hr)
    have hps : replaceAll f ps = replaceAll g ps :=
      replaceAll_congr fun r hr => h r (List.mem_append_right _ hr)
    rw [replaceAll, replaceAll, hp, hps]

end

mutual

theorem replace_none : ∀ p : Pattern, p.replace (fun _ => none) = p
  | connector => rfl
  | terminal _ => rfl
  | sequence items => congrArg sequence (replaceAll_none items)
  | alternation alternatives => congrArg alternation (replaceAll_none alternatives)
  | repetition inner bounds => congrArg (repetition · bounds) (replace_none inner)
  | reference _ => rfl

theorem replaceAll_none : ∀ ps : List Pattern, replaceAll (fun _ => none) ps = ps
  | [] => rfl
  | p :: ps => by rw [replaceAll, replace_none p, replaceAll_none ps]

end

theorem replace_of_closed {p : Pattern} (h : p.references = []) : p.replace f = p := by
  have hsame : p.replace f = p.replace fun _ => none :=
    replace_congr fun r hr => absurd (h ▸ hr) List.not_mem_nil
  rw [hsame, replace_none]

/-- What two replacements, one after the other, put in the place of a reference. -/
def replaceTwice (f g : String → Option Pattern) (r : String) : Option Pattern :=
  match f r with
  | some q => some (q.replace g)
  | none => g r

mutual

theorem replace_replace (f g : String → Option Pattern) : ∀ p : Pattern,
    (p.replace f).replace g = p.replace (replaceTwice f g)
  | connector => rfl
  | terminal _ => rfl
  | sequence items => congrArg sequence (replaceAll_replaceAll f g items)
  | alternation alternatives => congrArg alternation (replaceAll_replaceAll f g alternatives)
  | repetition inner bounds => congrArg (repetition · bounds) (replace_replace f g inner)
  | reference rule => by
    rw [replace, replace, replaceTwice]
    cases f rule <;> rfl

theorem replaceAll_replaceAll (f g : String → Option Pattern) : ∀ ps : List Pattern,
    replaceAll g (replaceAll f ps) = replaceAll (replaceTwice f g) ps
  | [] => rfl
  | p :: ps => by
    rw [replaceAll, replaceAll, replaceAll, replace_replace f g p, replaceAll_replaceAll f g ps]

end

mutual

theorem references_replace (f : String → Option Pattern) : ∀ p : Pattern,
    (p.replace f).references = p.references.flatMap fun r =>
      match f r with
      | some q => q.references
      | none => [r]
  | connector => rfl
  | terminal _ => rfl
  | sequence items => allReferences_replaceAll f items
  | alternation alternatives => allReferences_replaceAll f alternatives
  | repetition inner _ => references_replace f inner
  | reference rule => by
    rw [replace, references, List.flatMap_singleton]
    cases f rule <;> rfl

theorem allReferences_replaceAll (f : String → Option Pattern) : ∀ ps : List Pattern,
    allReferences (replaceAll f ps) = (allReferences ps).flatMap fun r =>
      match f r with
      | some q => q.references
      | none => [r]
  | [] => rfl
  | p :: ps => by
    rw [replaceAll, allReferences, allReferences, List.flatMap_append, references_replace f p,
      allReferences_replaceAll f ps]

end

/-- What is referred to after closed patterns have been put in the place of references. -/
theorem mem_references_replace (hclosed : ∀ r q, f r = some q → q.references = []) {p : Pattern}
    {r : String} : r ∈ (p.replace f).references ↔ r ∈ p.references ∧ f r = none := by
  rw [references_replace, List.mem_flatMap]
  constructor
  · rintro ⟨s, hs, hr⟩
    cases hf : f s with
    | some q =>
      rw [hf] at hr
      have hr : r ∈ q.references := hr
      rw [hclosed s q hf] at hr
      cases hr
    | none =>
      rw [hf] at hr
      obtain rfl := List.mem_singleton.1 hr
      exact ⟨hs, hf⟩
  · rintro ⟨hr, hf⟩
    refine ⟨r, hr, ?_⟩
    rw [hf]
    exact List.mem_singleton_self r

/-! ## Expansions -/

variable {base : String → Pattern} {names : List String} {name : String} {p q : Pattern}

theorem Expands.known (h : Expands base names name p) : name ∈ names := by
  cases h with
  | replace _ known _ => exact known

theorem Expands.exists_of_mem (h : Expands base names name p) {r : String}
    (hr : r ∈ (base name).references) : ∃ q, Expands base names r q := by
  cases h with
  | replace trees _ below => exact ⟨_, below r hr⟩

theorem Expands.references_eq_nil (h : Expands base names name p) : p.references = [] := by
  induction h with
  | @replace name trees _ _ ih =>
    rw [references_replace, List.flatMap_eq_nil_iff]
    exact ih

/-- An expansion has the language of its name, if references have the languages of theirs. -/
theorem Expands.languageIn_eq {env : String → Language String}
    (henv : ∀ n ∈ names, (base n).languageIn env = env n) (h : Expands base names name p) :
    p.languageIn env = env name := by
  classical
  induction h with
  | @replace name trees known _ ih =>
    have hsame : (base name).replace (fun r => some (trees r)) = (base name).replace fun r =>
        if r ∈ (base name).references then some (trees r) else none :=
      replace_congr fun r hr => (if_pos hr).symm
    rw [hsame, languageIn_replace, henv name known]
    intro r q hq
    split at hq
    · next hr =>
      cases hq
      exact ih r hr
    · cases hq

theorem expanding_base (base : String → Pattern) (names : List String) (name : String) :
    Expanding base names name (base name) :=
  ⟨fun _ => none, (replace_none _).symm, nofun⟩

/-- Further references may be replaced by expansions. -/
theorem Expanding.replace (h : Expanding base names name p)
    (hg : ∀ r q, g r = some q → Expands base names r q) :
    Expanding base names name (p.replace g) := by
  obtain ⟨trees, rfl, htrees⟩ := h
  refine ⟨replaceTwice trees g, replace_replace trees g _, fun r q hq => ?_⟩
  rw [replaceTwice] at hq
  cases ht : trees r with
  | some t =>
    rw [ht] at hq
    cases hq
    have hexpands := htrees r t ht
    rwa [replace_of_closed hexpands.references_eq_nil]
  | none =>
    rw [ht] at hq
    exact hg r q hq

theorem Expanding.mem_references (h : Expanding base names name p) {r : String}
    (hr : r ∈ p.references) : r ∈ (base name).references := by
  obtain ⟨trees, rfl, htrees⟩ := h
  exact ((mem_references_replace fun r q hq => (htrees r q hq).references_eq_nil).1 hr).1

theorem Expanding.expands (h : Expanding base names name p) (known : name ∈ names)
    (hclosed : p.references = []) : Expands base names name p := by
  obtain ⟨trees, rfl, htrees⟩ := h
  have hall : ∀ r ∈ (base name).references, ∃ q, trees r = some q := by
    intro r hr
    cases ht : trees r with
    | some q => exact ⟨q, rfl⟩
    | none =>
      have hmem := (mem_references_replace fun r q hq => (htrees r q hq).references_eq_nil).2
        ⟨hr, ht⟩
      exact absurd (hclosed ▸ hmem) List.not_mem_nil
  have hsame : (base name).replace trees =
      (base name).replace fun r => some ((trees r).getD connector) := by
    refine replace_congr fun r hr => ?_
    obtain ⟨q, hq⟩ := hall r hr
    rw [hq]
    rfl
  rw [hsame]
  refine .replace _ known fun r hr => ?_
  obtain ⟨q, hq⟩ := hall r hr
  rw [hq]
  exact htrees r q hq

/-! ## References of rules -/

open Rule

theorem mem_allReferences {ps : List Pattern} {r : String} :
    r ∈ allReferences ps ↔ ∃ p ∈ ps, r ∈ p.references := by
  induction ps with
  | nil => simp [allReferences]
  | cons p ps ih => simp [allReferences, ih]

theorem mem_references_ofElement {e : Element} {target : String} :
    target ∈ (ofElement e).references ↔ e.atom = .rule target := by
  have hatom : ∀ atom : Atom, target ∈ (ofAtom atom).references ↔ atom = .rule target := by
    intro atom
    cases atom <;> simp [ofAtom, references, eq_comm]
  rw [ofElement]
  cases e.bounds with
  | none => exact hatom e.atom
  | some bounds => exact hatom e.atom

theorem mem_references_ofAlternative {elements : List Element} {target : String} :
    target ∈ (ofAlternative elements).references ↔ ∃ e ∈ elements, e.atom = .rule target := by
  rw [ofAlternative.eq_def]
  split
  · simp [mem_references_ofElement]
  · simp [references, mem_allReferences, mem_references_ofElement]

theorem mem_references_ofRules {rules : List Rule} {name target : String} :
    target ∈ (ofRules rules name).references ↔ Refers rules name target := by
  simp [ofRules, references, mem_allReferences, mem_references_ofAlternative, Refers]

/-- Rules that give the same alternatives to every name that references lead to expand a name to
the same pattern. -/
theorem Expands.eq_of_agree {rules rules' : List Rule} {names' : List String}
    (hsame : ∀ target, LeadsTo rules name target →
      alternativesOf rules target = alternativesOf rules' target)
    (h : Expands (ofRules rules) names name p) (h' : Expands (ofRules rules') names' name q) :
    p = q := by
  induction h generalizing q with
  | @replace name trees _ _ ih =>
    cases h' with
    | replace trees' _ below' =>
      have hbase : ofRules rules name = ofRules rules' name := by
        rw [ofRules, ofRules, hsame name (.refl name)]
      rw [← hbase] at below' ⊢
      refine replace_congr fun r hr => congrArg some ?_
      refine ih r hr (fun target hlead => hsame target ?_) (below' r hr)
      exact .step (mem_references_ofRules.1 hr) hlead

/-- A name that has an expansion leads to names that have one. -/
theorem Expands.of_leadsTo {rules : List Rule} {target : String}
    (h : Expands (ofRules rules) names name p) (hlead : LeadsTo rules name target) :
    ∃ q, Expands (ofRules rules) names target q := by
  induction hlead generalizing p with
  | refl => exact ⟨p, h⟩
  | step first _ ih =>
    obtain ⟨q, hq⟩ := h.exists_of_mem (mem_references_ofRules.2 first)
    exact ih hq

/-- A name that has an expansion does not lead back to itself. -/
theorem Expands.not_onCycle {rules : List Rule} (h : Expands (ofRules rules) names name p) :
    ¬ OnCycle rules name := by
  induction h with
  | @replace name _ _ _ ih =>
    rintro ⟨next, hfirst, hback⟩
    refine ih next (mem_references_ofRules.2 hfirst) ?_
    cases hback with
    | refl => exact ⟨_, hfirst, .refl _⟩
    | step second rest => exact ⟨_, second, rest.trans (.step hfirst (.refl _))⟩

theorem Expands.settled {rules : List Rule} (hnames : ∀ n ∈ names, Defined rules n)
    (h : Expands (ofRules rules) names name p) : Settled rules name := by
  intro target hlead
  obtain ⟨q, hq⟩ := h.of_leadsTo hlead
  exact ⟨hnames target hq.known, hq.not_onCycle⟩

end PhraseSearch.Pattern
