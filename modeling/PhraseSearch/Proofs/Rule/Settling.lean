import Mathlib.Data.Fintype.Card
import Mathlib.Data.Set.Finite.Basic
import PhraseSearch.Rule.References

/-!
# Settled names

There are finitely many names that rules have, so if no cycle can be reached, following references
comes to an end: what holds of a settled name whenever it holds of all names that it refers to
holds of every settled name.

    settled names may be treated after those that they refer to        (Settled.induction)
    all names are settled iff nothing undefined is mentioned and there is no cycle
                                                                       (forall_settled_iff)
-/

namespace PhraseSearch.Rule

variable {rules : List Rule} {name target : String}

/-! ## Names -/

theorem Refers.defined (h : Refers rules name target) : Defined rules name := by
  obtain ⟨elements, halternative, -⟩ := h
  obtain ⟨r, hr, -⟩ := List.mem_flatMap.1 halternative
  obtain ⟨hr, hname⟩ := List.mem_filter.1 hr
  exact ⟨r, hr, of_decide_eq_true hname⟩

theorem not_settled_iff : ¬ Settled rules name ↔
    ∃ target, LeadsTo rules name target ∧ (¬ Defined rules target ∨ OnCycle rules target) := by
  simp only [Settled, not_forall, exists_prop, not_and_or, not_not]

theorem forall_settled_iff : (∀ name, Defined rules name → Settled rules name) ↔
    (∀ name target, Refers rules name target → Defined rules target) ∧
      ∀ name, ¬ OnCycle rules name := by
  constructor
  · intro h
    refine ⟨fun name target hrefers => ?_, fun name hcycle => ?_⟩
    · exact (h name hrefers.defined target (.step hrefers (.refl target))).1
    · obtain ⟨next, hrefers, hback⟩ := hcycle
      exact (h name hrefers.defined name (.refl name)).2 ⟨next, hrefers, hback⟩
  · rintro ⟨hdefined, hcycle⟩ name hname target hlead
    refine ⟨?_, hcycle target⟩
    induction hlead with
    | refl => exact hname
    | step first _ ih => exact ih (hdefined _ _ first)

/-! ## Induction -/

/-- Whether at least one reference leads from the second name to the first. -/
def Below (rules : List Rule) (target name : {n // Settled rules n}) : Prop :=
  ∃ next, Refers rules name next ∧ LeadsTo rules next target

theorem wellFounded_below (rules : List Rule) : WellFounded (Below rules) := by
  have hfinite : Finite {n // Settled rules n} := by
    refine Set.Finite.subset (List.finite_toSet (rules.map Rule.name)) fun n hn => ?_
    obtain ⟨⟨r, hr, hname⟩, -⟩ := hn n (.refl n)
    exact List.mem_map.2 ⟨r, hr, hname⟩
  have htrans : IsTrans _ (Below rules) := by
    refine ⟨fun a b c hab hbc => ?_⟩
    obtain ⟨next, hfirst, hrest⟩ := hab
    obtain ⟨next', hfirst', hrest'⟩ := hbc
    exact ⟨next', hfirst', hrest'.trans (.step hfirst hrest)⟩
  have hirrefl : Std.Irrefl (Below rules) := ⟨fun a ha => (a.2 a (.refl _)).2 ha⟩
  exact Finite.wellFounded_of_trans_of_irrefl (Below rules)

/-- What holds of a settled name as soon as it holds of all names that it refers to. -/
theorem Settled.induction {P : String → Prop} (h : Settled rules name)
    (step : ∀ name, Settled rules name → (∀ target, Refers rules name target → P target) → P name) :
    P name := by
  refine (wellFounded_below rules).induction (C := fun n => P n.1) ⟨name, h⟩ fun a ih => ?_
  refine step a.1 a.2 fun target hrefers => ?_
  exact ih ⟨target, a.2.of_refers hrefers⟩ ⟨target, hrefers, .refl target⟩

end PhraseSearch.Rule
