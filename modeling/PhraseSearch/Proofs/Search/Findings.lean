import Mathlib.Data.Multiset.Basic
import PhraseSearch.Proofs.Search.Counterparts
import PhraseSearch.Proofs.Search.Endings

/-!
# What a search finds

No order is promised in which drafts are expanded and handed over, so what can be said of a search
is which phrases it finds and how often, how many drafts it hands over, and how many it expands.
Searches that nothing cuts short say the same, whoever runs them.

    an exhaustive run or pool finds all there is            (Run.findings_eq, Pool.findings_eq)
    where there is nothing, nothing is handed over                     (Ended.handled_eq_nil)
-/

namespace PhraseSearch

/-- What can be said of a search without regard to its order. -/
structure Findings where
  /-- the phrases found, each as often as it was found -/
  phrases : Multiset (List String)
  /-- the number of drafts handed over -/
  found : Nat
  /-- the number of drafts expanded -/
  expanded : Nat

def Run.findings (r : Run) : Findings where
  phrases := r.completed.flatMap Draft.phrases
  found := r.found
  expanded := r.expanded

def Pool.findings (p : Pool) : Findings where
  phrases := p.handled.flatMap Draft.phrases
  found := p.found
  expanded := p.taken.length

/-- All there is to be found from some drafts. -/
def Automaton.findings (a : Automaton) (drafts : List Draft) : Findings where
  phrases := ((drafts.flatMap a.searchTree).filter a.completes).flatMap Draft.phrases
  found := ((drafts.flatMap a.searchTree).filter a.completes).length
  expanded := (drafts.flatMap a.searchTree).length

theorem Automaton.findings_starts (a : Automaton) (bag : Bag) :
    a.findings (a.starts bag) = ⟨(a.completeDrafts bag).flatMap Draft.phrases,
      (a.completeDrafts bag).length, ((a.starts bag).flatMap a.searchTree).length⟩ := rfl

/-- Whether a run was not cut short. -/
def Run.Exhausted (r : Run) : Prop := r.sampled = false ∧ r.cancelled = false

/-- Whether a search of some drafts has ended, by any number of workers, and was not cut short. -/
def Pool.Exhausted (a : Automaton) (drafts : List Draft) (p : Pool) : Prop :=
  (∃ workers sample, Ended a workers drafts sample p) ∧ p.sampled = false ∧ p.cancelled = false

variable {a : Automaton} {drafts : List Draft} {p : Pool}

theorem Pool.Exhausted.handled_perm {bag : Bag} (hroots : a.RootsOpen)
    (h : p.Exhausted a (a.starts bag)) : p.handled.Perm (a.completeDrafts bag) := by
  obtain ⟨⟨workers, sample, hended⟩, hsampled, hcancelled⟩ := h
  exact hended.handled_perm hroots hsampled hcancelled

theorem Pool.findings_eq (hroots : a.RootsOpen) (h : p.Exhausted a drafts) :
    p.findings = a.findings drafts := by
  obtain ⟨⟨workers, sample, hended⟩, hsampled, hcancelled⟩ := h
  obtain ⟨htaken, hhandled⟩ := hended.perm_searchTree hroots hsampled hcancelled
  rw [findings, Automaton.findings, hended.found_eq_length, htaken.length_eq, hhandled.length_eq,
    Multiset.coe_eq_coe.2 (hhandled.flatMap_right Draft.phrases)]

theorem Run.findings_eq (hroots : a.RootsOpen) {limits : RunLimits}
    (h : (a.run drafts limits).Exhausted) :
    (a.run drafts limits).findings = a.findings drafts := by
  obtain ⟨p, hended, hcompleted, hexpanded, hsampled, hcancelled⟩ :=
    Pool.exists_ended_run hroots 1 drafts limits
  have hexhausted : p.Exhausted a drafts :=
    ⟨⟨1, _, hended⟩, hsampled.trans h.1, hcancelled.trans h.2⟩
  rw [← Pool.findings_eq hroots hexhausted, findings, found, ← hcompleted, ← hexpanded,
    Pool.findings, hended.found_eq_length, List.length_reverse,
    Multiset.coe_eq_coe.2 ((List.reverse_perm p.handled).flatMap_right Draft.phrases)]

theorem Pool.Ended.handled_eq_nil (hroots : a.RootsOpen) {workers : Nat} {sample : Option Nat}
    (h : Ended a workers drafts sample p)
    (hnone : (drafts.flatMap a.searchTree).filter a.completes = []) : p.handled = [] := by
  have hsub := h.handled_subperm hroots
  rw [hnone] at hsub
  exact List.subperm_nil.1 hsub

end PhraseSearch
