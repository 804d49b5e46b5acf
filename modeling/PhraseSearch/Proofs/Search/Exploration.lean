import PhraseSearch.Proofs.Search.Tree

/-!
# Exploring a search tree

A run takes drafts from a stack until it is empty.  What it hands over is the list of all complete
drafts of the search trees, in the order of the trees, or as much of its beginning as is wanted.

    handed = complete drafts of the stack's trees, in order            (handed_explore)
    (a.run starts limits).completed, without limits                    (completed_run)
-/

namespace PhraseSearch

/-- The first so many values of a list, or all of them. -/
def takeWanted {α : Type} : Option Nat → List α → List α
  | none, l => l
  | some n, l => l.take n

namespace Automaton

/-! ## Stacks -/

/-- All drafts of the search tree below a draft. -/
def searchTree (a : Automaton) (d : Draft) : List Draft := a.tree (a.budgetOf 0 d) d

/-- All drafts of the trees of a stack. -/
def stackTree (a : Automaton) (stack : List (Nat × Draft)) : List Draft :=
  stack.flatMap fun (budget, d) => a.tree budget d

theorem pushAll_eq (budget : Nat) (drafts : List Draft) (stack : List (Nat × Draft)) :
    pushAll budget drafts stack = drafts.reverse.map ((budget, ·)) ++ stack := by
  induction drafts generalizing stack with
  | nil => rfl
  | cons d drafts ih =>
    have hstep : pushAll budget (d :: drafts) stack =
        pushAll budget drafts ((budget, d) :: stack) := rfl
    rw [hstep, ih]
    simp

theorem stackTree_cons (a : Automaton) (budget : Nat) (d : Draft) (stack : List (Nat × Draft)) :
    a.stackTree ((budget + 1, d) :: stack) =
      d :: a.stackTree (pushAll budget (a.successors d) stack) := by
  have hpushed : a.stackTree (pushAll budget (a.successors d) stack) =
      (a.successors d).reverse.flatMap (a.tree budget) ++ a.stackTree stack := by
    rw [stackTree, pushAll_eq, List.flatMap_append, List.flatMap_map]
    rfl
  rw [hpushed]
  rfl

theorem fits_pushAll {a : Automaton} {budget : Nat} {d : Draft} {stack : List (Nat × Draft)}
    (hfits : ∀ x ∈ (budget + 1, d) :: stack, a.Fits x.1 x.2) :
    ∀ x ∈ pushAll budget (a.successors d) stack, a.Fits x.1 x.2 := by
  intro x hx
  rw [pushAll_eq, List.mem_append, List.mem_map] at hx
  rcases hx with ⟨e, he, rfl⟩ | hx
  · exact hfits (budget + 1, d) (by simp) e (List.mem_reverse.1 he)
  · exact hfits x (List.mem_cons_of_mem _ hx)

theorem handed_explore {a : Automaton} {stack : List (Nat × Draft)} {p : Progress}
    (hfits : ∀ x ∈ stack, a.Fits x.1 x.2) :
    (a.explore stack p).handed =
      (takeWanted p.wanted ((a.stackTree stack).filter a.completes)).reverse ++ p.handed := by
  fun_induction a.explore stack p with
  | case1 p =>
    cases hw : p.wanted <;> simp [stackTree, takeWanted]
  | case2 p d stack ih => exact (hfits (0, d) (by simp)).elim
  | case3 p budget d stack hdone => simp [hdone, takeWanted]
  | case4 p budget d stack hmore ih =>
    rw [ih (fits_pushAll hfits), stackTree_cons, Progress.step]
    by_cases hc : a.completes d = true
    · rw [if_pos hc, List.filter_cons_of_pos hc]
      cases hw : p.wanted with
      | none => simp [takeWanted]
      | some n =>
        obtain ⟨m, rfl⟩ : ∃ m, n = m + 1 :=
          ⟨n - 1, by have : n ≠ 0 := fun h => hmore (by rw [hw, h]); omega⟩
        simp [takeWanted]
    · rw [if_neg hc, List.filter_cons_of_neg hc]

theorem expanded_explore {a : Automaton} {stack : List (Nat × Draft)} {p : Progress}
    (hwanted : p.wanted = none) (hfits : ∀ x ∈ stack, a.Fits x.1 x.2) :
    (a.explore stack p).expanded = p.expanded + (a.stackTree stack).length := by
  fun_induction a.explore stack p with
  | case1 p => simp [stackTree]
  | case2 p d stack ih => exact (hfits (0, d) (by simp)).elim
  | case3 p budget d stack hdone => rw [hwanted] at hdone; cases hdone
  | case4 p budget d stack hmore ih =>
    have hstep : (p.step a d).wanted = none ∧ (p.step a d).expanded = p.expanded + 1 := by
      rw [Progress.step]
      split <;> simp [hwanted]
    rw [ih hstep.1 (fits_pushAll hfits), stackTree_cons, hstep.2, List.length_cons]
    omega

/-! ## Runs -/

theorem searchTree_eq {a : Automaton} (hroots : a.RootsOpen) (limit : Nat) (d : Draft) :
    a.tree (a.budgetOf limit d) d = a.searchTree d := by
  refine (fits_budgetOf hroots 0 d).tree_eq ?_
  exact Nat.mul_le_mul (by omega) (Nat.le_refl _)

theorem stackTree_starts {a : Automaton} (hroots : a.RootsOpen) (limit : Nat)
    (starts : List Draft) :
    a.stackTree (starts.map fun d => (a.budgetOf limit d, d)) = starts.flatMap a.searchTree := by
  rw [stackTree, List.flatMap_map]
  congr 1
  funext d
  exact searchTree_eq hroots limit d

theorem completed_run {a : Automaton} (hroots : a.RootsOpen) (starts : List Draft)
    (limits : RunLimits) :
    (a.run starts limits).completed =
      takeWanted limits.limit ((starts.flatMap a.searchTree).filter a.completes) := by
  have hfits : ∀ x ∈ starts.map fun d => (a.budgetOf (limits.limit.getD 0) d, d),
      a.Fits x.1 x.2 := by
    intro x hx
    obtain ⟨d, -, rfl⟩ := List.mem_map.1 hx
    exact fits_budgetOf hroots _ d
  have hhanded := handed_explore (p := .start limits.limit) hfits
  rw [stackTree_starts hroots] at hhanded
  show (a.explore _ (.start limits.limit)).handed.reverse = _
  rw [hhanded]
  simp [Progress.start]

theorem expanded_run {a : Automaton} (hroots : a.RootsOpen) (starts : List Draft)
    {limits : RunLimits} (hlimit : limits.limit = none) :
    (a.run starts limits).expanded = (starts.flatMap a.searchTree).length := by
  have hfits : ∀ x ∈ starts.map fun d => (a.budgetOf (limits.limit.getD 0) d, d),
      a.Fits x.1 x.2 := by
    intro x hx
    obtain ⟨d, -, rfl⟩ := List.mem_map.1 hx
    exact fits_budgetOf hroots _ d
  have hexpanded := expanded_explore (p := .start limits.limit) hlimit hfits
  rw [stackTree_starts hroots] at hexpanded
  simpa [run, Progress.start] using hexpanded

theorem mem_searchTree_iff {a : Automaton} (hroots : a.RootsOpen) {d e : Draft} :
    e ∈ a.searchTree d ↔ a.Descends d e :=
  (fits_budgetOf hroots 0 d).mem_tree_iff

end Automaton

end PhraseSearch
