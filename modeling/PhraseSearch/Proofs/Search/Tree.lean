import Mathlib.Data.List.Nodup
import PhraseSearch.Search.DepthFirst

/-!
# Search trees

Every letter of a draft is placed once, and between two words at least one letter is placed, so a
draft is followed by at most two drafts for every letter left.  A budget that is greater than this
`rank` cuts nothing off: the search *fits* the budget.

    no chain of successors is longer than the rank                     (rank_lt_of_mem_successors)
    every search fits its budget                                       (fits_budgetOf)
    e ∈ a.tree budget d ↔ a.Descends d e, within a budget that fits    (mem_tree_iff)
    no draft stands twice in a tree                                    (nodup_tree)
-/

namespace PhraseSearch

/-- A bound on the number of drafts that follow a draft one after the other: two for every letter
left, and one less where the next step has to place a letter. -/
def Draft.rank (d : Draft) : Nat := 2 * d.bag.total - if d.trie.endsWord then 0 else 1

/-- The draft that came so many steps before a draft. -/
def Draft.back : Nat → Draft → Draft
  | 0, d => d
  | _ + 1, .start root state bag => .start root state bag
  | n + 1, .letter previous _ _ => previous.back n
  | n + 1, .word previous _ _ => previous.back n

namespace Automaton

/-- Whether no word ends at the root of a trie that a state is bound to. -/
def RootsOpen (a : Automaton) : Prop :=
  ∀ id root, a.trie? id = some root → root.endsWord = false

/-- Whether a search from one draft comes to another. -/
inductive Descends (a : Automaton) : Draft → Draft → Prop
  | refl (d : Draft) : Descends a d d
  | step {d next e : Draft} (first : next ∈ a.successors d) (rest : Descends a next e) :
      Descends a d e

/-- Whether a search from a draft ends within a budget. -/
def Fits (a : Automaton) : Nat → Draft → Prop
  | 0, _ => False
  | budget + 1, d => ∀ e ∈ a.successors d, a.Fits budget e

/-! ## Steps -/

theorem mem_successors {a : Automaton} {d e : Draft} :
    e ∈ a.successors d ↔
      d.bag.isEmpty = false ∧ (e ∈ d.nextLetters ∨ e ∈ a.nextWords d) := by
  rw [successors]
  split
  · next h => simp [h]
  · next h => simp [h, List.mem_append]

theorem total_pos_of_mem_successors {a : Automaton} {d e : Draft} (h : e ∈ a.successors d) :
    0 < d.bag.total := by
  have hempty := (mem_successors.1 h).1
  apply Nat.pos_of_ne_zero
  intro hzero
  rw [Bag.isEmpty_iff.2 hzero] at hempty
  cases hempty

theorem rank_lt_of_mem_successors {a : Automaton} (hroots : a.RootsOpen) {d e : Draft}
    (h : e ∈ a.successors d) : e.rank < d.rank := by
  have hpos := total_pos_of_mem_successors h
  rcases (mem_successors.1 h).2 with hletter | hword
  · obtain ⟨i, -, child, bag, -, hbag, rfl⟩ := mem_nextLetters.1 hletter
    have htotal := Bag.total_of_remove? hbag
    simp only [Draft.rank, Draft.bag]
    split <;> split <;> omega
  · obtain ⟨hends, target, -, root, hroot, rfl⟩ := mem_nextWords.1 hword
    have hopen := hroots target root hroot
    have hd : d.rank = 2 * d.bag.total := by rw [Draft.rank, if_pos hends]; rfl
    have he : (Draft.word d target root).rank = 2 * d.bag.total - 1 := by
      simp [Draft.rank, Draft.bag, Draft.trie, hopen]
    omega

theorem Descends.trans {a : Automaton} {d e f : Draft} (h : a.Descends d e)
    (h' : a.Descends e f) : a.Descends d f := by
  induction h with
  | refl => exact h'
  | step first _ ih => exact .step first (ih h')

theorem Descends.snoc {a : Automaton} {d e f : Draft} (h : a.Descends d e)
    (hlast : f ∈ a.successors e) : a.Descends d f :=
  h.trans (.step hlast (.refl f))

/-! ## Budgets -/

theorem fits_of_rank_lt {a : Automaton} (hroots : a.RootsOpen) {budget : Nat} {d : Draft}
    (h : d.rank < budget) : a.Fits budget d := by
  induction budget generalizing d with
  | zero => omega
  | succ budget ih =>
    intro e he
    have := rank_lt_of_mem_successors hroots he
    exact ih (by omega)

/-- Where there is no state, every step places a letter. -/
theorem fits_of_size_eq_zero {a : Automaton} (hsize : a.size = 0) {budget : Nat} {d : Draft}
    (h : d.bag.total < budget) : a.Fits budget d := by
  induction budget generalizing d with
  | zero => omega
  | succ budget ih =>
    intro e he
    have hpos := total_pos_of_mem_successors he
    rcases (mem_successors.1 he).2 with hletter | hword
    · obtain ⟨i, -, child, bag, -, hbag, rfl⟩ := mem_nextLetters.1 hletter
      have htotal := Bag.total_of_remove? hbag
      refine ih ?_
      simp only [Draft.bag]
      omega
    · obtain ⟨-, target, htarget, -⟩ := mem_nextWords.1 hword
      have hnone : a.states[d.state]? = none := by
        rw [size] at hsize
        exact Array.getElem?_eq_none (by omega)
      simp [edges, hnone] at htarget

theorem fits_budgetOf {a : Automaton} (hroots : a.RootsOpen) (limit : Nat) (d : Draft) :
    a.Fits (a.budgetOf limit d) d := by
  rcases Nat.eq_zero_or_pos a.size with hsize | hsize
  · refine fits_of_size_eq_zero hsize ?_
    rw [budgetOf, hsize]
    omega
  · refine fits_of_rank_lt hroots ?_
    have hmul : (d.bag.total + limit + 1) * 2 ≤ a.budgetOf limit d :=
      Nat.mul_le_mul (Nat.le_refl _) (by omega)
    rw [Draft.rank]
    omega

theorem Fits.tree_eq {a : Automaton} {budget more : Nat} {d : Draft} (h : a.Fits budget d)
    (hle : budget ≤ more) : a.tree more d = a.tree budget d := by
  induction budget generalizing more d with
  | zero => exact h.elim
  | succ budget ih =>
    obtain ⟨more, rfl⟩ : ∃ m, more = m + 1 := ⟨more - 1, by omega⟩
    rw [tree, tree]
    congr 1
    have hmap : (a.successors d).reverse.map (a.tree more) =
        (a.successors d).reverse.map (a.tree budget) :=
      List.map_congr_left fun e he => ih (h e (List.mem_reverse.1 he)) (by omega)
    rw [List.flatMap_def, List.flatMap_def, hmap]

/-! ## Trees -/

theorem Fits.mem_tree_iff {a : Automaton} {budget : Nat} {d e : Draft} (h : a.Fits budget d) :
    e ∈ a.tree budget d ↔ a.Descends d e := by
  induction budget generalizing d with
  | zero => exact h.elim
  | succ budget ih =>
    rw [tree, List.mem_cons, List.mem_flatMap]
    constructor
    · rintro (rfl | ⟨next, hnext, he⟩)
      · exact .refl _
      · have hnext := List.mem_reverse.1 hnext
        exact .step hnext ((ih (h next hnext)).1 he)
    · intro hdesc
      cases hdesc with
      | refl => exact .inl rfl
      | step first rest =>
        exact .inr ⟨_, List.mem_reverse.2 first, (ih (h _ first)).2 rest⟩

theorem depth_of_mem_successors {a : Automaton} {d e : Draft} (h : e ∈ a.successors d) :
    e.depth = d.depth + 1 := by
  rcases (mem_successors.1 h).2 with hletter | hword
  · obtain ⟨i, -, child, bag, -, -, rfl⟩ := mem_nextLetters.1 hletter
    rfl
  · obtain ⟨-, target, -, root, -, rfl⟩ := mem_nextWords.1 hword
    rfl

theorem back_of_mem_successors {a : Automaton} {d e : Draft} (h : e ∈ a.successors d) :
    e.back 1 = d := by
  rcases (mem_successors.1 h).2 with hletter | hword
  · obtain ⟨i, -, child, bag, -, -, rfl⟩ := mem_nextLetters.1 hletter
    rfl
  · obtain ⟨-, target, -, root, -, rfl⟩ := mem_nextWords.1 hword
    rfl

theorem back_succ (n : Nat) (d : Draft) : d.back (n + 1) = (d.back n).back 1 := by
  induction n generalizing d with
  | zero => rfl
  | succ n ih =>
    cases d with
    | start => rfl
    | letter previous _ _ => exact ih previous
    | word previous _ _ => exact ih previous

/-- Where a search comes to, its origin lies as many steps back as the depths differ. -/
theorem Descends.back_eq {a : Automaton} {d e : Draft} (h : a.Descends d e) :
    d.depth ≤ e.depth ∧ e.back (e.depth - d.depth) = d := by
  induction h with
  | refl d => exact ⟨Nat.le_refl _, by rw [Nat.sub_self]; rfl⟩
  | @step d next e first _ ih =>
    obtain ⟨hle, heq⟩ := ih
    have hdepth := depth_of_mem_successors first
    have hsub : e.depth - d.depth = (e.depth - next.depth) + 1 := by omega
    refine ⟨by omega, ?_⟩
    rw [hsub, back_succ, heq, back_of_mem_successors first]

/-- The trees below drafts of one depth have nothing in common. -/
theorem nodup_flatMap_tree {a : Automaton} {budget : Nat} {drafts : List Draft} (depth : Nat)
    (hfits : ∀ d ∈ drafts, a.Fits budget d) (hdepth : ∀ d ∈ drafts, d.depth = depth)
    (hnodup : drafts.Nodup) (htree : ∀ d ∈ drafts, (a.tree budget d).Nodup) :
    (drafts.flatMap (a.tree budget)).Nodup := by
  refine List.nodup_flatMap.2 ⟨htree, ?_⟩
  refine (List.pairwise_iff_forall_sublist.2 fun {d e} hsub => ?_)
  have hd : d ∈ drafts := hsub.subset (by simp)
  have he : e ∈ drafts := hsub.subset (by simp)
  have hne : d ≠ e := List.pairwise_iff_forall_sublist.1 hnodup hsub
  intro x hxd hxe
  have hback := (((hfits d hd).mem_tree_iff).1 hxd).back_eq.2
  have hback' := (((hfits e he).mem_tree_iff).1 hxe).back_eq.2
  rw [hdepth d hd] at hback
  rw [hdepth e he] at hback'
  exact hne (hback.symm.trans hback')

theorem Fits.nodup_tree {a : Automaton} {budget : Nat} {d : Draft} (h : a.Fits budget d)
    (hnodup : ∀ e, a.Descends d e → (a.successors e).Nodup) : (a.tree budget d).Nodup := by
  induction budget generalizing d with
  | zero => exact h.elim
  | succ budget ih =>
    rw [tree, List.nodup_cons]
    constructor
    · intro hmem
      obtain ⟨e, he, hd⟩ := List.mem_flatMap.1 hmem
      have he := List.mem_reverse.1 he
      have hle := (((h e he).mem_tree_iff).1 hd).back_eq.1
      have hdepth := depth_of_mem_successors he
      omega
    · refine nodup_flatMap_tree (d.depth + 1) ?_ ?_ ?_ ?_
      · exact fun e he => h e (List.mem_reverse.1 he)
      · exact fun e he => depth_of_mem_successors (List.mem_reverse.1 he)
      · exact List.nodup_reverse.2 (hnodup d (.refl d))
      · intro e he
        have he := List.mem_reverse.1 he
        exact ih (h e he) fun f hf => hnodup f (.step he hf)

end Automaton

end PhraseSearch
