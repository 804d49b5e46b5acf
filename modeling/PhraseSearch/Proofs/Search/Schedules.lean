import PhraseSearch.Proofs.Search.Exploration
import PhraseSearch.Search.Schedule

/-!
# Schedules of a search

Whatever order a search is done in, the drafts that have been expanded and the trees below those
that wait make up the search trees of its beginning; a step moves a draft from the trees to the
expanded ones.  A search that is exhausted has nothing left that waits, so it has expanded every
draft of the trees once and has handed over the complete ones.

    a step keeps the balance of waiting and expanded drafts            (Step.balanced)
    two exhausted searches have done the same work                     (handled_perm_of_exhausted)
-/

namespace PhraseSearch

/-! ## Search trees, unfolded -/

/-- The budget of a search tree hides nothing: below a draft stand the trees of its successors. -/
theorem Automaton.searchTree_eq_cons {a : Automaton} (hroots : a.RootsOpen) (d : Draft) :
    a.searchTree d = d :: (a.successors d).reverse.flatMap a.searchTree := by
  have hfits := fits_budgetOf hroots 0 d
  obtain ⟨budget, hbudget⟩ : ∃ b, a.budgetOf 0 d = b + 1 := by
    cases hb : a.budgetOf 0 d with
    | zero => rw [hb] at hfits; exact hfits.elim
    | succ b => exact ⟨b, rfl⟩
  rw [hbudget] at hfits
  rw [searchTree, hbudget, tree]
  congr 1
  -- both budgets fit, so both trees are the one of the greater budget
  have hmap : (a.successors d).reverse.map (a.tree budget) =
      (a.successors d).reverse.map a.searchTree := by
    refine List.map_congr_left fun e he => ?_
    have hbelow := hfits e (List.mem_reverse.1 he)
    have hown := fits_budgetOf hroots 0 e
    rcases Nat.le_total budget (a.budgetOf 0 e) with hle | hle
    · exact (hbelow.tree_eq hle).symm
    · exact hown.tree_eq hle
  rw [List.flatMap_def, List.flatMap_def, hmap]

namespace Session

variable {a : Automaton} {sample : Option Nat} {starts : List Draft} {s t : Session}

/-! ## The balance of a search -/

/-- What holds of every state that a search comes to from some drafts. -/
structure Balanced (a : Automaton) (starts : List Draft) (s : Session) : Prop where
  /-- what has been expanded and what waits make up the search trees -/
  drafts : (s.expanded ++ s.waiting.flatMap a.searchTree).Perm (starts.flatMap a.searchTree)
  /-- every complete draft that has been expanded is under way or has been handled -/
  emitted : s.emitted.Perm (s.expanded.filter a.completes)
  /-- every draft under way or handled has been counted once -/
  emissions : s.emissions = s.emitted.length

theorem balanced_start (a : Automaton) (starts : List Draft) :
    Balanced a starts (start starts) where
  drafts := by simp [start]
  emitted := by simp [start, Session.emitted]
  emissions := rfl

open scoped List in
/-- Expanding a waiting draft moves it out of the trees, which its successors' trees stay in. -/
theorem perm_expand (hroots : a.RootsOpen) {expanded before after next : List Draft} {d : Draft}
    (order : next.Perm (a.successors d)) :
    (d :: expanded ++ (next ++ before ++ after).flatMap a.searchTree).Perm
      (expanded ++ (before ++ d :: after).flatMap a.searchTree) := by
  have hnext : (next.flatMap a.searchTree).Perm
      ((a.successors d).reverse.flatMap a.searchTree) :=
    (order.trans (List.reverse_perm _).symm).flatMap_right _
  have htree : (d :: next.flatMap a.searchTree).Perm (a.searchTree d) := by
    rw [Automaton.searchTree_eq_cons hroots d]
    exact hnext.cons d
  simp only [List.flatMap_append, List.flatMap_cons, List.cons_append, List.append_assoc]
  calc d :: (expanded ++ (next.flatMap a.searchTree ++ (before.flatMap a.searchTree ++
          after.flatMap a.searchTree)))
    _ ~ expanded ++ ((d :: next.flatMap a.searchTree) ++ (before.flatMap a.searchTree ++
          after.flatMap a.searchTree)) := List.perm_middle.symm
    _ ~ expanded ++ (a.searchTree d ++ (before.flatMap a.searchTree ++
          after.flatMap a.searchTree)) := (htree.append_right _).append_left _
    _ ~ expanded ++ (before.flatMap a.searchTree ++ (a.searchTree d ++
          after.flatMap a.searchTree)) := (List.perm_append_comm_assoc _ _ _).append_left _

theorem Step.balanced (hroots : a.RootsOpen) (h : Step a sample s t)
    (hs : Balanced a starts s) : Balanced a starts t := by
  cases h with
  | @expand before after next d running taken order =>
    have hdrafts := hs.drafts
    rw [taken] at hdrafts
    refine ⟨(perm_expand hroots order).trans hdrafts, ?_, ?_⟩
    · by_cases hc : a.completes d = true
      · simp only [hc, if_true, Session.emitted, List.filter_cons_of_pos hc, List.cons_append]
        exact hs.emitted.cons d
      · simp only [hc, Session.emitted, List.filter_cons_of_neg hc]
        exact hs.emitted
    · have hcount := hs.emissions
      by_cases hc : a.completes d = true
      · simp only [hc, if_true, Session.emitted, List.cons_append, List.length_cons, hcount]
      · simp only [hc, Session.emitted]
        exact hcount
  | @take before after d running free taken =>
    have hmoved : (before ++ after ++ [d] ++ s.handled).Perm s.emitted := by
      simp only [Session.emitted, free, taken, Option.toList_none, List.append_nil]
      refine List.Perm.append_right _ ?_
      rw [List.append_assoc]
      exact List.Perm.append_left _ (List.perm_append_singleton d after)
    exact ⟨hs.drafts, hmoved.trans hs.emitted, hs.emissions.trans hmoved.length_eq.symm⟩
  | @handle d held =>
    have hmoved : (s.sent ++ [] ++ d :: s.handled) = s.emitted := by
      simp [Session.emitted, held]
    refine ⟨hs.drafts, ?_, ?_⟩
    · exact (List.Perm.of_eq hmoved).trans hs.emitted
    · exact hs.emissions.trans (congrArg List.length hmoved).symm
  | cancel running => exact ⟨hs.drafts, hs.emitted, hs.emissions⟩

theorem Schedule.balanced (hroots : a.RootsOpen) (h : Schedule a sample s t)
    (hs : Balanced a starts s) : Balanced a starts t := by
  induction h with
  | done => exact hs
  | step first _ ih => exact ih (first.balanced hroots hs)

/-! ## Exhausted searches -/

theorem Exhausted.nothing_left (h : s.Exhausted) :
    s.waiting = [] ∧ s.sent = [] ∧ s.inHand = none := by
  obtain ⟨⟨hhand, hstopped | ⟨hwaiting, hsent⟩⟩, hcancelled⟩ := h
  · rcases hstopped with hgiven | ⟨n, hn, -⟩
    · rw [hcancelled] at hgiven
      cases hgiven
    · cases hn
  · exact ⟨hwaiting, hsent, hhand⟩

theorem Balanced.expanded_perm (h : Balanced a starts s) (hs : s.Exhausted) :
    s.expanded.Perm (starts.flatMap a.searchTree) := by
  have hdrafts := h.drafts
  rw [hs.nothing_left.1] at hdrafts
  simpa using hdrafts

theorem Balanced.handled_perm (h : Balanced a starts s) (hs : s.Exhausted) :
    s.handled.Perm ((starts.flatMap a.searchTree).filter a.completes) := by
  obtain ⟨-, hsent, hhand⟩ := hs.nothing_left
  have hemitted := h.emitted
  simp only [Session.emitted, hsent, hhand, Option.toList_none, List.nil_append] at hemitted
  exact hemitted.trans ((h.expanded_perm hs).filter _)

theorem Balanced.emissions_eq_found (h : Balanced a starts s) (hs : s.Exhausted) :
    s.emissions = s.found := by
  obtain ⟨-, hsent, hhand⟩ := hs.nothing_left
  rw [h.emissions, found]
  simp [Session.emitted, hsent, hhand]

/-- The runs of all schedules that exhaust a search, the one of `Automaton.run` among them, do the
same: they expand every draft of the search trees once, and hand over the complete ones. -/
theorem handled_perm_of_exhausted (hroots : a.RootsOpen)
    (hs : Schedule a none (start starts) s) (ht : Schedule a none (start starts) t)
    (hsover : s.Exhausted) (htover : t.Exhausted) :
    s.handled.Perm t.handled ∧ s.expanded.length = t.expanded.length ∧
      s.emissions = t.emissions ∧ s.emissions = s.found ∧
      s.expanded.Perm (starts.flatMap a.searchTree) ∧
      (∀ d, a.searchTree d = d :: (a.successors d).reverse.flatMap a.searchTree) ∧
      s.handled.Perm (a.run starts ⟨none, false⟩).completed ∧
      s.expanded.length = (a.run starts ⟨none, false⟩).expanded := by
  have hsb := hs.balanced hroots (balanced_start a starts)
  have htb := ht.balanced hroots (balanced_start a starts)
  have hhandled := (hsb.handled_perm hsover).trans (htb.handled_perm htover).symm
  have hexpanded := (hsb.expanded_perm hsover).trans (htb.expanded_perm htover).symm
  refine ⟨hhandled, hexpanded.length_eq, ?_, hsb.emissions_eq_found hsover,
    hsb.expanded_perm hsover, Automaton.searchTree_eq_cons hroots, ?_, ?_⟩
  · rw [hsb.emissions_eq_found hsover, htb.emissions_eq_found htover]
    exact hhandled.length_eq
  · rw [Automaton.completed_run hroots]
    exact hsb.handled_perm hsover
  · rw [Automaton.expanded_run hroots starts rfl]
    exact (hsb.expanded_perm hsover).length_eq

/-! ## Two orders -/

/-- A trie of the word `a`, whose only letter has the index zero. -/
def oneLetterTrie : Trie := .node [] [0] (.cons 0 (.node ["a"] [] .nil) .nil)

/-- An automaton with two word states, the first of which has an edge to itself. -/
def twoWordStates : Automaton :=
  ⟨#[⟨.start, [2, 3]⟩, ⟨.finish, []⟩, ⟨.word "n" (some oneLetterTrie), [1, 2]⟩,
    ⟨.word "m" (some oneLetterTrie), [1]⟩]⟩

theorem rootsOpen_twoWordStates : twoWordStates.RootsOpen := by
  intro id root hroot
  match id with
  | 0 => cases hroot
  | 1 => cases hroot
  | 2 => cases hroot; rfl
  | 3 => cases hroot; rfl
  | id + 4 => cases hroot

/-- The draft at the root of one of the word states. -/
def firstDraft (state : Nat) : Draft := .start oneLetterTrie state ⟨#[1], 1⟩

/-- The draft that has placed the letter. -/
def lastDraft (state : Nat) : Draft := .letter (firstDraft state) (.node ["a"] [] .nil) ⟨#[0], 0⟩

/-- One search goes to the end of the first tree before it begins the second and keeps what it has
sent for the end, the other one turns the trees around and hands over each draft at once. -/
theorem handled_perm_of_two_orders :
    ∃ s t : Session,
      Schedule twoWordStates none (start [firstDraft 2, firstDraft 3]) s ∧
      Schedule twoWordStates none (start [firstDraft 2, firstDraft 3]) t ∧
      s.Exhausted ∧ t.Exhausted ∧
      s.handled.map Draft.state = [3, 2] ∧ t.handled.map Draft.state = [2, 3] ∧
      s.handled.Perm t.handled ∧ s.expanded.length = t.expanded.length := by
  have running : ∀ {s : Session}, s.cancelled = false → ¬ s.Stopped none := by
    rintro s hs (hgiven | ⟨n, hn, -⟩)
    · rw [hs] at hgiven
      cases hgiven
    · cases hn
  let s : Session := ⟨[], [lastDraft 3, firstDraft 3, lastDraft 2, firstDraft 2], [], 2, none,
    [lastDraft 3, lastDraft 2], false⟩
  let t : Session := ⟨[], [lastDraft 2, firstDraft 2, lastDraft 3, firstDraft 3], [], 2, none,
    [lastDraft 2, lastDraft 3], false⟩
  have expand : ∀ (before after done sent handled : List Draft) (d : Draft) (n : Nat),
      Step twoWordStates none ⟨before ++ d :: after, done, sent, n, none, handled, false⟩
        ⟨twoWordStates.successors d ++ before ++ after, d :: done,
          if twoWordStates.completes d then d :: sent else sent,
          if twoWordStates.completes d then n + 1 else n, none, handled, false⟩ :=
    fun before after _ _ _ d _ => @Step.expand _ _ _ before after _ d (running rfl) rfl (.refl _)
  have take : ∀ (before after waiting done handled : List Draft) (d : Draft) (n : Nat),
      Step twoWordStates none ⟨waiting, done, before ++ d :: after, n, none, handled, false⟩
        ⟨waiting, done, before ++ after, n, some d, handled, false⟩ :=
    fun before after _ _ _ d _ => @Step.take _ _ _ before after d (running rfl) rfl rfl
  have hs : Schedule twoWordStates none (start [firstDraft 2, firstDraft 3]) s :=
    .step (expand [] [firstDraft 3] _ _ _ (firstDraft 2) _) <|
    .step (expand [] [firstDraft 3] _ _ _ (lastDraft 2) _) <|
    .step (expand [] [] _ _ _ (firstDraft 3) _) <|
    .step (expand [] [] _ _ _ (lastDraft 3) _) <|
    .step (take [lastDraft 3] [] _ _ _ (lastDraft 2) _) <|
    .step (.handle rfl) <|
    .step (take [] [] _ _ _ (lastDraft 3) _) <|
    .step (.handle rfl) (.done _)
  have ht : Schedule twoWordStates none (start [firstDraft 2, firstDraft 3]) t :=
    .step (expand [firstDraft 2] [] _ _ _ (firstDraft 3) _) <|
    .step (expand [] [firstDraft 2] _ _ _ (lastDraft 3) _) <|
    .step (take [] [] _ _ _ (lastDraft 3) _) <|
    .step (.handle rfl) <|
    .step (expand [] [] _ _ _ (firstDraft 2) _) <|
    .step (expand [] [] _ _ _ (lastDraft 2) _) <|
    .step (take [] [] _ _ _ (lastDraft 2) _) <|
    .step (.handle rfl) (.done _)
  have hsover : s.Exhausted := ⟨⟨rfl, .inr ⟨rfl, rfl⟩⟩, rfl⟩
  have htover : t.Exhausted := ⟨⟨rfl, .inr ⟨rfl, rfl⟩⟩, rfl⟩
  obtain ⟨hhandled, hexpanded, -⟩ :=
    handled_perm_of_exhausted rootsOpen_twoWordStates hs ht hsover htover
  exact ⟨s, t, hs, ht, hsover, htover, rfl, rfl, hhandled, hexpanded⟩

end Session

end PhraseSearch
