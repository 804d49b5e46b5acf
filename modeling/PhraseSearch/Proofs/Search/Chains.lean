import PhraseSearch.Proofs.Search.Endings
import PhraseSearch.Proofs.Trie.Contents
import PhraseSearch.Search.Queue

/-!
# Every search ends

A letter is placed once, so that a chain of successors places no more letters than there are.  It
goes on to another state only where a word ends, and no word ends where one begins: between two such
steps there is a letter, and one is left after the last of them.  Loops of the automaton change
nothing in that.

Every draft has only a few successors, so the tree below it is finite.  Each expansion takes one
draft out of the trees below a queue, whatever its order, and a queue is empty when nothing is left
of them.

    letters and words along a chain                                    (countP_le_of_isChain)
    an expansion takes one draft out of the trees                      (Expands.treesSize_add_one)
    chains are short, and every queue becomes empty                    (search_ends)
-/

namespace PhraseSearch

namespace Automaton

variable {a : Automaton} {d e : Draft} {chain : List Draft}

/-! ## Steps -/

/-- A step places a letter, or it starts a word where one has ended, at a root. -/
theorem step_cases (hroots : a.RootsOpen) (h : e ∈ a.successors d) :
    0 < d.bag.total ∧
      ((e.startsWord = false ∧ e.bag.total + 1 = d.bag.total) ∨
        (e.startsWord = true ∧ e.bag.total = d.bag.total ∧ d.trie.endsWord = true ∧
          e.trie.endsWord = false)) := by
  have hpos := total_pos_of_mem_successors h
  refine ⟨hpos, ?_⟩
  rcases (mem_successors.1 h).2 with hletter | hword
  · obtain ⟨i, -, child, bag, -, hbag, rfl⟩ := mem_nextLetters.1 hletter
    have htotal := Bag.total_of_remove? hbag
    exact .inl ⟨rfl, by simp only [Draft.bag]; omega⟩
  · obtain ⟨hends, target, -, root, hroot, rfl⟩ := mem_nextWords.1 hword
    exact .inr ⟨rfl, rfl, hends, hroots target root hroot⟩

theorem length_successors_le (a : Automaton) (d : Draft) :
    (a.successors d).length ≤ d.trie.jumps.length + (a.edges d.state).length := by
  rw [successors]
  split
  · exact Nat.zero_le _
  · have hletters : d.nextLetters.length ≤ d.trie.jumps.length := List.length_filterMap_le _ _
    have hwords : (a.nextWords d).length ≤ (a.edges d.state).length := by
      rw [nextWords]
      split
      · exact List.length_filterMap_le _ _
      · exact Nat.zero_le _
    rw [List.length_append]
    omega

/-! ## Chains -/

/-- Where no word ends, one letter at least is placed before the next word is started. -/
theorem countP_le_of_isChain (hroots : a.RootsOpen)
    (h : (d :: chain).IsChain fun d e => e ∈ a.successors d) :
    chain.countP (!·.startsWord) ≤ d.bag.total ∧
      chain.countP Draft.startsWord ≤ d.bag.total - if d.trie.endsWord then 0 else 1 := by
  induction chain generalizing d with
  | nil => simp
  | cons e chain ih =>
    obtain ⟨hstep, hrest⟩ := List.isChain_cons_cons.1 h
    obtain ⟨hletters, hwords⟩ := ih hrest
    obtain ⟨hpos, ⟨hletter, htotal⟩ | ⟨hword, htotal, hends, hopen⟩⟩ := step_cases hroots hstep
    · rw [List.countP_cons_of_pos (by simp [hletter]), List.countP_cons_of_neg (by simp [hletter])]
      refine ⟨by omega, Nat.le_trans hwords ?_⟩
      split <;> split <;> omega
    · rw [List.countP_cons_of_neg (by simp [hword]), List.countP_cons_of_pos hword]
      rw [if_pos hends]
      rw [hopen, if_neg Bool.false_ne_true] at hwords
      omega

theorem isChain_startsWord (hroots : a.RootsOpen)
    (h : (d :: chain).IsChain fun d e => e ∈ a.successors d)
    (hopen : d.startsWord = true → d.trie.endsWord = false) :
    (d :: chain).IsChain fun d e => d.startsWord = true → e.startsWord = false := by
  induction chain generalizing d with
  | nil => exact .singleton d
  | cons e chain ih =>
    obtain ⟨hstep, hrest⟩ := List.isChain_cons_cons.1 h
    obtain ⟨-, ⟨hletter, -⟩ | ⟨hword, -, hends, hroot⟩⟩ := step_cases hroots hstep
    · refine List.isChain_cons_cons.2 ⟨fun _ => hletter, ih hrest fun hword => ?_⟩
      cases hletter.symm.trans hword
    · refine List.isChain_cons_cons.2 ⟨fun hstart => ?_, ih hrest fun _ => hroot⟩
      cases (hopen hstart).symm.trans hends

/-! ## Queues -/

/-- The number of drafts in the trees below a queue. -/
def treesSize (a : Automaton) (queue : List Draft) : Nat := (queue.flatMap a.searchTree).length

theorem Expands.treesSize_add_one (hroots : a.RootsOpen) {queue next : List Draft}
    (h : a.Expands queue next) : a.treesSize next + 1 = a.treesSize queue := by
  cases h with | @expand d rest taken put =>
  have hqueue := (taken.flatMap_right a.searchTree).length_eq
  have hnext := (put.flatMap_right a.searchTree).length_eq
  have hbelow := ((List.reverse_perm (a.successors d)).flatMap_right a.searchTree).length_eq
  simp only [List.flatMap_cons, List.flatMap_append, List.length_append,
    searchTree_eq_cons hroots d, List.length_cons] at hqueue hnext
  rw [treesSize, treesSize]
  omega

theorem treesSize_eq_zero_iff (hroots : a.RootsOpen) {queue : List Draft} :
    a.treesSize queue = 0 ↔ queue = [] := by
  cases queue with
  | nil => exact iff_of_true rfl rfl
  | cons d queue =>
    refine iff_of_false ?_ nofun
    rw [treesSize, List.flatMap_cons, searchTree_eq_cons hroots d]
    simp

/-- Along a run every expansion takes one draft out of the trees, as long as there is one. -/
theorem treesSize_of_run (hroots : a.RootsOpen) {queue : Nat → List Draft}
    (hrun : ∀ n, queue n ≠ [] → a.Expands (queue n) (queue (n + 1))) :
    ∀ n ≤ a.treesSize (queue 0), a.treesSize (queue n) + n = a.treesSize (queue 0) := by
  intro n
  induction n with
  | zero => exact fun _ => rfl
  | succ n ih =>
    intro hle
    have hn := ih (by omega)
    have hne : queue n ≠ [] := fun hnil => by
      rw [(treesSize_eq_zero_iff hroots).2 hnil] at hn
      omega
    have hstep := (hrun n hne).treesSize_add_one hroots
    omega

/-- No chain of successors from the beginning of a word at a root has more than `2 * T - 1` steps,
where `T` is the number of letters: at most `T` letters, and at most `T - 1` further words, of which
no two are started one after the other.  A draft has no more successors than its node has jumps and
its state has edges.  So a queue, which can be expanded until it is empty, becomes empty, after a
number of expansions that does not depend on their order, and no pool of workers takes more drafts
than that. -/
theorem search_ends (hroots : a.RootsOpen) :
    (∀ alphabet words t, Trie.ofWords alphabet words = .ok t → t.endsWord = false) ∧
    (∀ id root state bag chain, a.trie? id = some root →
      (Draft.start root state bag :: chain).IsChain (fun d e => e ∈ a.successors d) →
      chain.length ≤ 2 * bag.total - 1 ∧
        chain.countP (!·.startsWord) ≤ bag.total ∧
        chain.countP Draft.startsWord ≤ bag.total - 1 ∧
        (Draft.start root state bag :: chain).IsChain
          fun d e => d.startsWord = true → e.startsWord = false) ∧
    (∀ d, (a.successors d).length ≤ d.trie.jumps.length + (a.edges d.state).length) ∧
    (∀ queue, queue ≠ [] → ∃ next, a.Expands queue next) ∧
    ∀ starts : List Draft, ∃ expansions,
      (∀ queue : Nat → List Draft, queue 0 = starts →
        (∀ n, queue n ≠ [] → a.Expands (queue n) (queue (n + 1))) →
        queue expansions = [] ∧ ∀ n < expansions, queue n ≠ []) ∧
      ∀ sample workers p, Pool.Reachable a sample workers starts p →
        p.taken.length ≤ expansions := by
  refine ⟨fun _ _ _ => Trie.endsWord_ofWords, ?_, a.length_successors_le,
    fun _ => a.exists_expands, fun starts => ⟨a.treesSize starts, ?_, ?_⟩⟩
  · intro id root state bag chain hroot hchain
    have hopen : root.endsWord = false := hroots id root hroot
    obtain ⟨hletters, hwords⟩ := countP_le_of_isChain hroots hchain
    have hlength := List.length_eq_countP_add_countP Draft.startsWord (l := chain)
    simp only [Draft.trie, Draft.bag, hopen, Bool.false_eq_true, if_false] at hletters hwords
    refine ⟨?_, hletters, hwords, isChain_startsWord hroots hchain fun _ => hopen⟩
    have hplaced : chain.countP (fun e => decide ¬e.startsWord = true) =
        chain.countP (!·.startsWord) := List.countP_congr fun e _ => by simp
    omega
  · rintro queue rfl hrun
    have hsize := treesSize_of_run hroots hrun
    refine ⟨(treesSize_eq_zero_iff hroots).1 ?_, fun n hn hnil => ?_⟩
    · have := hsize _ (Nat.le_refl _)
      omega
    · have := hsize n (Nat.le_of_lt hn)
      rw [(treesSize_eq_zero_iff hroots).2 hnil] at this
      omega
  · intro sample workers p hp
    have htrees := (hp.balanced.trees_perm hroots).length_eq
    rw [List.length_append] at htrees
    rw [treesSize]
    omega

open Session in
/-- A chain that goes round a loop, as long as two letters allow. -/
def loopChain : List Draft :=
  let first := Draft.letter (.start oneLetterTrie 2 ⟨#[2], 2⟩) (.node ["a"] [] .nil) ⟨#[1], 1⟩
  let next := Draft.word first 2 oneLetterTrie
  [first, next, .letter next (.node ["a"] [] .nil) ⟨#[0], 0⟩]

open Session in
theorem search_ends_of_loop :
    (Draft.start oneLetterTrie 2 ⟨#[2], 2⟩ :: loopChain).IsChain
        (fun d e => e ∈ twoWordStates.successors d) ∧
      loopChain.length = 2 * 2 - 1 ∧ loopChain.length ≤ 2 * 2 - 1 ∧
      ∃ expansions, ∀ sample workers p,
        Pool.Reachable twoWordStates sample workers [.start oneLetterTrie 2 ⟨#[2], 2⟩] p →
          p.taken.length ≤ expansions := by
  have hchain : (Draft.start oneLetterTrie 2 ⟨#[2], 2⟩ :: loopChain).IsChain
      (fun d e => e ∈ twoWordStates.successors d) := by
    refine .cons_cons ?_ (.cons_cons ?_ (.cons_cons ?_ (.singleton _)))
    all_goals exact List.Mem.head _
  obtain ⟨-, hchains, -, -, hruns⟩ := search_ends rootsOpen_twoWordStates
  obtain ⟨expansions, -, htaken⟩ := hruns [.start oneLetterTrie 2 ⟨#[2], 2⟩]
  exact ⟨hchain, rfl, (hchains 2 oneLetterTrie 2 ⟨#[2], 2⟩ loopChain rfl hchain).1, expansions,
    htaken⟩

end Automaton

end PhraseSearch
