import PhraseSearch.Proofs.Search.Descent
import PhraseSearch.Proofs.Search.Endings
import PhraseSearch.Proofs.Trie.Building
import PhraseSearch.Search.Orderly

/-!
# Depth-first order

A stack on which the successors of a draft are put, and from which the last one is taken first,
holds what is left of all trees that the search has entered.  At any time the drafts that have been
handed over, those that are on their way, and the complete ones in the trees below the stack make up
one list, in this order.  That list never changes, and at the beginning it is the one that the plain
recursion gives.

    the recursion has one solution                                     (DepthFirst.eq_completions)
    what an orderly search hands over and what is left of it           (Step.inOrder)
    a run, and every orderly search, is depth first                    (completed_run_eq_depthFirst)
-/

namespace PhraseSearch

namespace Automaton

variable {a : Automaton} {d e : Draft} {dfs : Draft → List Draft}

/-! ## The recursion -/

/-- The complete drafts of the search tree below a draft. -/
def completions (a : Automaton) (d : Draft) : List Draft := (a.searchTree d).filter a.completes

theorem nextLetters_eq (d : Draft) : d.nextLetters = d.trie.jumps.filterMap d.place? := by
  rw [Draft.nextLetters]
  congr 1
  funext i
  rw [Draft.place?]
  cases d.bag.remove? i <;> rfl

theorem nextWords_eq (a : Automaton) (d : Draft) :
    a.nextWords d = if d.trie.endsWord then (a.edges d.state).filterMap (a.enter? d) else [] := rfl

theorem completes_eq_false (h : d.bag.isEmpty = false) : a.completes d = false := by
  rw [completes, h]
  rfl

theorem completes_iff_of_isEmpty (h : d.bag.isEmpty = true) :
    a.completes d = true ↔ d.trie.endsWord = true ∧ finish ∈ a.edges d.state := by
  rw [completes, h, Bool.true_and, Bool.and_eq_true, List.contains_iff_mem]

theorem completions_eq (hroots : a.RootsOpen) (d : Draft) :
    a.completions d = (if a.completes d then [d] else []) ++
      (a.successors d).reverse.flatMap a.completions := by
  rw [completions, searchTree_eq_cons hroots, List.filter_cons, List.filter_flatMap]
  split <;> rfl

/-- Below a draft with letters left stand the next words and the next letters, in reverse. -/
theorem reverse_successors (h : d.bag.isEmpty = false) :
    (a.successors d).reverse =
      (if d.trie.endsWord then (a.edges d.state).reverse.filterMap (a.enter? d) else []) ++
        d.trie.jumps.reverse.filterMap d.place? := by
  rw [successors, h, nextLetters_eq, nextWords_eq, if_neg Bool.false_ne_true, List.reverse_append,
    List.filterMap_reverse, List.filterMap_reverse]
  split <;> rfl

theorem DepthFirst.eq_successors (h : a.DepthFirst dfs) (d : Draft) :
    dfs d = (if a.completes d then [d] else []) ++ (a.successors d).reverse.flatMap dfs := by
  cases hempty : d.bag.isEmpty with
  | true =>
    rw [successors_of_isEmpty hempty, List.reverse_nil, List.flatMap_nil, List.append_nil]
    split
    · next hc =>
      obtain ⟨hends, hedge⟩ := (completes_iff_of_isEmpty hempty).1 hc
      exact h.complete hempty hends hedge
    · next hc =>
      exact h.stuck hempty fun hends => hc ((completes_iff_of_isEmpty hempty).2 hends)
  | false =>
    rw [h.branch hempty, completes_eq_false hempty, reverse_successors hempty, List.flatMap_append]
    rfl

theorem depthFirst_completions (hroots : a.RootsOpen) : a.DepthFirst a.completions where
  complete hempty hends hedge := by
    rw [completions_eq hroots, (completes_iff_of_isEmpty hempty).2 ⟨hends, hedge⟩,
      successors_of_isEmpty hempty]
    rfl
  stuck hempty hblocked := by
    rw [completions_eq hroots, if_neg fun hc => hblocked ((completes_iff_of_isEmpty hempty).1 hc),
      successors_of_isEmpty hempty]
    rfl
  branch hleft := by
    rw [completions_eq hroots, completes_eq_false hleft, reverse_successors hleft,
      List.flatMap_append]
    rfl

/-- The equations leave no choice: the rank of a draft is greater than the ranks of those that the
recursion goes on to. -/
theorem DepthFirst.eq_completions (hroots : a.RootsOpen) (h : a.DepthFirst dfs) (d : Draft) :
    dfs d = a.completions d := by
  induction hrank : d.rank using Nat.strongRecOn generalizing d with
  | _ rank ih =>
    rw [h.eq_successors, completions_eq hroots]
    congr 1
    refine List.flatMap_congr fun e he => ?_
    have hless := rank_lt_of_mem_successors hroots (List.mem_reverse.1 he)
    exact ih e.rank (hrank ▸ hless) e rfl

theorem Fits.depthFirst_eq {budget : Nat} (h : a.Fits budget d) :
    a.depthFirst budget d = (a.tree budget d).filter a.completes := by
  induction budget generalizing d with
  | zero => exact h.elim
  | succ budget ih =>
    have hbelow : (a.successors d).reverse.flatMap (a.depthFirst budget) =
        (a.successors d).reverse.flatMap fun e => (a.tree budget e).filter a.completes :=
      List.flatMap_congr fun e he => ih (h e (List.mem_reverse.1 he))
    rw [tree, List.filter_cons, List.filter_flatMap, ← hbelow, depthFirst]
    cases hempty : d.bag.isEmpty with
    | true =>
      rw [successors_of_isEmpty hempty]
      rfl
    | false =>
      rw [completes_eq_false hempty, successors, hempty, if_neg Bool.false_ne_true,
        if_neg Bool.false_ne_true, if_neg Bool.false_ne_true, List.reverse_append,
        List.flatMap_append]

/-- The recursion within a budget satisfies the equations. -/
theorem depthFirst_depthFirst (hroots : a.RootsOpen) :
    a.DepthFirst fun d => a.depthFirst (a.budgetOf 0 d) d := by
  have heq : (fun d => a.depthFirst (a.budgetOf 0 d) d) = a.completions :=
    funext fun d => (fits_budgetOf hroots 0 d).depthFirst_eq
  rw [heq]
  exact depthFirst_completions hroots

end Automaton

/-! ## The stack of an orderly search -/

namespace Pool

variable {a : Automaton} {sample : Option Nat} {drafts : List Draft} {p p' q : Pool}
  {w w' : Worker} {c c' : Consumer}

/-- The complete drafts that the caller is to be given next, in their order. -/
def upcoming (a : Automaton) (p : Pool) : List Draft :=
  p.consumer.inHand ++ p.sent ++ p.workers.flatMap Worker.unsent ++
    ((p.workers.flatMap Worker.waiting).reverse ++ p.queued).flatMap a.completions

/-- Whether the consumer has not begun to leave. -/
def Consumer.listens : Consumer → Bool
  | closing | gone => false
  | idle | received _ | holding _ | counting | finishing | filled | stopping => true

/-- What holds of every state that an orderly search comes to. -/
structure InOrder (a : Automaton) (drafts : List Draft) (p : Pool) : Prop where
  alone : ∃ w, p.workers = [w]
  /-- nothing comes before its turn -/
  handed : p.handled.reverse ++ p.consumer.inHand <+: drafts.flatMap a.completions
  /-- nothing is left out while the consumer listens -/
  all : p.consumer.listens = true →
    p.handled.reverse ++ p.upcoming a = drafts.flatMap a.completions

theorem inOrder_start (a : Automaton) (drafts : List Draft) :
    InOrder a drafts (start 1 drafts) where
  alone := ⟨.idle, rfl⟩
  handed := List.nil_prefix
  all := fun _ => rfl

/-- The draft that is taken makes room for its own completion and for its successors. -/
theorem InOrder.takeLast (hroots : a.RootsOpen) {d : Draft} {rest : List Draft}
    (looking : p.workers = [.looking]) (last : p.queued = d :: rest) (hp : InOrder a drafts p) :
    InOrder a drafts (p.takeLast a d rest) where
  alone := ⟨_, rfl⟩
  handed := hp.handed
  all hlistens := by
    rw [← hp.all hlistens]
    simp [upcoming, Pool.takeLast, looking, last, Worker.unsent, Worker.waiting,
      Automaton.completions_eq hroots d]

/-- A worker that takes nothing keeps the order of what is on its way, if somebody listens. -/
theorem WorkerStep.upcoming_eq (h : WorkerStep a p w p' w') (kept : p'.taken = p.taken)
    (hlistens : p.consumer.listens = true) :
    p'.sent ++ w'.unsent ++ (w'.waiting.reverse ++ p'.queued).flatMap a.completions =
      p.sent ++ w.unsent ++ (w.waiting.reverse ++ p.queued).flatMap a.completions := by
  cases h with
  | take => exact absurd kept (List.cons_ne_self _ _)
  | refuse deserted =>
    rw [deserted] at hlistens
    cases hlistens
  | _ => simp [Worker.unsent, Worker.waiting]

theorem WorkerStep.inOrder {left right : List Worker} (here : p.workers = left ++ w :: right)
    (h : WorkerStep a p w p' w') (kept : p'.taken = p.taken) (hp : InOrder a drafts p) :
    InOrder a drafts { p' with workers := left ++ w' :: right } := by
  obtain ⟨-, hconsumer, -, hhandled, -⟩ := h.frame
  obtain ⟨v, hv⟩ := hp.alone
  obtain ⟨rfl, rfl, rfl⟩ : left = [] ∧ w = v ∧ right = [] := by
    rw [hv] at here
    cases left with
    | nil => simpa [eq_comm] using here
    | cons u left => simp at here
  refine ⟨⟨w', rfl⟩, ?_, ?_⟩
  · show p'.handled.reverse ++ p'.consumer.inHand <+: _
    rw [hhandled, hconsumer]
    exact hp.handed
  · intro hlistens
    rw [hconsumer] at hlistens
    have hsame := h.upcoming_eq kept hlistens
    rw [← hp.all hlistens]
    simp only [upcoming, hv, hconsumer, hhandled, List.nil_append, List.flatMap_cons,
      List.flatMap_nil, List.append_nil, List.append_assoc] at hsame ⊢
    rw [hsame]

theorem ConsumerStep.inOrder (here : p.consumer = c) (h : ConsumerStep sample p c p' c')
    (hp : InOrder a drafts p) : InOrder a drafts { p' with consumer := c' } := by
  have hhanded := hp.handed
  have hall := hp.all
  rw [here] at hhanded
  rw [here, upcoming, here] at hall
  cases h with
  | @receive d rest first =>
    have hnext := hall rfl
    rw [first] at hnext
    refine ⟨hp.alone, ?_, fun _ => ?_⟩
    · rw [← hnext]
      simp [Consumer.inHand]
    · rw [← hnext]
      simp [upcoming, Consumer.inHand]
  | drop =>
    refine ⟨hp.alone, ?_, fun hlistens => absurd hlistens Bool.false_ne_true⟩
    rw [Consumer.inHand, List.append_nil]
    exact (List.prefix_append _ _).trans hhanded
  | handle =>
    refine ⟨hp.alone, ?_, fun _ => ?_⟩
    · simpa [Consumer.inHand] using hhanded
    · simpa [upcoming, Consumer.inHand] using hall rfl
  | disconnect | stop | close =>
    exact ⟨hp.alone, hhanded, fun hlistens => absurd hlistens Bool.false_ne_true⟩
  | _ => exact ⟨hp.alone, hhanded, fun _ => hall rfl⟩

theorem Step.inOrder (h : Step a sample p q) (kept : q.taken = p.taken) (hp : InOrder a drafts p) :
    InOrder a drafts q := by
  cases h with
  | worker here step => exact step.inOrder here kept hp
  | consumer here step => exact step.inOrder here hp
  | controller _ step => cases step <;> exact ⟨hp.alone, hp.handed, hp.all⟩
  | signal => exact ⟨hp.alone, hp.handed, hp.all⟩

theorem Orderly.inOrder (hroots : a.RootsOpen) (h : Orderly a sample drafts p) :
    InOrder a drafts p := by
  induction h with
  | start => exact inOrder_start a drafts
  | take _ looking last ih => exact ih.takeLast hroots looking last
  | step _ next kept ih => exact next.inOrder kept ih

/-- What an orderly search has handed over in the end is the beginning of what there is, and its
length is known. -/
theorem Ended.reverse_handled (hroots : a.RootsOpen) (h : Ended a 1 drafts sample p)
    (horder : sample = some 0 ∨ Orderly a sample drafts p) :
    p.handled.reverse <+: drafts.flatMap a.completions ∧
      (p.cancelled = false →
        p.handled.reverse = takeWanted sample (drafts.flatMap a.completions)) := by
  have hbegins : p.handled.reverse <+: drafts.flatMap a.completions := by
    cases h with
    | unbegun => exact List.nil_prefix
    | begun wanted =>
      have hin := (horder.resolve_left wanted).inOrder hroots
      exact (List.prefix_append _ _).trans hin.handed
  refine ⟨hbegins, fun hcancelled => ?_⟩
  have hlength : p.handled.reverse.length = p.found := by
    rw [List.length_reverse, h.found_eq_length]
  rcases h.sampled_cases with ⟨-, n, hn, hfound⟩ | ⟨hsampled, hless⟩
  · obtain rfl := Option.mem_def.1 hn
    rw [takeWanted, ← hfound, ← hlength]
    exact List.prefix_iff_eq_take.1 hbegins
  · have hall := (h.handled_perm hroots hsampled hcancelled).length_eq
    rw [List.filter_flatMap] at hall
    have heq : p.handled.reverse = drafts.flatMap a.completions :=
      hbegins.eq_of_length ((List.length_reverse).trans hall)
    cases hs : sample with
    | none => exact heq
    | some n =>
      have hn := hless n hs
      rw [takeWanted, ← heq, List.take_of_length_le (by omega)]

end Pool

/-! ## Single seeds -/

namespace Automaton

/-- The equations of the depth-first recursion have one solution.  With one worker, and nothing
shuffled, a search of one draft hands over the complete drafts in the order of that solution, or as
many of them as are wanted.  So do `run` and every orderly search of the pool that is not given up.
In finished tries, such as those of word lists, the jumps of a draft are the letters of its branches,
ascending. -/
theorem completed_run_eq_depthFirst (hroots : a.RootsOpen) :
    a.DepthFirst (fun d => a.depthFirst (a.budgetOf 0 d) d) ∧
    (∀ alphabet words t, Trie.ofWords alphabet words = .ok t → t.Finished) ∧
    ∀ dfs, a.DepthFirst dfs → ∀ d,
      (a.run [d] ⟨none, false⟩).completed = dfs d ∧
      (∀ n, (a.run [d] ⟨some n, false⟩).completed = (dfs d).take n) ∧
      (∀ sample p, Pool.Ended a 1 [d] sample p →
        (sample = some 0 ∨ Pool.Orderly a sample [d] p) →
          p.handled.reverse <+: dfs d ∧
            (p.cancelled = false → p.handled.reverse = takeWanted sample (dfs d))) ∧
      (d.trie.Finished → (∀ id root, a.trie? id = some root → root.Finished) →
        ∀ e, a.Descends d e → e.trie.jumps.Pairwise (· < ·) ∧
          ∀ i, i ∈ e.trie.jumps ↔ (e.trie.child? i).isSome = true) := by
  refine ⟨depthFirst_depthFirst hroots, fun _ _ _ => Trie.finished_ofWords, fun dfs hdfs d => ?_⟩
  have hall : [d].flatMap a.completions = dfs d := by
    rw [List.flatMap_singleton, hdfs.eq_completions hroots]
  have hrun : ∀ limits, (a.run [d] limits).completed = takeWanted limits.limit (dfs d) := by
    intro limits
    rw [completed_run hroots, List.filter_flatMap, ← hall]
    rfl
  refine ⟨hrun _, fun n => hrun _, fun sample p hended horder => ?_, ?_⟩
  · rw [← hall]
    exact hended.reverse_handled hroots horder
  · intro hd hfinished e he
    obtain ⟨root, path, hroot, hwalk⟩ := he.exists_walk hfinished hd
    exact hroot.jumps hwalk

/-- The trie of the words `a`, `ab` and `b`, with the letters numbered from zero. -/
def twoLetterTrie : Trie :=
  .node [] [0, 1] (.cons 0 (.node ["a"] [1] (.cons 1 (.node ["ab"] [] .nil) .nil))
    (.cons 1 (.node ["b"] [] .nil) .nil))

theorem finished_twoLetterTrie : twoLetterTrie.Finished :=
  ⟨_, .insert "b" [1] (.insert "ab" [0, 1] (.insert "a" [0] .empty)), rfl⟩

open Pool in
/-- The greater letter comes first, and where a word ends the next word comes before the letters
that would go on with it.  A search that is to hand over one draft leaves a draft in the queue. -/
theorem completed_run_eq_depthFirst_of_two_letters :
    let d : Draft := .start twoLetterTrie 2 ⟨#[1, 1], 2⟩
    ((loopOf twoLetterTrie).run [d] ⟨none, false⟩).completed.map Draft.phrases =
        [[["b", "a"]], [["a", "b"]], [["ab"]]] ∧
      ((loopOf twoLetterTrie).run [d] ⟨some 2, false⟩).completed.map Draft.phrases =
        [[["b", "a"]], [["a", "b"]]] ∧
      d.trie.jumps.Pairwise (· < ·) ∧
      ∃ p, Ended (loopOf twoLetterTrie) 1 [d] (some 1) p ∧
        Orderly (loopOf twoLetterTrie) (some 1) [d] p ∧ p.queued.length = 1 ∧
          p.handled.reverse = ((loopOf twoLetterTrie).run [d] ⟨some 1, false⟩).completed := by
  intro d
  have hwork : ∀ {p p' : Pool} {w w' : Worker}, Orderly (loopOf twoLetterTrie) (some 1) [d] p →
      p.workers = [] ++ [w] → WorkerStep (loopOf twoLetterTrie) p w p' w' → p'.taken = p.taken →
        Orderly (loopOf twoLetterTrie) (some 1) [d] { p' with workers := [] ++ [w'] } :=
    fun h here step kept => h.step (.worker here step) kept
  -- the worker takes the root, then the letter `b`, then the word after it, then its letter `a`
  have hroot := hwork .start rfl (.go rfl) rfl
  have hroot := hroot.take rfl rfl
  have hroot := hwork (hwork hroot rfl .count rfl) rfl .publish rfl
  have hroot := hwork (hwork hroot rfl .count rfl) rfl .publish rfl
  have hletter := hwork (hwork hroot rfl .finish rfl) rfl (.go rfl) rfl
  have hletter := hletter.take rfl rfl
  have hletter := hwork (hwork hletter rfl .count rfl) rfl .publish rfl
  have hword := hwork (hwork hletter rfl .finish rfl) rfl (.go rfl) rfl
  have hword := hword.take rfl rfl
  have hword := hwork (hwork hword rfl .count rfl) rfl .publish rfl
  have hlast := hwork (hwork hword rfl .finish rfl) rfl (.go rfl) rfl
  have hlast := hlast.take rfl rfl
  have hsent := hwork (hwork hlast rfl .countComplete rfl) rfl (.send nofun) rfl
  have hfilled := hwork hsent rfl .finish rfl
      |>.step (.consumer rfl (.receive rfl)) rfl
      |>.step (.consumer rfl (.hold rfl)) rfl
      |>.step (.consumer rfl .handle) rfl
      |>.step (.consumer rfl (.fill rfl (Nat.le_refl 1))) rfl
      |>.step (.consumer rfl .note) rfl
      |>.step (.consumer rfl .stop) rfl
      |>.step (.consumer rfl .close) rfl
  have hover := hwork hfilled rfl (.halt rfl) rfl
      |>.step (.controller rfl (.stopped rfl)) rfl
      |>.step (.controller rfl .leave) rfl
  have hended := Ended.begun (by decide) hover.reachable ⟨by simp, rfl, rfl⟩
  obtain ⟨hdfs, -, hall⟩ := completed_run_eq_depthFirst (a := loopOf twoLetterTrie)
    fun id root htrie => eq_of_trie?_loopOf htrie ▸ rfl
  obtain ⟨hrun, hsample, horderly, hjumps⟩ := hall _ hdfs d
  have hascending := hjumps finished_twoLetterTrie
    (fun id root htrie => eq_of_trie?_loopOf htrie ▸ finished_twoLetterTrie) d (.refl d)
  have hhanded := (horderly (some 1) _ hended (.inr hover)).2 rfl
  refine ⟨?_, ?_, hascending.1, _, hended, hover, rfl, hhanded.trans (hsample 1).symm⟩
  · rw [hrun]
    decide +kernel
  · rw [hsample]
    decide +kernel

end Automaton

end PhraseSearch
