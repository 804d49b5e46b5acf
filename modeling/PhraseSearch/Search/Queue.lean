import PhraseSearch.Search.Successors

/-!
# Queues

A search in any order, seen as the queue of the drafts that wait.  An expansion takes a draft from
anywhere in the queue and puts its successors anywhere.

    a draft in the queue may always be expanded                        (exists_expands)
-/

namespace PhraseSearch.Automaton

/-- Whether an expansion turns one queue into another. -/
inductive Expands (a : Automaton) (queue next : List Draft) : Prop
  | expand {d : Draft} {rest : List Draft} (taken : queue.Perm (d :: rest))
      (put : next.Perm (a.successors d ++ rest))

theorem exists_expands (a : Automaton) {queue : List Draft} (h : queue ≠ []) :
    ∃ next, a.Expands queue next := by
  obtain ⟨d, rest, rfl⟩ := List.exists_cons_of_ne_nil h
  exact ⟨_, .expand (.refl _) (.refl _)⟩

end PhraseSearch.Automaton
