import PhraseSearch.Search.Pool

/-!
# Orderly searches

With a single worker there is one queue, and nobody takes a draft out of turn.  In an *orderly*
search the worker takes the draft that was put into the queue last, and it puts the successors of a
draft into the queue in their order.

    an orderly search is one of the searches of a pool                 (Orderly.reachable)
-/

namespace PhraseSearch.Pool

/-- What the only worker of an orderly search does when it takes a draft. -/
def takeLast (a : Automaton) (p : Pool) (d : Draft) (rest : List Draft) : Pool :=
  { p with
    queued := rest
    taken := d :: p.taken
    workers := [.expanding d (a.successors d) (a.completes d)] }

/-- The states that an orderly search comes to. -/
inductive Orderly (a : Automaton) (sample : Option Nat) (drafts : List Draft) : Pool → Prop
  | start : Orderly a sample drafts (start 1 drafts)
  | take {p : Pool} {d : Draft} {rest : List Draft} (reached : Orderly a sample drafts p)
      (looking : p.workers = [.looking]) (last : p.queued = d :: rest) :
      Orderly a sample drafts (p.takeLast a d rest)
  | step {p q : Pool} (reached : Orderly a sample drafts p) (next : Step a sample p q)
      (kept : q.taken = p.taken) : Orderly a sample drafts q

theorem Orderly.reachable {a : Automaton} {sample : Option Nat} {drafts : List Draft} {p : Pool}
    (h : Orderly a sample drafts p) : Reachable a sample 1 drafts p := by
  induction h with
  | start => exact .start
  | take _ looking last ih =>
    exact ih.step (@Step.worker _ _ _ _ [] [] _ _ looking
      (@WorkerStep.take _ _ [] _ _ _ last (.refl _)))
  | step _ next _ ih => exact ih.step next

end PhraseSearch.Pool
