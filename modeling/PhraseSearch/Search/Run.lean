import PhraseSearch.Search.Successors

/-!
# Running a search

`explore` expands drafts from a stack: the top draft is taken off, and its successors are put on
in order, so that the last one is expanded first.  It stops when the stack is empty or when as
many drafts have been handed over as the caller wants.

Every draft on the stack has a budget, the number of further steps that may follow it.  A search
that comes to an end is never cut off by `budgetOf`.  Between two letters it may come to a state
again only if it has handed over a draft since: from there on it does the same again, so that it
would otherwise go in circles for ever.
-/

namespace PhraseSearch

/-! ## Exploring -/

/-- What a search has done so far, and how much is left to do. -/
structure Progress where
  /-- the drafts handed over, the last one first -/
  handed : List Draft
  /-- the number of drafts expanded -/
  expanded : Nat
  /-- how many more drafts are wanted, if not all of them are -/
  wanted : Option Nat

namespace Progress

/-- Nothing has been done. -/
def start (wanted : Option Nat) : Progress := ⟨[], 0, wanted⟩

/-- One draft more has been expanded, and handed over if it is complete. -/
def step (p : Progress) (a : Automaton) (d : Draft) : Progress :=
  if a.completes d then ⟨d :: p.handed, p.expanded + 1, p.wanted.map (· - 1)⟩
  else { p with expanded := p.expanded + 1 }

end Progress

namespace Automaton

/-- The number of drafts that a search within the budget expands below a draft, itself included. -/
def treeSize (a : Automaton) : Nat → Draft → Nat
  | 0, _ => 1
  | budget + 1, d => ((a.successors d).map (a.treeSize budget)).foldr (· + ·) 0 + 1

/-- The number of drafts to be expanded from a stack. -/
def stackSize (a : Automaton) (stack : List (Nat × Draft)) : Nat :=
  (stack.map fun (budget, d) => a.treeSize budget d).foldr (· + ·) 0

/-- Puts drafts with their budget on a stack, one after the other. -/
def pushAll (budget : Nat) (drafts : List Draft) (stack : List (Nat × Draft)) :
    List (Nat × Draft) :=
  drafts.foldl (fun stack d => (budget, d) :: stack) stack

theorem stackSize_pushAll (a : Automaton) (budget : Nat) (drafts : List Draft)
    (stack : List (Nat × Draft)) :
    a.stackSize (pushAll budget drafts stack) =
      (drafts.map (a.treeSize budget)).foldr (· + ·) 0 + a.stackSize stack := by
  induction drafts generalizing stack with
  | nil => simp [pushAll]
  | cons d drafts ih =>
    have hstep : pushAll budget (d :: drafts) stack =
        pushAll budget drafts ((budget, d) :: stack) := rfl
    rw [hstep, ih]
    simp only [stackSize, List.map_cons, List.foldr_cons]
    omega

/-- Expands the drafts of a stack until it is empty or enough have been handed over. -/
def explore (a : Automaton) (stack : List (Nat × Draft)) (p : Progress) : Progress :=
  match stack with
  | [] => p
  | (0, _) :: stack => a.explore stack p
  | (budget + 1, d) :: stack =>
    if p.wanted = some 0 then p else a.explore (pushAll budget (a.successors d) stack) (p.step a d)
termination_by a.stackSize stack
decreasing_by
  · simp [stackSize, treeSize]
  · rw [stackSize_pushAll]
    simp only [stackSize, treeSize, List.map_cons, List.foldr_cons]
    omega

/-- How many steps may follow a draft in a search that hands over so many drafts at most. -/
def budgetOf (a : Automaton) (limit : Nat) (d : Draft) : Nat :=
  (d.bag.total + limit + 1) * (a.size + 1)

end Automaton

/-! ## Runs -/

/-- How a run is to be cut short. -/
structure RunLimits where
  /-- stop after so many drafts -/
  sample : Option Nat
  /-- the caller gives up when it is handed the first draft -/
  cancelOnResult : Bool

/-- How a run ended. -/
structure Run where
  /-- the drafts handed over, in order -/
  completed : List Draft
  /-- the number of drafts expanded -/
  expanded : Nat
  /-- as many drafts were handed over as were wanted -/
  sampled : Bool
  /-- the caller gave up -/
  cancelled : Bool

/-- The number of drafts handed over. -/
def Run.found (r : Run) : Nat := r.completed.length

/-- The number of drafts after which a run stops. -/
def RunLimits.limit (l : RunLimits) : Option Nat :=
  if l.cancelOnResult then some (min 1 (l.sample.getD 1)) else l.sample

/-- Searches from some drafts, the first of which is explored first. -/
def Automaton.run (a : Automaton) (starts : List Draft) (limits : RunLimits) : Run :=
  let stack := starts.map fun d => (a.budgetOf (limits.limit.getD 0) d, d)
  let p := a.explore stack (.start limits.limit)
  { completed := p.handed.reverse
    expanded := p.expanded
    sampled := limits.sample.any (· ≤ p.handed.length)
    cancelled := limits.cancelOnResult && !p.handed.isEmpty }

end PhraseSearch
