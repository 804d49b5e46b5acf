import PhraseSearch.Search.Successors

/-!
# Schedules

A search need not be done in one order.  A `Session` is what any number of workers and one
consumer share: the drafts that wait to be expanded, the complete ones that have been sent, and the
one that the consumer has in hand.  A step takes *any* waiting draft and adds its successors in
*any* order, or lets the consumer take or finish any draft that was sent; the caller may give up at
any time.  `Schedule` is a finite sequence of such steps.

A session stops when it has been given up or when as many drafts have been handled as are wanted;
after that nothing is taken from what was sent, but a draft in hand is finished.
-/

namespace PhraseSearch

/-- How far a search has come. -/
structure Session where
  /-- the drafts that nobody has expanded yet -/
  waiting : List Draft
  /-- the drafts that have been expanded -/
  expanded : List Draft
  /-- complete drafts on their way to the consumer -/
  sent : List Draft
  /-- how often a complete draft has been sent -/
  emissions : Nat
  /-- the draft that the consumer has taken and not finished -/
  inHand : Option Draft
  /-- the drafts that the caller has been given -/
  handled : List Draft
  /-- the caller has given up -/
  cancelled : Bool

namespace Session

/-- A search that is about to begin. -/
def start (drafts : List Draft) : Session := ⟨drafts, [], [], 0, none, [], false⟩

/-- The number of drafts that the caller has been given. -/
def found (s : Session) : Nat := s.handled.length

/-- Whether as many drafts have been handled as are wanted. -/
def Sampled (sample : Option Nat) (s : Session) : Prop := ∃ n ∈ sample, n ≤ s.handled.length

/-- Whether nothing further is to be begun. -/
def Stopped (sample : Option Nat) (s : Session) : Prop := s.cancelled = true ∨ s.Sampled sample

/-- The complete drafts that have come up so far. -/
def emitted (s : Session) : List Draft := s.sent ++ s.inHand.toList ++ s.handled

/-- One step of a search in an automaton, under a limit on the number of drafts to be handled. -/
inductive Step (a : Automaton) (sample : Option Nat) : Session → Session → Prop
  /-- a waiting draft is expanded -/
  | expand {s : Session} {before after next : List Draft} {d : Draft}
      (running : ¬ s.Stopped sample) (taken : s.waiting = before ++ d :: after)
      (order : next.Perm (a.successors d)) :
      Step a sample s
        { s with
          waiting := next ++ before ++ after
          expanded := d :: s.expanded
          sent := if a.completes d then d :: s.sent else s.sent
          emissions := if a.completes d then s.emissions + 1 else s.emissions }
  /-- the consumer takes a draft -/
  | take {s : Session} {before after : List Draft} {d : Draft}
      (running : ¬ s.Stopped sample) (free : s.inHand = none)
      (taken : s.sent = before ++ d :: after) :
      Step a sample s { s with sent := before ++ after, inHand := some d }
  /-- the caller has been given the draft in hand -/
  | handle {s : Session} {d : Draft} (held : s.inHand = some d) :
      Step a sample s { s with inHand := none, handled := d :: s.handled }
  /-- the caller gives up -/
  | cancel {s : Session} (running : ¬ s.Stopped sample) :
      Step a sample s { s with cancelled := true }

/-- Any number of steps. -/
inductive Schedule (a : Automaton) (sample : Option Nat) : Session → Session → Prop
  | done (s : Session) : Schedule a sample s s
  | step {s t u : Session} (first : Step a sample s t) (rest : Schedule a sample t u) :
      Schedule a sample s u

/-- Whether the search is over: nothing is in hand, and nothing is left or the search has
stopped. -/
def Over (sample : Option Nat) (s : Session) : Prop :=
  s.inHand = none ∧ (s.Stopped sample ∨ s.waiting = [] ∧ s.sent = [])

/-- Whether a search that wants all drafts is over and has not been given up. -/
def Exhausted (s : Session) : Prop := s.Over none ∧ s.cancelled = false

end Session

end PhraseSearch
