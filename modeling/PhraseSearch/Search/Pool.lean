import PhraseSearch.Search.Successors

/-!
# The pool of workers

The steps of a search as its threads take them, in any order.  Workers take drafts from queues.  For
a draft taken, one successor after the other is counted as pending work and then put into a queue; a
complete draft is counted and sent to the consumer.  Only then does the worker lower the count for
the draft itself.  The consumer gives a draft to the caller, and lowers the count after that.

A controller watches the count and a flag by which the caller gives up; workers watch the count too.
All of them leave when it is zero, or when they have been told to stop: by the consumer when the
sample is full, or by the controller.  When the consumer has left, nobody receives what is sent.

`Step` is one atomic step of a thread, `Reachable` any number of them, and `Ended` says how a whole
search may end.  The number that all threads share, `pending`, is an integer, so that it would show
if it fell below zero; `units` is what it stands for.

    at the beginning the two agree                                     (pending_start)
-/

namespace PhraseSearch

namespace Pool

/-! ## Threads -/

/-- What a worker is about to do. -/
inductive Worker where
  /-- to see whether it has to stop -/
  | idle
  /-- to take a draft -/
  | looking
  /-- to count the first of these successors, or else the draft as complete, or else to be done
  with the draft -/
  | expanding (draft : Draft) (successors : List Draft) (toSend : Bool)
  /-- to put the successor in front, which has been counted, into a queue -/
  | publishing (draft next : Draft) (successors : List Draft) (toSend : Bool)
  /-- to send the draft, which has been counted as complete -/
  | sending (draft : Draft)
  /-- to take back the count for a complete draft that nobody receives -/
  | refused (draft : Draft)
  | gone

/-- What the consumer is about to do. -/
inductive Consumer where
  /-- to receive a draft -/
  | idle
  /-- to see whether it has to stop instead of handling the draft -/
  | received (draft : Draft)
  /-- to give the draft to the caller -/
  | holding (draft : Draft)
  /-- to count the draft that the caller has been given as found -/
  | counting
  /-- to be done with that draft -/
  | finishing
  /-- to note that the sample is full -/
  | filled
  /-- to tell all threads to stop -/
  | stopping
  /-- to leave; what has been sent is lost then -/
  | closing
  | gone

/-- What the controller is about to do. -/
inductive Controller where
  /-- to see whether the search has been stopped -/
  | watching
  /-- to read the count of pending work -/
  | checking
  /-- to see whether the caller gives up -/
  | polling
  /-- to tell all threads to stop -/
  | leaving
  | gone

/-- Whether a worker has a draft under expansion. -/
def Worker.isBusy : Worker → Bool
  | idle | looking | gone => false
  | expanding _ _ _ | publishing _ _ _ _ | sending _ | refused _ => true

/-- Whether a worker has counted something that is not there yet. -/
def Worker.hasCounted : Worker → Bool
  | idle | looking | gone | expanding _ _ _ => false
  | publishing _ _ _ _ | sending _ | refused _ => true

/-- Whether a draft that was sent is being handled and not finished, as a number. -/
def Consumer.units : Consumer → Nat
  | idle | closing | gone => 0
  | received _ | holding _ | counting | finishing | filled | stopping => 1

end Pool

/-- A search that is under way. -/
structure Pool where
  /-- the drafts in the queues -/
  queued : List Draft
  workers : List Pool.Worker
  /-- the complete drafts that have been sent and not received -/
  sent : List Draft
  consumer : Pool.Consumer
  controller : Pool.Controller
  /-- the number by which threads tell whether there is work left -/
  pending : Int
  /-- whether threads have been told to stop -/
  stop : Bool
  /-- the drafts that have been taken from the queues -/
  taken : List Draft
  /-- the complete drafts that will not be handled any more -/
  dropped : List Draft
  /-- the drafts that the caller has been given -/
  handled : List Draft
  /-- how many of them have been counted -/
  found : Nat
  /-- the sample was filled -/
  sampled : Bool
  /-- the caller wants to give up -/
  flag : Bool
  /-- the caller has wanted to give up at some time -/
  raised : Bool
  /-- the controller has left because the caller gave up -/
  cancelled : Bool

namespace Pool

/-- A search about to begin; there is at least one worker. -/
def start (workers : Nat) (drafts : List Draft) : Pool where
  queued := drafts
  workers := List.replicate (max workers 1) .idle
  sent := []
  consumer := .idle
  controller := .watching
  pending := drafts.length
  stop := false
  taken := []
  dropped := []
  handled := []
  found := 0
  sampled := false
  flag := false
  raised := false
  cancelled := false

/-- The number of drafts under expansion. -/
def underExpansion (p : Pool) : Nat := p.workers.countP (·.isBusy)

/-- The number of units that have been counted and are not there yet. -/
def unpublished (p : Pool) : Nat := p.workers.countP (·.hasCounted)

/-- The number of complete drafts that have been sent, or are being handled, and not finished. -/
def unfinished (p : Pool) : Nat := p.sent.length + p.consumer.units

/-- The units of work that are pending in truth. -/
def units (p : Pool) : Nat :=
  p.queued.length + p.underExpansion + p.unpublished + p.unfinished

/-! ## Steps -/

/-- A step of a worker; it changes what all threads share. -/
inductive WorkerStep (a : Automaton) (p : Pool) : Worker → Pool → Worker → Prop
  | go (running : p.stop = false) : WorkerStep a p .idle p .looking
  | halt (stopped : p.stop = true) : WorkerStep a p .idle p .gone
  /-- a draft is taken from anywhere in the queues; its successors will come in any order -/
  | take {before after next : List Draft} {d : Draft} (taken : p.queued = before ++ d :: after)
      (order : next.Perm (a.successors d)) :
      WorkerStep a p .looking { p with queued := before ++ after, taken := d :: p.taken }
        (.expanding d next (a.completes d))
  /-- no draft was to be had, and the count says that there is work -/
  | retry (work : p.pending ≠ 0) : WorkerStep a p .looking p .idle
  /-- no draft was to be had, and the count says that there is no work -/
  | leave (none : p.pending = 0) : WorkerStep a p .looking p .gone
  | count {d e : Draft} {next : List Draft} {toSend : Bool} :
      WorkerStep a p (.expanding d (e :: next) toSend) { p with pending := p.pending + 1 }
        (.publishing d e next toSend)
  | publish {d e : Draft} {next : List Draft} {toSend : Bool} :
      WorkerStep a p (.publishing d e next toSend) { p with queued := e :: p.queued }
        (.expanding d next toSend)
  | countComplete {d : Draft} :
      WorkerStep a p (.expanding d [] true) { p with pending := p.pending + 1 } (.sending d)
  | send {d : Draft} (listening : p.consumer ≠ .gone) :
      WorkerStep a p (.sending d) { p with sent := p.sent ++ [d] } (.expanding d [] false)
  | refuse {d : Draft} (deserted : p.consumer = .gone) :
      WorkerStep a p (.sending d) { p with dropped := d :: p.dropped } (.refused d)
  | takeBack {d : Draft} :
      WorkerStep a p (.refused d) { p with pending := p.pending - 1 } (.expanding d [] false)
  | finish {d : Draft} :
      WorkerStep a p (.expanding d [] false) { p with pending := p.pending - 1 } .idle

/-- A step of the consumer, if so many drafts are wanted. -/
inductive ConsumerStep (sample : Option Nat) (p : Pool) : Consumer → Pool → Consumer → Prop
  | receive {d : Draft} {rest : List Draft} (first : p.sent = d :: rest) :
      ConsumerStep sample p .idle { p with sent := rest } (.received d)
  /-- there is nothing to receive and nobody left to send -/
  | disconnect (none : p.sent = []) (alone : ∀ w ∈ p.workers, w = .gone) :
      ConsumerStep sample p .idle p .gone
  | hold {d : Draft} (running : p.stop = false) : ConsumerStep sample p (.received d) p (.holding d)
  | drop {d : Draft} (stopped : p.stop = true) :
      ConsumerStep sample p (.received d) { p with dropped := d :: p.dropped } .closing
  | handle {d : Draft} :
      ConsumerStep sample p (.holding d) { p with handled := d :: p.handled } .counting
  | count (more : ∀ n ∈ sample, p.found + 1 < n) :
      ConsumerStep sample p .counting { p with found := p.found + 1 } .finishing
  | fill {n : Nat} (wanted : sample = some n) (enough : n ≤ p.found + 1) :
      ConsumerStep sample p .counting { p with found := p.found + 1 } .filled
  | finish : ConsumerStep sample p .finishing { p with pending := p.pending - 1 } .idle
  | note : ConsumerStep sample p .filled { p with sampled := true } .stopping
  | stop : ConsumerStep sample p .stopping { p with stop := true } .closing
  | close :
      ConsumerStep sample p .closing { p with sent := [], dropped := p.sent ++ p.dropped } .gone

/-- A step of the controller. -/
inductive ControllerStep (p : Pool) : Controller → Pool → Controller → Prop
  | stopped (stopped : p.stop = true) : ControllerStep p .watching p .leaving
  | running (running : p.stop = false) : ControllerStep p .watching p .checking
  | exhausted (none : p.pending = 0) : ControllerStep p .checking p .leaving
  | busy (work : p.pending ≠ 0) : ControllerStep p .checking p .polling
  | cancel (raised : p.flag = true) :
      ControllerStep p .polling { p with cancelled := true } .leaving
  | wait (lowered : p.flag = false) : ControllerStep p .polling p .watching
  | leave : ControllerStep p .leaving { p with stop := true } .gone

/-- One atomic step of a search. -/
inductive Step (a : Automaton) (sample : Option Nat) : Pool → Pool → Prop
  | worker {p p' : Pool} {left right : List Worker} {w w' : Worker}
      (here : p.workers = left ++ w :: right) (step : WorkerStep a p w p' w') :
      Step a sample p { p' with workers := left ++ w' :: right }
  | consumer {p p' : Pool} {c c' : Consumer} (here : p.consumer = c)
      (step : ConsumerStep sample p c p' c') : Step a sample p { p' with consumer := c' }
  | controller {p p' : Pool} {c c' : Controller} (here : p.controller = c)
      (step : ControllerStep p c p' c') : Step a sample p { p' with controller := c' }
  /-- the caller gives up, or thinks better of it -/
  | signal (p : Pool) (value : Bool) :
      Step a sample p { p with flag := value, raised := p.raised || value }

/-- The states that a search of some drafts comes to. -/
inductive Reachable (a : Automaton) (sample : Option Nat) (workers : Nat) (drafts : List Draft) :
    Pool → Prop
  | start : Reachable a sample workers drafts (start workers drafts)
  | step {p q : Pool} (reached : Reachable a sample workers drafts p) (next : Step a sample p q) :
      Reachable a sample workers drafts q

/-- Whether all threads have left. -/
def Over (p : Pool) : Prop :=
  (∀ w ∈ p.workers, w = .gone) ∧ p.consumer = .gone ∧ p.controller = .gone

/-- How a search may end.  If no draft is wanted, it is not begun. -/
inductive Ended (a : Automaton) (workers : Nat) (drafts : List Draft) :
    Option Nat → Pool → Prop
  | unbegun : Ended a workers drafts (some 0) { start workers drafts with sampled := true }
  | begun {sample : Option Nat} {p : Pool} (wanted : sample ≠ some 0)
      (reached : Reachable a sample workers drafts p) (ended : p.Over) :
      Ended a workers drafts sample p

/-! ## Lemmas -/

theorem pending_start (workers : Nat) (drafts : List Draft) :
    (start workers drafts).pending = (start workers drafts).units := by
  simp [start, units, underExpansion, unpublished, unfinished, Worker.isBusy, Worker.hasCounted,
    Consumer.units, List.countP_replicate]

end Pool

end PhraseSearch
