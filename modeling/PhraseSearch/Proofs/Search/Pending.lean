import Mathlib.Algebra.GroupWithZero.Nat
import Mathlib.Data.List.Perm.Basic
import PhraseSearch.Proofs.Search.Schedules
import PhraseSearch.Search.Pool

/-!
# Pending work

The count of pending work is right at every point of every schedule.  A unit is counted before its
draft is put into a queue or sent, and is taken back only when somebody is done with the draft, so
that the count never shows less than there is; until threads are told to stop, it shows exactly what
there is.  A thread that reads zero before that has seen the end of the search.

What a worker or the consumer has in hand is part of the balance: `Worker.units` for the count,
`Worker.waiting` for the drafts to be expanded, `Worker.unsent` and `Consumer.inHand` for the
complete drafts.

    a step keeps the balance of a search                               (Step.balanced)
    every reachable search is balanced                                 (Reachable.balanced)
    the count shows what there is, and zero shows the end              (pending_eq_units)
-/

namespace PhraseSearch.Pool

variable {a : Automaton} {sample : Option Nat} {workers : Nat} {drafts : List Draft}
  {p p' q : Pool} {left right : List Worker} {w w' : Worker} {c c' : Consumer}

/-! ## What threads have in hand -/

/-- The units that a worker accounts for. -/
def Worker.units (w : Worker) : Nat := w.isBusy.toNat + w.hasCounted.toNat

/-- The successors that a worker has still to put into a queue. -/
def Worker.waiting : Worker → List Draft
  | expanding _ next _ => next
  | publishing _ e next _ => e :: next
  | idle | looking | sending _ | refused _ | gone => []

/-- The complete draft that a worker has still to send. -/
def Worker.unsent : Worker → List Draft
  | expanding d _ toSend | publishing d _ _ toSend => if toSend then [d] else []
  | sending d => [d]
  | idle | looking | refused _ | gone => []

/-- The draft that the consumer has received and not given to the caller. -/
def Consumer.inHand : Consumer → List Draft
  | received d | holding d => [d]
  | idle | counting | finishing | filled | stopping | closing | gone => []

/-- The number of drafts that the caller has been given and that are not counted as found. -/
def Consumer.uncounted : Consumer → Nat
  | counting => 1
  | idle | received _ | holding _ | finishing | filled | stopping | closing | gone => 0

theorem units_eq_sum (p : Pool) :
    p.units = p.queued.length + (p.workers.map Worker.units).sum + p.unfinished := by
  have hsum : ∀ ws : List Worker, (ws.map Worker.units).sum =
      ws.countP (·.isBusy) + ws.countP (·.hasCounted) := by
    intro ws
    induction ws with
    | nil => rfl
    | cons w ws ih =>
      simp only [List.map_cons, List.sum_cons, List.countP_cons, ih, Worker.units]
      cases w.isBusy <;> cases w.hasCounted <;> simp <;> omega
  rw [units, hsum, underExpansion, unpublished]
  omega

/-! ## The balance -/

/-- What holds of every state that a search of some drafts comes to. -/
structure Balanced (a : Automaton) (drafts : List Draft) (p : Pool) : Prop where
  /-- nothing has been taken back that was not counted -/
  units_le : (p.units : Int) ≤ p.pending
  /-- nothing that was counted has been lost -/
  exact : p.stop = false → p.pending = p.units
  /-- every draft of the beginning and every successor is taken, or waits to be taken -/
  taken : (p.taken ++ p.queued ++ p.workers.flatMap Worker.waiting).Perm
    (drafts ++ p.taken.flatMap a.successors)
  /-- every complete draft that was taken is on its way to the caller, or arrived, or is lost -/
  complete : (p.handled ++ p.consumer.inHand ++ p.sent ++ p.workers.flatMap Worker.unsent ++
    p.dropped).Perm (p.taken.filter a.completes)
  found : p.found + p.consumer.uncounted = p.handled.length
  kept : p.stop = false → p.dropped = []
  closing : p.consumer = .closing → p.stop = true
  /-- the consumer does not leave a search that goes on -/
  deserted : p.consumer = .gone → p.stop = true ∨ (∀ w ∈ p.workers, w = .gone) ∧ p.sent = []

theorem balanced_start (a : Automaton) (workers : Nat) (drafts : List Draft) :
    Balanced a drafts (start workers drafts) where
  units_le := Int.le_of_eq (pending_start workers drafts).symm
  exact := fun _ => pending_start workers drafts
  taken := by simp [start, List.flatMap_replicate, Worker.waiting]
  complete := by simp [start, List.flatMap_replicate, Worker.unsent, Consumer.inHand]
  found := rfl
  kept := fun _ => rfl
  closing := by simp [start]
  deserted := by simp [start]

/-! ## Steps of a worker -/

/-- What a worker leaves to others. -/
theorem WorkerStep.frame (h : WorkerStep a p w p' w') :
    p'.workers = p.workers ∧ p'.consumer = p.consumer ∧ p'.stop = p.stop ∧
      p'.handled = p.handled ∧ p'.found = p.found := by
  cases h <;> exact ⟨rfl, rfl, rfl, rfl, rfl⟩

theorem WorkerStep.pending_add (h : WorkerStep a p w p' w') :
    p'.pending + (p.queued.length + p.sent.length + w.units : Nat) =
      p.pending + (p'.queued.length + p'.sent.length + w'.units : Nat) := by
  cases h <;> simp [Worker.units, Worker.isBusy, Worker.hasCounted, *] <;> omega

theorem WorkerStep.taken_perm (h : WorkerStep a p w p' w') :
    (p'.taken ++ p'.queued ++ w'.waiting ++ p.taken.flatMap a.successors).Perm
      (p.taken ++ p.queued ++ w.waiting ++ p'.taken.flatMap a.successors) := by
  classical
  refine List.perm_iff_count.2 fun e => ?_
  cases h with
  | take taken order =>
    have hcount := order.count_eq e
    simp only [taken, Worker.waiting, List.flatMap_cons, List.count_append, List.count_cons,
      List.cons_append, hcount, List.count_nil]
    omega
  | publish =>
    simp only [Worker.waiting, List.count_append, List.count_cons]
    omega
  | _ => simp [Worker.waiting]

theorem WorkerStep.complete_perm (h : WorkerStep a p w p' w') :
    (p'.sent ++ w'.unsent ++ p'.dropped ++ p.taken.filter a.completes).Perm
      (p.sent ++ w.unsent ++ p.dropped ++ p'.taken.filter a.completes) := by
  classical
  refine List.perm_iff_count.2 fun e => ?_
  cases h with
  | @take _ _ _ d _ _ =>
    by_cases hc : a.completes d = true
    · simp only [Worker.unsent, hc, if_true, List.filter_cons_of_pos hc, List.count_append,
        List.count_cons, List.count_nil]
      omega
    · simp [Worker.unsent, hc, List.filter_cons_of_neg hc, List.count_append]
  | send =>
    simp only [Worker.unsent, List.count_append, List.count_cons, List.count_nil, if_false,
      Bool.false_eq_true]
    omega
  | refuse =>
    simp only [Worker.unsent, List.count_append, List.count_cons, List.count_nil]
    omega
  | _ => simp [Worker.unsent]

/-- A worker that has left takes no step. -/
theorem WorkerStep.ne_gone (h : WorkerStep a p w p' w') : w ≠ .gone := by
  cases h <;> exact fun h => Worker.noConfusion h

/-- A worker drops a draft only when the consumer has left. -/
theorem WorkerStep.dropped_eq (h : WorkerStep a p w p' w') :
    p'.dropped = p.dropped ∨ p.consumer = .gone := by
  cases h with
  | refuse deserted => exact .inr deserted
  | _ => exact .inl rfl

theorem WorkerStep.balanced (here : p.workers = left ++ w :: right)
    (h : WorkerStep a p w p' w') (hp : Balanced a drafts p) :
    Balanced a drafts { p' with workers := left ++ w' :: right } := by
  classical
  obtain ⟨-, hconsumer, hstop, hhandled, hfound⟩ := h.frame
  -- the worker is there, so the consumer has not left unless the search has been stopped
  have hleft : p.consumer = .gone → p.stop = true := fun hgone => by
    rcases hp.deserted hgone with hstopped | ⟨hall, -⟩
    · exact hstopped
    · exact absurd (hall w (by simp [here])) h.ne_gone
  have hadd := h.pending_add
  have hunits : p.units = p.queued.length + ((left.map Worker.units).sum + w.units +
      (right.map Worker.units).sum) + (p.sent.length + p.consumer.units) := by
    rw [units_eq_sum, here, unfinished]
    simp
    omega
  have hunits' : { p' with workers := left ++ w' :: right }.units =
      p'.queued.length + ((left.map Worker.units).sum + w'.units +
      (right.map Worker.units).sum) + (p'.sent.length + p.consumer.units) := by
    rw [units_eq_sum, unfinished, hconsumer]
    simp
    omega
  have hle := hp.units_le
  constructor
  · rw [hunits']
    show ((_ : Nat) : Int) ≤ p'.pending
    omega
  · intro hrunning
    have heq := hp.exact (hstop.symm.trans hrunning)
    rw [hunits']
    show p'.pending = ((_ : Nat) : Int)
    omega
  · refine List.perm_iff_count.2 fun e => ?_
    have hone := h.taken_perm.count_eq e
    have hall := hp.taken.count_eq e
    simp only [here, List.flatMap_append, List.flatMap_cons, List.count_append] at hone hall ⊢
    omega
  · refine List.perm_iff_count.2 fun e => ?_
    have hone := h.complete_perm.count_eq e
    have hall := hp.complete.count_eq e
    simp only [here, hconsumer, hhandled, List.flatMap_append, List.flatMap_cons,
      List.count_append] at hone hall ⊢
    omega
  · show p'.found + p'.consumer.uncounted = p'.handled.length
    rw [hfound, hconsumer, hhandled]
    exact hp.found
  · intro hrunning
    have hrunning := hstop.symm.trans hrunning
    rcases h.dropped_eq with hdropped | hgone
    · exact hdropped.trans (hp.kept hrunning)
    · rw [hleft hgone] at hrunning
      cases hrunning
  · intro hclosing
    exact hstop.trans (hp.closing (hconsumer.symm.trans hclosing))
  · intro hgone
    exact .inl (hstop.trans (hleft (hconsumer.symm.trans hgone)))

/-! ## Steps of the consumer and of the controller -/

/-- What the consumer leaves to others. -/
theorem ConsumerStep.frame (h : ConsumerStep sample p c p' c') :
    p'.workers = p.workers ∧ p'.queued = p.queued ∧ p'.taken = p.taken := by
  cases h <;> exact ⟨rfl, rfl, rfl⟩

/-- The consumer takes back no more than it is done with, and as much while the search goes on. -/
theorem ConsumerStep.pending_add (h : ConsumerStep sample p c p' c')
    (hclosing : c = .closing → p.stop = true) :
    p.pending + (p'.sent.length + c'.units : Nat) ≤ p'.pending + (p.sent.length + c.units : Nat) ∧
      (p'.stop = false →
        p.pending + (p'.sent.length + c'.units : Nat) =
          p'.pending + (p.sent.length + c.units : Nat)) := by
  cases h with
  | receive first => simp [first, Consumer.units]
  | drop stopped =>
    refine ⟨?_, fun h => Bool.noConfusion (stopped.symm.trans h)⟩
    simp only [Consumer.units]
    omega
  | finish => simp only [Consumer.units]; omega
  | stop =>
    refine ⟨?_, fun h => Bool.noConfusion h⟩
    simp only [Consumer.units]
    omega
  | close =>
    refine ⟨?_, fun h => Bool.noConfusion ((hclosing rfl).symm.trans h)⟩
    simp only [Consumer.units, List.length_nil]
    omega
  | _ => simp [Consumer.units]

theorem ConsumerStep.complete_perm (h : ConsumerStep sample p c p' c') :
    (p'.handled ++ c'.inHand ++ p'.sent ++ p'.dropped).Perm
      (p.handled ++ c.inHand ++ p.sent ++ p.dropped) := by
  classical
  refine List.perm_iff_count.2 fun e => ?_
  cases h with
  | receive first => simp [first, Consumer.inHand, List.count_cons]
  | drop stopped =>
    simp only [Consumer.inHand, List.count_append, List.count_cons, List.count_nil]
    omega
  | handle =>
    simp only [Consumer.inHand, List.count_append, List.count_cons, List.count_nil]
    omega
  | _ => simp [Consumer.inHand]

theorem ConsumerStep.found_add (h : ConsumerStep sample p c p' c') :
    p'.found + c'.uncounted + p.handled.length = p.found + c.uncounted + p'.handled.length := by
  cases h with
  | handle => simp only [Consumer.uncounted, List.length_cons]; omega
  | _ => rfl

/-- The consumer loses drafts only when the search has been stopped. -/
theorem ConsumerStep.dropped_eq (h : ConsumerStep sample p c p' c')
    (hclosing : c = .closing → p.stop = true) (running : p'.stop = false) :
    p'.dropped = p.dropped ∧ p.stop = false := by
  cases h with
  | drop stopped => exact absurd (stopped.symm.trans running) nofun
  | close => exact absurd ((hclosing rfl).symm.trans running) nofun
  | stop => exact Bool.noConfusion running
  | _ => exact ⟨rfl, running⟩

/-- The consumer comes to its end with the search stopped, or as the last but one. -/
theorem ConsumerStep.deserted (h : ConsumerStep sample p c p' c')
    (hclosing : c = .closing → p.stop = true) :
    (c' = .closing → p'.stop = true) ∧
      (c' = .gone → p'.stop = true ∨ (∀ w ∈ p.workers, w = .gone) ∧ p'.sent = []) := by
  cases h with
  | disconnect none alone => exact ⟨nofun, fun _ => .inr ⟨alone, none⟩⟩
  | drop stopped => exact ⟨fun _ => stopped, nofun⟩
  | stop => exact ⟨fun _ => rfl, nofun⟩
  | close => exact ⟨nofun, fun _ => .inl (hclosing rfl)⟩
  | _ => exact ⟨nofun, nofun⟩

theorem ConsumerStep.balanced (here : p.consumer = c) (h : ConsumerStep sample p c p' c')
    (hp : Balanced a drafts p) : Balanced a drafts { p' with consumer := c' } := by
  classical
  obtain ⟨hworkers, hqueued, htaken⟩ := h.frame
  have hclosing : c = .closing → p.stop = true := fun hc => hp.closing (here.trans hc)
  obtain ⟨hle, heq⟩ := h.pending_add hclosing
  have hunits : p.units = p.queued.length + (p.workers.map Worker.units).sum +
      (p.sent.length + c.units) := by
    rw [units_eq_sum, unfinished, here]
  have hunits' : { p' with consumer := c' }.units =
      p.queued.length + (p.workers.map Worker.units).sum + (p'.sent.length + c'.units) := by
    rw [units_eq_sum, unfinished, ← hworkers, ← hqueued]
  have hall := hp.units_le
  constructor
  · rw [hunits']
    show ((_ : Nat) : Int) ≤ p'.pending
    omega
  · intro hrunning
    have hexact := hp.exact (h.dropped_eq hclosing hrunning).2
    have heq := heq hrunning
    rw [hunits']
    show p'.pending = ((_ : Nat) : Int)
    omega
  · show (p'.taken ++ p'.queued ++ p'.workers.flatMap Worker.waiting).Perm
      (drafts ++ p'.taken.flatMap a.successors)
    rw [htaken, hqueued, hworkers]
    exact hp.taken
  · refine List.perm_iff_count.2 fun e => ?_
    have hone := h.complete_perm.count_eq e
    have hcomplete := hp.complete.count_eq e
    simp only [here, hworkers, htaken, List.count_append] at hone hcomplete ⊢
    omega
  · have hone := h.found_add
    have hfound := hp.found
    rw [here] at hfound
    show p'.found + c'.uncounted = p'.handled.length
    omega
  · intro hrunning
    obtain ⟨hdropped, hrunning⟩ := h.dropped_eq hclosing hrunning
    exact hdropped.trans (hp.kept hrunning)
  · exact (h.deserted hclosing).1
  · intro hgone
    show p'.stop = true ∨ (∀ w ∈ p'.workers, w = .gone) ∧ p'.sent = []
    rw [hworkers]
    exact (h.deserted hclosing).2 hgone

theorem ControllerStep.balanced {c c' : Controller} (h : ControllerStep p c p' c')
    (hp : Balanced a drafts p) : Balanced a drafts { p' with controller := c' } := by
  cases h with
  | leave =>
    exact ⟨hp.units_le, fun h => Bool.noConfusion h, hp.taken, hp.complete, hp.found,
      fun h => Bool.noConfusion h, fun _ => rfl, fun _ => .inl rfl⟩
  | _ =>
    exact ⟨hp.units_le, hp.exact, hp.taken, hp.complete, hp.found, hp.kept, hp.closing,
      hp.deserted⟩

/-! ## Schedules -/

theorem Step.balanced (h : Step a sample p q) (hp : Balanced a drafts p) :
    Balanced a drafts q := by
  cases h with
  | worker here step => exact step.balanced here hp
  | consumer here step => exact step.balanced here hp
  | controller _ step => exact step.balanced hp
  | signal value =>
    exact ⟨hp.units_le, hp.exact, hp.taken, hp.complete, hp.found, hp.kept, hp.closing,
      hp.deserted⟩

theorem Reachable.balanced (h : Reachable a sample workers drafts p) : Balanced a drafts p := by
  induction h with
  | start => exact balanced_start a workers drafts
  | step _ next ih => exact next.balanced ih


/-! ## Reading zero -/

theorem Worker.idle_of_not_busy (h : w.isBusy = false) :
    w.waiting = [] ∧ w.unsent = [] := by
  cases w <;> first | exact ⟨rfl, rfl⟩ | cases h

theorem eq_of_units_eq_zero (h : p.units = 0) :
    p.queued = [] ∧ (∀ w ∈ p.workers, w.isBusy = false) ∧ p.sent = [] ∧ p.consumer.units = 0 := by
  have hparts : p.queued.length = 0 ∧ p.underExpansion = 0 ∧ p.sent.length = 0 ∧
      p.consumer.units = 0 := by
    rw [units, unfinished] at h
    omega
  obtain ⟨hqueued, hbusy, hsent, hconsumer⟩ := hparts
  refine ⟨List.length_eq_zero_iff.1 hqueued, fun w hw => ?_, List.length_eq_zero_iff.1 hsent,
    hconsumer⟩
  simpa using List.countP_eq_zero.1 hbusy w hw

/-- Where nothing is left, what has been taken is complete, and so is what was handed over. -/
theorem Balanced.handled_perm (hp : Balanced a drafts p) (hqueued : p.queued = [])
    (hidle : ∀ w ∈ p.workers, w.isBusy = false) (hsent : p.sent = [])
    (hunits : p.consumer.units = 0) (hkept : p.dropped = []) :
    p.taken.Perm (drafts ++ p.taken.flatMap a.successors) ∧
      p.handled.Perm (p.taken.filter a.completes) ∧ p.found = p.handled.length := by
  have hwaiting : p.workers.flatMap Worker.waiting = [] :=
    List.flatMap_eq_nil_iff.2 fun w hw => (Worker.idle_of_not_busy (hidle w hw)).1
  have hunsent : p.workers.flatMap Worker.unsent = [] :=
    List.flatMap_eq_nil_iff.2 fun w hw => (Worker.idle_of_not_busy (hidle w hw)).2
  have hhand : p.consumer.inHand = [] ∧ p.consumer.uncounted = 0 := by
    cases hc : p.consumer <;> first | exact ⟨rfl, rfl⟩ | (rw [hc] at hunits; cases hunits)
  have htaken := hp.taken
  have hcomplete := hp.complete
  have hfound := hp.found
  rw [hqueued, hwaiting, List.append_nil, List.append_nil] at htaken
  simp only [hhand.1, hsent, hunsent, hkept, List.append_nil] at hcomplete
  exact ⟨htaken, hcomplete, by omega⟩

/-- The count of pending work never falls below zero.  Until threads are told to stop it is the
number of drafts that wait, are under expansion, have been counted in advance or are on their way
through the consumer, so whoever reads zero knows that no draft is left and that every complete
one has been handed over, and counted, once. -/
theorem pending_eq_units (h : Reachable a sample workers drafts p) :
    0 ≤ p.pending ∧
      (p.stop = false →
        p.pending = (p.queued.length + p.underExpansion + p.unpublished + p.unfinished : Nat)) ∧
      (p.stop = false → p.pending = 0 →
        p.queued = [] ∧ (∀ w ∈ p.workers, w.isBusy = false) ∧ p.sent = [] ∧
          p.consumer.units = 0 ∧ p.taken.Perm (drafts ++ p.taken.flatMap a.successors) ∧
          p.handled.Perm (p.taken.filter a.completes) ∧ p.found = p.handled.length) := by
  have hp := h.balanced
  refine ⟨by have := hp.units_le; omega, hp.exact, fun hrunning hzero => ?_⟩
  have hunits : p.units = 0 := by
    have := hp.exact hrunning
    omega
  obtain ⟨hqueued, hidle, hsent, hconsumer⟩ := eq_of_units_eq_zero hunits
  exact ⟨hqueued, hidle, hsent, hconsumer,
    hp.handled_perm hqueued hidle hsent hconsumer (hp.kept hrunning)⟩

open Session in
/-- Of two workers one takes the only draft and sends it; the consumer is done with it before the
worker is, and then the other worker may read zero. -/
theorem pending_eq_units_of_one_draft :
    ∃ p : Pool, Reachable twoWordStates none 2 [lastDraft 2] p ∧ p.stop = false ∧
      p.pending = 0 ∧ p.handled = [lastDraft 2] ∧ p.sent = [] ∧ p.found = p.handled.length := by
  have first : ∀ {p p' : Pool} {w w' : Worker}, p.workers = [] ++ w :: [.idle] →
      WorkerStep twoWordStates p w p' w' →
      Step twoWordStates none p { p' with workers := [] ++ w' :: [.idle] } :=
    fun here step => .worker here step
  have hsent := (.start : Reachable twoWordStates none 2 [lastDraft 2] _)
      |>.step (first rfl (.go rfl))
      |>.step (first rfl (@WorkerStep.take _ _ [] [] _ (lastDraft 2) rfl (.refl _)))
      |>.step (first rfl .countComplete)
      |>.step (first rfl (.send nofun))
  have hover := hsent
      |>.step (.consumer rfl (.receive rfl))
      |>.step (.consumer rfl (.hold rfl))
      |>.step (.consumer rfl .handle)
      |>.step (.consumer rfl (.count nofun))
      |>.step (.consumer rfl .finish)
      |>.step (first rfl .finish)
  obtain ⟨-, -, hzero⟩ := pending_eq_units hover
  obtain ⟨-, -, hnone, -, -, -, hfound⟩ := hzero rfl rfl
  exact ⟨_, hover, rfl, rfl, rfl, hnone, hfound⟩

end PhraseSearch.Pool
