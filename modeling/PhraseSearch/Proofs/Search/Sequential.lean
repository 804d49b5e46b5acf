import PhraseSearch.Proofs.Search.Exploration
import PhraseSearch.Search.Pool

/-!
# A run as a search of a pool

A run does in one place what a pool of workers does in many.  It is one of the pool's searches: the
first worker takes what is in front and puts the successors in front, the consumer hands over every
complete draft at once, and the caller raises its flag, if it wants to give up, as soon as it has
been handed a draft.

    between two drafts the search rests with the stack in its queue    (resting)
    a run is an ended search                                           (exists_ended_run)
-/

namespace PhraseSearch.Pool

variable {a : Automaton} {sample : Option Nat} {workers : Nat} {drafts : List Draft} {p : Pool}
  {d : Draft} {queued taken handled : List Draft}

/-- A search between two drafts: no worker has a draft, and the consumer waits. -/
def resting (workers : Nat) (queued taken handled : List Draft) : Pool :=
  { start workers queued with taken := taken, handled := handled, found := handled.length }

/-- A search whose caller has just been given a draft. -/
def handing (workers : Nat) (queued taken handled : List Draft) : Pool :=
  { resting workers queued taken handled with
    consumer := .counting
    pending := queued.length + 1
    found := handled.length - 1 }

/-! ## Single drafts -/

theorem Reachable.publishAll {toSend : Bool} {others : List Worker} {next : List Draft}
    (h : Reachable a sample workers drafts p)
    (here : p.workers = .expanding d next toSend :: others) :
    Reachable a sample workers drafts
      { p with
        queued := next.reverse ++ p.queued
        pending := p.pending + next.length
        workers := .expanding d [] toSend :: others } := by
  induction next generalizing p with
  | nil =>
    cases p
    cases here
    simpa using h
  | cons e next ih =>
    have hcounted := h.step (@Step.worker _ _ _ _ [] others _ _ here .count)
    have hpublished := hcounted.step (@Step.worker _ _ _ _ [] others _ _ rfl .publish)
    have hrest := ih hpublished rfl
    have hpending : p.pending + ((next.length + 1 : Nat) : Int) = p.pending + 1 + next.length := by
      omega
    simp only [List.reverse_cons, List.append_assoc, List.singleton_append, List.length_cons,
      hpending]
    exact hrest

/-- The workers that take no part in the work. -/
def spare (workers : Nat) : List Worker := List.replicate (max workers 1 - 1) .idle

theorem workers_start (workers : Nat) (drafts : List Draft) :
    (start workers drafts).workers = .idle :: spare workers := by
  obtain ⟨n, hn⟩ : ∃ n, max workers 1 = n + 1 := ⟨max workers 1 - 1, by omega⟩
  simp only [start, spare, hn]
  rfl

/-- The first worker takes the first draft and puts its successors into the queue. -/
theorem Reachable.take (h : Reachable a sample workers drafts
    (resting workers (d :: queued) taken handled)) :
    Reachable a sample workers drafts
      { resting workers ((a.successors d).reverse ++ queued) (d :: taken) handled with
        pending := ((a.successors d).reverse ++ queued).length + 1
        workers := .expanding d [] (a.completes d) :: spare workers } := by
  have hlooking := h.step (@Step.worker _ _ _ _ [] (spare workers) _ _
    (workers_start workers (d :: queued)) (.go rfl))
  have htaken := hlooking.step (@Step.worker _ _ _ _ [] (spare workers) _ _ rfl
    (@WorkerStep.take _ _ [] queued _ d rfl (.refl _)))
  have hpublished := htaken.publishAll rfl
  have hpending : (((a.successors d).reverse ++ queued).length : Int) + 1 =
      (d :: queued).length + (a.successors d).length := by
    simp
    omega
  rw [hpending]
  exact hpublished

theorem Reachable.pass (hc : a.completes d = false) (h : Reachable a sample workers drafts
    (resting workers (d :: queued) taken handled)) :
    Reachable a sample workers drafts
      (resting workers ((a.successors d).reverse ++ queued) (d :: taken) handled) := by
  have htaken := h.take
  rw [hc] at htaken
  have hdone := htaken.step (@Step.worker _ _ _ _ [] (spare workers) _ _ rfl .finish)
  have hrest : resting workers ((a.successors d).reverse ++ queued) (d :: taken) handled =
      { resting workers ((a.successors d).reverse ++ queued) (d :: taken) handled with
        pending := ((a.successors d).reverse ++ queued).length + 1 - 1
        workers := [] ++ .idle :: spare workers } := by
    rw [resting, List.nil_append, ← workers_start, Int.add_sub_cancel]
    rfl
  rw [hrest]
  exact hdone

theorem Reachable.hand (hc : a.completes d = true) (h : Reachable a sample workers drafts
    (resting workers (d :: queued) taken handled)) :
    Reachable a sample workers drafts
      (handing workers ((a.successors d).reverse ++ queued) (d :: taken) (d :: handled)) := by
  have htaken := h.take
  rw [hc] at htaken
  have hsent := htaken
    |>.step (@Step.worker _ _ _ _ [] (spare workers) _ _ rfl .countComplete)
    |>.step (@Step.worker _ _ _ _ [] (spare workers) _ _ rfl (.send nofun))
    |>.step (@Step.worker _ _ _ _ [] (spare workers) _ _ rfl .finish)
  have hhanded := hsent
    |>.step (.consumer rfl (.receive rfl))
    |>.step (.consumer rfl (.hold rfl))
    |>.step (.consumer rfl .handle)
  have hhanding : handing workers ((a.successors d).reverse ++ queued) (d :: taken) (d :: handled) =
      { handing workers ((a.successors d).reverse ++ queued) (d :: taken) (d :: handled) with
        pending := ((a.successors d).reverse ++ queued).length + 1 + 1 - 1
        workers := [] ++ .idle :: spare workers } := by
    rw [handing, resting, List.nil_append, ← workers_start, Int.add_sub_cancel]
  rw [hhanding]
  exact hhanded

/-- The consumer waits for the next draft. -/
theorem Reachable.more (hmore : ∀ n ∈ sample, handled.length + 1 < n)
    (h : Reachable a sample workers drafts (handing workers queued taken (d :: handled))) :
    Reachable a sample workers drafts (resting workers queued taken (d :: handled)) := by
  have hdone := h
    |>.step (.consumer rfl (.count hmore))
    |>.step (.consumer rfl .finish)
  have hrest : resting workers queued taken (d :: handled) =
      { resting workers queued taken (d :: handled) with
        pending := (queued.length : Int) + 1 - 1 } := by
    rw [Int.add_sub_cancel]
    rfl
  rw [hrest]
  exact hdone

/-! ## Leaving -/

/-- A worker that rests may leave if it has been told to stop or if there is no work. -/
theorem Reachable.leave {left right : List Worker} (hover : p.stop = true ∨ p.pending = 0)
    (h : Reachable a sample workers drafts p) (here : p.workers = left ++ .idle :: right) :
    Reachable a sample workers drafts { p with workers := left ++ .gone :: right } := by
  rcases Bool.eq_false_or_eq_true p.stop with hstop | hstop
  · exact h.step (.worker here (.halt hstop))
  · have hnone := hover.resolve_left (by rw [hstop]; nofun)
    have hlooking := h.step (.worker here (.go hstop))
    have hgone := hlooking.step (@Step.worker _ _ _ _ left right _ _ rfl (.leave hnone))
    exact hgone

theorem Reachable.leaveAll (hover : p.stop = true ∨ p.pending = 0) {n : Nat} {left : List Worker}
    (h : Reachable a sample workers drafts p)
    (here : p.workers = left ++ List.replicate n .idle) :
    Reachable a sample workers drafts { p with workers := left ++ List.replicate n .gone } := by
  induction n generalizing p left with
  | zero =>
    cases p
    cases here
    exact h
  | succ n ih =>
    have hrest := ih (p := { p with workers := left ++ .gone :: List.replicate n .idle })
      hover (h.leave hover here) (List.append_cons left .gone _)
    simpa [List.replicate_succ] using hrest

theorem Reachable.exhaust (wanted : sample ≠ some 0)
    (h : Reachable a sample workers drafts (resting workers [] taken handled)) :
    ∃ q, Ended a workers drafts sample q ∧ q.handled = handled ∧ q.taken = taken ∧
      q.sampled = false ∧ q.cancelled = false := by
  have hworkers := @Reachable.leaveAll _ _ _ _ _ (.inr rfl) (max workers 1) [] h rfl
  have halone : ∀ w ∈ List.replicate (max workers 1) Worker.gone, w = .gone :=
    fun w hw => List.eq_of_mem_replicate hw
  have hover := hworkers
    |>.step (.consumer rfl (.disconnect rfl halone))
    |>.step (.controller rfl (.running rfl))
    |>.step (.controller rfl (.exhausted rfl))
    |>.step (.controller rfl .leave)
  exact ⟨_, .begun wanted hover ⟨halone, rfl, rfl⟩, rfl, rfl, rfl, rfl⟩

/-- The caller raises its flag as soon as it has been given a draft. -/
theorem Reachable.raise
    (h : Reachable a sample workers drafts (handing workers queued taken handled)) :
    Reachable a sample workers drafts
      { handing workers queued taken handled with
        flag := true
        raised := true
        cancelled := true
        controller := .leaving } := by
  have hwork : (handing workers queued taken handled).pending ≠ 0 := by
    show (queued.length : Int) + 1 ≠ 0
    omega
  have hcancelled := h
    |>.step (.controller rfl (.running rfl))
    |>.step (.controller rfl (.busy hwork))
    |>.step (.signal _ true)
    |>.step (.controller rfl (.cancel rfl))
  exact hcancelled

/-- All threads leave when the controller does and nobody has anything to do. -/
theorem Reachable.abandon (wanted : sample ≠ some 0)
    (hworkers : p.workers = List.replicate (max workers 1) .idle) (hsent : p.sent = [])
    (hconsumer : p.consumer = .idle ∨ p.consumer = .closing) (hcontroller : p.controller = .leaving)
    (h : Reachable a sample workers drafts p) :
    ∃ q, Ended a workers drafts sample q ∧ q.handled = p.handled ∧ q.taken = p.taken ∧
      q.sampled = p.sampled ∧ q.cancelled = p.cancelled := by
  have hstopped := h.step (.controller hcontroller .leave)
  have hgone := @Reachable.leaveAll _ _ _ _ _ (.inl rfl) _ [] hstopped hworkers
  have halone : ∀ w ∈ List.replicate (max workers 1) Worker.gone, w = .gone :=
    fun w hw => List.eq_of_mem_replicate hw
  rcases hconsumer with hconsumer | hconsumer
  · have hover := hgone.step (.consumer hconsumer (.disconnect hsent halone))
    exact ⟨_, .begun wanted hover ⟨halone, rfl, rfl⟩, rfl, rfl, rfl, rfl⟩
  · have hover := hgone.step (.consumer hconsumer .close)
    exact ⟨_, .begun wanted hover ⟨halone, rfl, rfl⟩, rfl, rfl, rfl, rfl⟩

/-- Once the caller has been given a draft, the search stops if the sample is full or the caller
gives up. -/
theorem Reachable.conclude (wanted : sample ≠ some 0) (cancel : Bool)
    (h : Reachable a sample workers drafts (handing workers queued taken (d :: handled)))
    (hover : cancel = true ∨ ∃ n ∈ sample, n ≤ handled.length + 1) :
    ∃ q, Ended a workers drafts sample q ∧ q.handled = d :: handled ∧ q.taken = taken ∧
      q.sampled = sample.any (· ≤ handled.length + 1) ∧ q.cancelled = cancel := by
  by_cases hfull : ∃ n ∈ sample, n ≤ handled.length + 1
  · obtain ⟨n, hn, hle⟩ := hfull
    have hany : sample.any (· ≤ handled.length + 1) = true := by
      rw [Option.any_eq_true]
      exact ⟨n, hn, decide_eq_true hle⟩
    rw [hany]
    cases cancel with
    | true =>
      have hclosing := h.raise
        |>.step (.consumer rfl (.fill hn hle))
        |>.step (.consumer rfl .note)
        |>.step (.consumer rfl .stop)
      exact hclosing.abandon wanted rfl rfl (.inr rfl) rfl
    | false =>
      have hclosing := h
        |>.step (.consumer rfl (.fill hn hle))
        |>.step (.consumer rfl .note)
        |>.step (.consumer rfl .stop)
        |>.step (.controller rfl (.stopped rfl))
      exact hclosing.abandon wanted rfl rfl (.inr rfl) rfl
  · obtain rfl := hover.resolve_right hfull
    have hany : sample.any (· ≤ handled.length + 1) = false := by
      rw [Option.any_eq_false]
      exact fun n hn => by simpa using fun hle => hfull ⟨n, hn, hle⟩
    have hmore : ∀ n ∈ sample, handled.length + 1 < n :=
      fun n hn => Nat.lt_of_not_le fun hle => hfull ⟨n, hn, hle⟩
    rw [hany]
    have hidle := h.raise
      |>.step (.consumer rfl (.count hmore))
      |>.step (.consumer rfl .finish)
    exact hidle.abandon wanted rfl rfl (.inl rfl) rfl

/-! ## Runs -/

theorem explore_of_wanted {a : Automaton} {stack : List (Nat × Draft)} {p : Progress}
    (hp : p.wanted = some 0) : a.explore stack p = p := by
  fun_induction a.explore stack p with
  | case1 => rfl
  | case2 p d stack ih => exact ih hp
  | case3 => rfl
  | case4 p budget d stack hmore => exact absurd hp hmore

/-- A caller that gives up does so after one draft. -/
theorem limit_eq {limits : RunLimits} (wanted : limits.sample ≠ some 0) :
    limits.limit = if limits.cancelOnResult then some 1 else limits.sample := by
  rw [RunLimits.limit]
  split
  · cases hs : limits.sample with
    | none => rfl
    | some n =>
      have hn : n ≠ 0 := fun h => wanted (hs.trans (congrArg some h))
      simp
      omega
  · rfl

/-- Whether a run that has handed over so many drafts comes to its limit. -/
theorem limit_map_sub_eq_iff {limits : RunLimits} (wanted : limits.sample ≠ some 0)
    (count : Nat) (hcancel : limits.cancelOnResult = true → count ≤ 1) :
    limits.limit.map (· - count) = some 0 ↔
      (limits.cancelOnResult = true ∧ count = 1) ∨
        (limits.cancelOnResult = false ∧ ∃ n ∈ limits.sample, n ≤ count) := by
  rw [limit_eq wanted]
  cases hc : limits.cancelOnResult with
  | true =>
    have := hcancel hc
    simp
    omega
  | false => simp [Nat.sub_eq_zero_iff_le]

/-- Whether a search may end with what a run has done. -/
def EndsAs (a : Automaton) (workers : Nat) (drafts : List Draft) (limits : RunLimits)
    (s : Progress) : Prop :=
  ∃ q, Ended a workers drafts limits.sample q ∧ q.handled = s.handed ∧
    q.taken.length = s.expanded ∧ q.sampled = limits.sample.any (· ≤ s.handed.length) ∧
    q.cancelled = (limits.cancelOnResult && !s.handed.isEmpty)

/-- Whether a search rests where a run goes on with a stack. -/
structure Mirrors (a : Automaton) (workers : Nat) (drafts : List Draft) (limits : RunLimits)
    (stack : List (Nat × Draft)) (s : Progress) : Prop where
  wanted : s.wanted = limits.limit.map (· - s.handed.length)
  more : ∀ n ∈ limits.sample, s.handed.length < n
  silent : limits.cancelOnResult = true → s.handed = []
  reached : ∃ taken, taken.length = s.expanded ∧ Reachable a limits.sample workers drafts
    (resting workers (stack.map Prod.snd) taken s.handed)

variable {limits : RunLimits} {stack : List (Nat × Draft)} {s : Progress} {budget : Nat}

theorem Mirrors.wanted_ne (hs : Mirrors a workers drafts limits stack s)
    (wanted : limits.sample ≠ some 0) : s.wanted ≠ some 0 := by
  have hcount : limits.cancelOnResult = true → s.handed.length = 0 :=
    fun hc => by rw [hs.silent hc]; rfl
  rw [hs.wanted]
  intro hdone
  rw [limit_map_sub_eq_iff wanted _ fun hc => by rw [hcount hc]; omega] at hdone
  rcases hdone with ⟨hc, hone⟩ | ⟨-, n, hn, hle⟩
  · exact absurd (hcount hc) (by omega)
  · exact absurd (hs.more n hn) (by omega)

theorem Mirrors.exhaust (hs : Mirrors a workers drafts limits [] s)
    (wanted : limits.sample ≠ some 0) : EndsAs a workers drafts limits s := by
  obtain ⟨taken, htaken, h⟩ := hs.reached
  obtain ⟨q, hq, hhandled, htaken', hsampled, hcancelled⟩ := h.exhaust wanted
  refine ⟨q, hq, hhandled, by rw [htaken', htaken], ?_, ?_⟩
  · rw [hsampled, eq_comm, Option.any_eq_false]
    exact fun n hn => by simpa using hs.more n hn
  · rw [hcancelled]
    cases hc : limits.cancelOnResult with
    | false => rfl
    | true => rw [hs.silent hc]; rfl

theorem map_snd_pushAll :
    (Automaton.pushAll budget (a.successors d) stack).map Prod.snd =
      (a.successors d).reverse ++ stack.map Prod.snd := by
  rw [Automaton.pushAll_eq]
  simp [Function.comp_def]

theorem Mirrors.pass (hs : Mirrors a workers drafts limits ((budget + 1, d) :: stack) s)
    (hc : a.completes d = false) :
    Mirrors a workers drafts limits (Automaton.pushAll budget (a.successors d) stack)
      (s.step a d) := by
  obtain ⟨taken, htaken, h⟩ := hs.reached
  have hstep : s.step a d = { s with expanded := s.expanded + 1 } := by simp [Progress.step, hc]
  rw [hstep]
  refine ⟨hs.wanted, hs.more, hs.silent, d :: taken, by simpa using htaken, ?_⟩
  rw [map_snd_pushAll]
  exact h.pass hc

/-- A draft that is handed over is the last one, or the search goes on. -/
theorem Mirrors.hand (hs : Mirrors a workers drafts limits ((budget + 1, d) :: stack) s)
    (wanted : limits.sample ≠ some 0) (hc : a.completes d = true) :
    ((s.step a d).wanted = some 0 ∧ EndsAs a workers drafts limits (s.step a d)) ∨
      Mirrors a workers drafts limits (Automaton.pushAll budget (a.successors d) stack)
        (s.step a d) := by
  obtain ⟨taken, htaken, h⟩ := hs.reached
  have hhanded := h.hand hc
  have hstep : s.step a d = ⟨d :: s.handed, s.expanded + 1, s.wanted.map (· - 1)⟩ := by
    simp [Progress.step, hc]
  have hless : s.wanted.map (· - 1) = limits.limit.map (· - (s.handed.length + 1)) := by
    rw [hs.wanted, Option.map_map]
    rfl
  have hone : limits.cancelOnResult = true → s.handed.length + 1 = 1 :=
    fun hc => by rw [hs.silent hc]; rfl
  rw [hstep]
  by_cases hover : limits.cancelOnResult = true ∨ ∃ n ∈ limits.sample, n ≤ s.handed.length + 1
  · refine .inl ⟨?_, ?_⟩
    · show s.wanted.map (· - 1) = some 0
      rw [hless, limit_map_sub_eq_iff wanted _ fun hc => Nat.le_of_eq (hone hc)]
      cases hcr : limits.cancelOnResult with
      | true => exact .inl ⟨rfl, hone hcr⟩
      | false => exact .inr ⟨rfl, hover.resolve_left (by rw [hcr]; exact Bool.false_ne_true)⟩
    · obtain ⟨q, hq, hhandled, htaken', hsampled, hcancelled⟩ :=
        hhanded.conclude wanted limits.cancelOnResult hover
      refine ⟨q, hq, hhandled, ?_, hsampled, by simp [hcancelled]⟩
      rw [htaken', List.length_cons, htaken]
  · have hmore : ∀ n ∈ limits.sample, s.handed.length + 1 < n :=
      fun n hn => Nat.lt_of_not_le fun hle => hover (.inr ⟨n, hn, hle⟩)
    refine .inr ⟨hless, hmore, fun hc => absurd (.inl hc) hover, d :: taken,
      by simpa using htaken, ?_⟩
    rw [map_snd_pushAll]
    exact hhanded.more hmore

theorem Mirrors.endsAs_explore (hs : Mirrors a workers drafts limits stack s)
    (wanted : limits.sample ≠ some 0) (hfits : ∀ x ∈ stack, a.Fits x.1 x.2) :
    EndsAs a workers drafts limits (a.explore stack s) := by
  fun_induction a.explore stack s with
  | case1 s => exact hs.exhaust wanted
  | case2 s d stack ih => exact (hfits (0, d) (by simp)).elim
  | case3 s budget d stack hdone => exact absurd hdone (hs.wanted_ne wanted)
  | case4 s budget d stack hgoing ih =>
    cases hc : a.completes d with
    | false => exact ih (hs.pass hc) (Automaton.fits_pushAll hfits)
    | true =>
      rcases hs.hand wanted hc with ⟨hdone, hends⟩ | hs'
      · rwa [explore_of_wanted hdone]
      · exact ih hs' (Automaton.fits_pushAll hfits)

/-- A run is one of the searches that a pool of any number of workers may do. -/
theorem exists_ended_run (hroots : a.RootsOpen) (workers : Nat) (drafts : List Draft)
    (limits : RunLimits) :
    ∃ q, Ended a workers drafts limits.sample q ∧
      q.handled.reverse = (a.run drafts limits).completed ∧
      q.taken.length = (a.run drafts limits).expanded ∧
      q.sampled = (a.run drafts limits).sampled ∧
      q.cancelled = (a.run drafts limits).cancelled := by
  have hends : EndsAs a workers drafts limits
      (a.explore (drafts.map fun d => (a.budgetOf (limits.limit.getD 0) d, d))
        (.start limits.limit)) := by
    by_cases wanted : limits.sample = some 0
    · have hlimit : limits.limit = some 0 := by
        rw [RunLimits.limit, wanted]
        cases limits.cancelOnResult <;> rfl
      rw [hlimit, explore_of_wanted rfl, EndsAs, wanted]
      exact ⟨_, .unbegun, rfl, rfl, rfl, (Bool.and_false _).symm⟩
    · refine Mirrors.endsAs_explore ⟨?_, ?_, fun _ => rfl, [], rfl, ?_⟩ wanted ?_
      · simp [Progress.start]
      · exact fun n hn => Nat.pos_of_ne_zero fun h => wanted (hn.trans (congrArg some h))
      · have hdrafts : (drafts.map fun d => (a.budgetOf (limits.limit.getD 0) d, d)).map Prod.snd =
            drafts := by simp [Function.comp_def]
        rw [hdrafts]
        exact .start
      · intro x hx
        obtain ⟨d, -, rfl⟩ := List.mem_map.1 hx
        exact Automaton.fits_budgetOf hroots _ d
  obtain ⟨q, hq, hhandled, htaken, hsampled, hcancelled⟩ := hends
  exact ⟨q, hq, congrArg List.reverse hhandled, htaken, hsampled, hcancelled⟩

end PhraseSearch.Pool
