import PhraseSearch.Proofs.Search.Pending
import PhraseSearch.Proofs.Search.Sequential

/-!
# How a search ends

A search is told to stop for one of three reasons: the sample is full, the caller gives up, or
nothing is left to be done.  Each is written down before the threads are told, and the last one
stays true whatever the threads do after that: a `Quiet` search does not wake up.  What the caller
has been given is part of what an exhaustive search finds at any time, and all of it in a quiet
search.

    a quiet search stays quiet                                         (Step.quiet)
    what is taken and the trees of what waits make up the search       (Balanced.trees_perm)
    a search stops only for one of its three reasons                   (Reachable.justified)
    what the caller has been given in the end                          (found_eq_min_of_ended)
-/

namespace PhraseSearch.Pool

variable {a : Automaton} {sample : Option Nat} {workers : Nat} {drafts : List Draft}
  {p p' q : Pool} {left right : List Worker} {w w' : Worker} {c c' : Consumer}

/-! ## Quiet searches -/

/-- Whether there is nothing left to be done, and nothing was lost. -/
structure Quiet (p : Pool) : Prop where
  queued : p.queued = []
  idle : ∀ w ∈ p.workers, w.isBusy = false
  sent : p.sent = []
  consumer : p.consumer.units = 0
  kept : p.dropped = []

theorem Balanced.quiet (hp : Balanced a drafts p) (running : p.stop = false)
    (zero : p.pending = 0) : Quiet p := by
  have hunits : p.units = 0 := by
    have := hp.exact running
    omega
  obtain ⟨hqueued, hidle, hsent, hconsumer⟩ := eq_of_units_eq_zero hunits
  exact ⟨hqueued, hidle, hsent, hconsumer, hp.kept running⟩

theorem WorkerStep.quiet (here : p.workers = left ++ w :: right) (h : WorkerStep a p w p' w')
    (hp : Quiet p) : Quiet { p' with workers := left ++ w' :: right } := by
  have hothers : ∀ v, v.isBusy = false → ∀ u ∈ left ++ v :: right, u.isBusy = false := by
    intro v hv u hu
    rcases List.mem_append.1 hu with hu | hu
    · exact hp.idle u (by rw [here]; exact List.mem_append_left _ hu)
    · rcases List.mem_cons.1 hu with rfl | hu
      · exact hv
      · exact hp.idle u (by rw [here]; exact List.mem_append_right _ (List.mem_cons_of_mem _ hu))
  have hw : w.isBusy = false := hp.idle w (by simp [here])
  cases h with
  | take taken order => rw [hp.queued] at taken; simp at taken
  | go | halt | retry | leave =>
    exact ⟨hp.queued, hothers _ rfl, hp.sent, hp.consumer, hp.kept⟩
  | _ => cases hw

theorem ConsumerStep.quiet (here : p.consumer = c) (h : ConsumerStep sample p c p' c')
    (hp : Quiet p) : Quiet { p' with consumer := c' } := by
  have hunits : c.units = 0 := by rw [← here]; exact hp.consumer
  cases h with
  | receive first => rw [hp.sent] at first; cases first
  | disconnect => exact ⟨hp.queued, hp.idle, hp.sent, rfl, hp.kept⟩
  | close =>
    refine ⟨hp.queued, hp.idle, rfl, rfl, ?_⟩
    show p.sent ++ p.dropped = []
    rw [hp.sent, hp.kept, List.append_nil]
  | _ => cases hunits

/-! ## Search trees -/

/-- The drafts that somebody has still to take, or to put where they can be taken. -/
def untaken (p : Pool) : List Draft := p.queued ++ p.workers.flatMap Worker.waiting

theorem searchTree_perm (hroots : a.RootsOpen) (ds : List Draft) :
    (ds.flatMap a.searchTree).Perm
      (ds ++ (ds.flatMap a.successors).flatMap a.searchTree) := by
  classical
  refine List.perm_iff_count.2 fun e => ?_
  induction ds with
  | nil => rfl
  | cons d ds ih =>
    have hbelow : ((a.successors d).reverse.flatMap a.searchTree).count e =
        ((a.successors d).flatMap a.searchTree).count e :=
      ((List.reverse_perm _).flatMap_right _).count_eq e
    simp only [List.flatMap_cons, List.flatMap_append, List.count_append, List.count_cons,
      List.cons_append, Automaton.searchTree_eq_cons hroots d, hbelow] at ih ⊢
    omega

theorem Balanced.trees_perm (hroots : a.RootsOpen) (hp : Balanced a drafts p) :
    (p.taken ++ p.untaken.flatMap a.searchTree).Perm (drafts.flatMap a.searchTree) := by
  classical
  refine List.perm_iff_count.2 fun e => ?_
  have hbalance := (hp.taken.flatMap_right a.searchTree).count_eq e
  have htaken := (searchTree_perm hroots p.taken).count_eq e
  simp only [untaken, List.flatMap_append, List.count_append] at hbalance htaken ⊢
  omega

theorem Balanced.handled_subperm (hroots : a.RootsOpen) (hp : Balanced a drafts p) :
    p.handled.Subperm ((drafts.flatMap a.searchTree).filter a.completes) := by
  have htaken : p.handled.Subperm (p.taken.filter a.completes) := by
    refine List.Subperm.trans ?_ hp.complete.subperm
    simp only [List.append_assoc]
    exact (List.sublist_append_left _ _).subperm
  refine htaken.trans (List.Subperm.trans ?_ ((hp.trees_perm hroots).filter _).subperm)
  rw [List.filter_append]
  exact (List.sublist_append_left _ _).subperm

/-- When the search is quiet, all drafts of the trees have been taken. -/
theorem Balanced.taken_perm_of_quiet (hroots : a.RootsOpen) (hp : Balanced a drafts p)
    (h : Quiet p) : p.taken.Perm (drafts.flatMap a.searchTree) := by
  have huntaken : p.untaken = [] := by
    rw [untaken, h.queued, List.nil_append]
    exact List.flatMap_eq_nil_iff.2 fun w hw => (Worker.idle_of_not_busy (h.idle w hw)).1
  have htrees := hp.trees_perm hroots
  rwa [huntaken, List.flatMap_nil, List.append_nil] at htrees

theorem Balanced.handled_perm_of_quiet (hroots : a.RootsOpen) (hp : Balanced a drafts p)
    (h : Quiet p) : p.handled.Perm ((drafts.flatMap a.searchTree).filter a.completes) :=
  (hp.handled_perm h.queued h.idle h.sent h.consumer h.kept).2.1.trans
    ((hp.taken_perm_of_quiet hroots h).filter _)

/-! ## Full samples -/

/-- What the consumer knows about the sample. -/
structure Sampling (sample : Option Nat) (p : Pool) : Prop where
  /-- the sample is full when the consumer finds it so -/
  full : p.sampled = true ∨ p.consumer = .filled → ∃ n ∈ sample, p.found = n
  /-- and not before -/
  wanting : p.sampled = false → p.consumer ≠ .filled → ∀ n ∈ sample, p.found < n
  noted : p.consumer = .stopping → p.sampled = true
  /-- a consumer that has written it down does nothing but leave -/
  leaving : p.sampled = true → p.consumer = .stopping ∨ p.consumer = .closing ∨ p.consumer = .gone

theorem sampling_start (workers : Nat) (drafts : List Draft) (wanted : sample ≠ some 0) :
    Sampling sample (start workers drafts) where
  full := by rintro (h | h) <;> cases h
  wanting := by
    rintro - - n rfl
    exact Nat.pos_of_ne_zero fun h => wanted (congrArg some h)
  noted := nofun
  leaving := nofun

/-- A consumer that is at its work has not written down that the sample is full. -/
theorem Sampling.sampled_eq_false (hp : Sampling sample p) (here : p.consumer = c)
    (hstopping : c ≠ .stopping) (hclosing : c ≠ .closing) (hgone : c ≠ .gone) :
    p.sampled = false := by
  subst here
  refine Bool.eq_false_iff.2 fun hs => ?_
  rcases hp.leaving hs with h | h | h
  · exact hstopping h
  · exact hclosing h
  · exact hgone h

theorem ConsumerStep.sampling (here : p.consumer = c) (h : ConsumerStep sample p c p' c')
    (hp : Sampling sample p) : Sampling sample { p' with consumer := c' } := by
  have hworking := hp.sampled_eq_false here
  have hwanting := fun hs hf => hp.wanting hs (here ▸ hf)
  cases h with
  | count more => exact ⟨by rintro (h | h) <;> simp_all, fun _ _ => more, nofun, by simp_all⟩
  | @fill n wanted enough =>
    refine ⟨fun _ => ⟨n, wanted, ?_⟩, fun _ h => absurd rfl h, nofun, by simp_all⟩
    have hmore := hwanting (hworking nofun nofun nofun) nofun n wanted
    show p.found + 1 = n
    omega
  | note => exact ⟨fun _ => hp.full (.inr here), nofun, fun _ => rfl, fun _ => .inl rfl⟩
  | stop =>
    have hnoted := hp.noted here
    exact ⟨fun _ => hp.full (.inl hnoted), fun hs _ => absurd (hnoted.symm.trans hs) nofun, nofun,
      fun _ => .inr (.inl rfl)⟩
  | close =>
    exact ⟨fun h => hp.full (h.imp_right nofun), fun hs _ => hwanting hs nofun, nofun,
      fun _ => .inr (.inr rfl)⟩
  | _ =>
    have hsampled := hworking nofun nofun nofun
    refine ⟨?_, fun hs _ => hwanting hs nofun, nofun,
      fun hs => absurd (hsampled.symm.trans hs) nofun⟩
    rintro (h | h)
    · exact absurd (hsampled.symm.trans h) nofun
    · cases h

/-! ## Reasons to stop -/

/-- What is known about the reasons for which a search is told to stop. -/
structure Justified (sample : Option Nat) (p : Pool) : Prop where
  stopped : p.stop = true → p.sampled = true ∨ p.cancelled = true ∨ Quiet p
  leaving : p.controller = .leaving → p.stop = true ∨ p.cancelled = true ∨ Quiet p
  left : p.controller = .gone → p.stop = true
  raised : p.flag = true ∨ p.cancelled = true → p.raised = true
  sampling : Sampling sample p

theorem justified_start (workers : Nat) (drafts : List Draft) (wanted : sample ≠ some 0) :
    Justified sample (start workers drafts) where
  stopped := nofun
  leaving := nofun
  left := nofun
  raised := by rintro (h | h) <;> cases h
  sampling := sampling_start workers drafts wanted

theorem WorkerStep.justified (here : p.workers = left ++ w :: right) (h : WorkerStep a p w p' w')
    (hp : Justified sample p) : Justified sample { p' with workers := left ++ w' :: right } := by
  have hquiet := fun hq : Quiet p => h.quiet here hq
  have hs := hp.sampling
  cases h <;>
    exact ⟨fun hs => (hp.stopped hs).imp_right (Or.imp_right hquiet),
      fun hl => (hp.leaving hl).imp_right (Or.imp_right hquiet), hp.left, hp.raised,
      ⟨hs.full, hs.wanting, hs.noted, hs.leaving⟩⟩

theorem ConsumerStep.justified (here : p.consumer = c) (h : ConsumerStep sample p c p' c')
    (hp : Justified sample p) : Justified sample { p' with consumer := c' } := by
  have hquiet := fun hq : Quiet p => h.quiet here hq
  have hsampling := h.sampling here hp.sampling
  cases h with
  | note =>
    exact ⟨fun _ => .inl rfl, fun hl => (hp.leaving hl).imp_right (Or.imp_right hquiet), hp.left,
      hp.raised, hsampling⟩
  | stop =>
    exact ⟨fun _ => .inl (hp.sampling.noted here), fun _ => .inl rfl, fun _ => rfl, hp.raised,
      hsampling⟩
  | _ =>
    exact ⟨fun hs => (hp.stopped hs).imp_right (Or.imp_right hquiet),
      fun hl => (hp.leaving hl).imp_right (Or.imp_right hquiet), hp.left, hp.raised, hsampling⟩

theorem ControllerStep.justified {c c' : Controller} (here : p.controller = c)
    (h : ControllerStep p c p' c') (hb : Balanced a drafts p) (hp : Justified sample p) :
    Justified sample { p' with controller := c' } := by
  have hquiet : Quiet p → Quiet { p' with controller := c' } := fun hq => by
    cases h <;> exact ⟨hq.queued, hq.idle, hq.sent, hq.consumer, hq.kept⟩
  have hsampling : Sampling sample { p' with controller := c' } := by
    have hs := hp.sampling
    cases h <;> exact ⟨hs.full, hs.wanting, hs.noted, hs.leaving⟩
  cases h with
  | stopped stopped =>
    exact ⟨fun hs => (hp.stopped hs).imp_right (Or.imp_right hquiet), fun _ => .inl stopped,
      nofun, hp.raised, hsampling⟩
  | exhausted none =>
    have hcause : p.stop = true ∨ Quiet p := by
      rcases Bool.eq_false_or_eq_true p.stop with hs | hs
      · exact .inl hs
      · exact .inr (hb.quiet hs none)
    exact ⟨fun hs => (hp.stopped hs).imp_right (Or.imp_right hquiet),
      fun _ => hcause.imp_right fun hq => .inr (hquiet hq), nofun, hp.raised, hsampling⟩
  | cancel raised =>
    exact ⟨fun _ => .inr (.inl rfl), fun _ => .inr (.inl rfl), nofun,
      fun _ => hp.raised (.inl raised), hsampling⟩
  | leave =>
    have hcause : p.sampled = true ∨ p.cancelled = true ∨ Quiet p := by
      rcases hp.leaving here with hs | hs
      · exact hp.stopped hs
      · exact .inr hs
    exact ⟨fun _ => hcause.imp_right (Or.imp_right hquiet), nofun, fun _ => rfl, hp.raised,
      hsampling⟩
  | _ =>
    exact ⟨fun hs => (hp.stopped hs).imp_right (Or.imp_right hquiet), nofun, nofun, hp.raised,
      hsampling⟩

theorem Step.justified (h : Step a sample p q) (hb : Balanced a drafts p)
    (hp : Justified sample p) : Justified sample q := by
  cases h with
  | worker here step => exact step.justified here hp
  | consumer here step => exact step.justified here hp
  | controller here step => exact step.justified here hb hp
  | signal value =>
    have hquiet : Quiet p → Quiet { p with flag := value, raised := p.raised || value } :=
      fun hq => ⟨hq.queued, hq.idle, hq.sent, hq.consumer, hq.kept⟩
    have hs := hp.sampling
    refine ⟨fun hs => (hp.stopped hs).imp_right (Or.imp_right hquiet),
      fun hl => (hp.leaving hl).imp_right (Or.imp_right hquiet), hp.left, ?_,
      ⟨hs.full, hs.wanting, hs.noted, hs.leaving⟩⟩
    rintro (hv | hc)
    · exact Bool.or_eq_true_iff.2 (.inr hv)
    · exact Bool.or_eq_true_iff.2 (.inl (hp.raised (.inr hc)))

theorem Reachable.justified (wanted : sample ≠ some 0)
    (h : Reachable a sample workers drafts p) : Justified sample p := by
  induction h with
  | start => exact justified_start workers drafts wanted
  | step reached next ih => exact next.justified reached.balanced ih

/-! ## Ended searches -/

theorem Over.uncounted (h : p.Over) : p.consumer.uncounted = 0 := by rw [h.2.1]; rfl

theorem Ended.handled_subperm (hroots : a.RootsOpen) (h : Ended a workers drafts sample p) :
    p.handled.Subperm ((drafts.flatMap a.searchTree).filter a.completes) := by
  cases h with
  | unbegun => exact List.nil_subperm
  | begun _ reached _ => exact reached.balanced.handled_subperm hroots

theorem Ended.found_eq_length (h : Ended a workers drafts sample p) :
    p.found = p.handled.length := by
  cases h with
  | unbegun => rfl
  | begun _ reached ended =>
    have := reached.balanced.found
    rwa [ended.uncounted] at this

/-- A search that was neither sampled nor given up has been stopped because it was quiet. -/
theorem Ended.perm_searchTree (hroots : a.RootsOpen) (h : Ended a workers drafts sample p)
    (hsampled : p.sampled = false) (hcancelled : p.cancelled = false) :
    p.taken.Perm (drafts.flatMap a.searchTree) ∧
      p.handled.Perm ((drafts.flatMap a.searchTree).filter a.completes) := by
  cases h with
  | unbegun => cases hsampled
  | begun wanted reached ended =>
    have hj := reached.justified wanted
    rcases hj.stopped (hj.left ended.2.2) with hs | hc | hq
    · exact absurd (hsampled.symm.trans hs) nofun
    · exact absurd (hcancelled.symm.trans hc) nofun
    · exact ⟨reached.balanced.taken_perm_of_quiet hroots hq,
        reached.balanced.handled_perm_of_quiet hroots hq⟩

theorem Ended.handled_perm (hroots : a.RootsOpen) (h : Ended a workers drafts sample p)
    (hsampled : p.sampled = false) (hcancelled : p.cancelled = false) :
    p.handled.Perm ((drafts.flatMap a.searchTree).filter a.completes) :=
  (h.perm_searchTree hroots hsampled hcancelled).2

/-- The sample is full exactly if the search says so. -/
theorem Ended.sampled_cases (h : Ended a workers drafts sample p) :
    (p.sampled = true ∧ ∃ n ∈ sample, p.found = n) ∨
      (p.sampled = false ∧ ∀ n ∈ sample, p.found < n) := by
  cases h with
  | unbegun => exact .inl ⟨rfl, 0, rfl, rfl⟩
  | begun wanted reached ended =>
    have hs := (reached.justified wanted).sampling
    rcases Bool.eq_false_or_eq_true p.sampled with hsampled | hsampled
    · exact .inl ⟨hsampled, hs.full (.inl hsampled)⟩
    · exact .inr ⟨hsampled, hs.wanting hsampled (by rw [ended.2.1]; nofun)⟩

/-- However a search ends, the caller has been given part of what an exhaustive one finds, and as
much as it wanted unless it gave up.  If the search was neither sampled nor given up, it was all.
What `Automaton.run` does is one of the ways in which a search may end. -/
theorem found_eq_min_of_ended (hroots : a.RootsOpen) (h : Ended a workers drafts sample p) :
    p.handled.Subperm (a.run drafts ⟨none, false⟩).completed ∧
      p.found = p.handled.length ∧
      (p.cancelled = false → ∀ n ∈ sample,
        p.found = min n (a.run drafts ⟨none, false⟩).completed.length ∧
          (p.sampled = true ↔ n ≤ (a.run drafts ⟨none, false⟩).completed.length)) ∧
      (sample = some 0 → p.taken = [] ∧ p.handled = [] ∧ p.sampled = true) ∧
      (sample = none → p.sampled = false) ∧
      (p.sampled = false → p.cancelled = false →
        p.handled.Perm (a.run drafts ⟨none, false⟩).completed) ∧
      (p.cancelled = true → p.raised = true) ∧
      ∀ cancelOnResult, ∃ q, Ended a workers drafts sample q ∧
        q.handled.reverse = (a.run drafts ⟨sample, cancelOnResult⟩).completed ∧
        q.taken.length = (a.run drafts ⟨sample, cancelOnResult⟩).expanded ∧
        q.sampled = (a.run drafts ⟨sample, cancelOnResult⟩).sampled ∧
        q.cancelled = (a.run drafts ⟨sample, cancelOnResult⟩).cancelled := by
  have hall : (a.run drafts ⟨none, false⟩).completed =
      (drafts.flatMap a.searchTree).filter a.completes := Automaton.completed_run hroots drafts _
  rw [hall]
  have hsub := h.handled_subperm hroots
  have hfound := h.found_eq_length
  refine ⟨hsub, hfound, ?_, ?_, ?_, h.handled_perm hroots, ?_,
    fun cancelOnResult => exists_ended_run hroots workers drafts ⟨sample, cancelOnResult⟩⟩
  · intro hc n hn
    have hle := hsub.length_le
    rcases h.sampled_cases with ⟨hs, m, hm, hfull⟩ | ⟨hs, hless⟩
    · cases Option.mem_unique hn hm
      exact ⟨by omega, fun _ => by omega, fun _ => hs⟩
    · have hlength := (h.handled_perm hroots hs hc).length_eq
      have hless := hless n hn
      exact ⟨by omega, fun h => absurd (hs.symm.trans h) nofun, fun h => absurd h (by omega)⟩
  · rintro rfl
    cases h with
    | unbegun => exact ⟨rfl, rfl, rfl⟩
    | begun wanted => exact absurd rfl wanted
  · rintro rfl
    rcases h.sampled_cases with ⟨-, n, hn, -⟩ | ⟨hs, -⟩
    · cases hn
    · exact hs
  · intro hc
    cases h with
    | unbegun => cases hc
    | begun wanted reached => exact (reached.justified wanted).raised (.inr hc)

open Session in
/-- Two workers send a draft each before the consumer looks at the first one.  That one fills the
sample, and the other one is lost. -/
theorem found_eq_min_of_two_sent :
    ∃ p : Pool, Ended twoWordStates 2 [lastDraft 2, lastDraft 3] (some 1) p ∧
      p.handled = [lastDraft 2] ∧ p.dropped = [lastDraft 3] ∧ p.sampled = true ∧ p.found =
        min 1 (twoWordStates.run [lastDraft 2, lastDraft 3] ⟨none, false⟩).completed.length := by
  have first : ∀ {p p' : Pool} {v w w' : Worker}, p.workers = [] ++ w :: [v] →
      WorkerStep twoWordStates p w p' w' →
      Step twoWordStates (some 1) p { p' with workers := [] ++ w' :: [v] } :=
    fun here step => .worker here step
  have second : ∀ {p p' : Pool} {v w w' : Worker}, p.workers = [v] ++ w :: [] →
      WorkerStep twoWordStates p w p' w' →
      Step twoWordStates (some 1) p { p' with workers := [v] ++ w' :: [] } :=
    fun here step => .worker here step
  have hsent := (.start : Reachable twoWordStates (some 1) 2 [lastDraft 2, lastDraft 3] _)
      |>.step (first rfl (.go rfl))
      |>.step (first rfl (@WorkerStep.take _ _ [] _ _ (lastDraft 2) rfl (.refl _)))
      |>.step (second rfl (.go rfl))
      |>.step (second rfl (@WorkerStep.take _ _ [] _ _ (lastDraft 3) rfl (.refl _)))
      |>.step (first rfl .countComplete)
      |>.step (first rfl (.send nofun))
      |>.step (second rfl .countComplete)
      |>.step (second rfl (.send nofun))
      |>.step (first rfl .finish)
      |>.step (second rfl .finish)
  have hfilled := hsent
      |>.step (.consumer rfl (.receive rfl))
      |>.step (.consumer rfl (.hold rfl))
      |>.step (.consumer rfl .handle)
      |>.step (.consumer rfl (.fill rfl (Nat.le_refl 1)))
      |>.step (.consumer rfl .note)
      |>.step (.consumer rfl .stop)
      |>.step (.consumer rfl .close)
  have hover := hfilled
      |>.step (.controller rfl (.stopped rfl))
      |>.step (.controller rfl .leave)
      |>.step (first rfl (.halt rfl))
      |>.step (second rfl (.halt rfl))
  have hwanted : some 1 ≠ some 0 := by decide
  have hended := Ended.begun hwanted hover ⟨by simp, rfl, rfl⟩
  obtain ⟨-, -, hmin, -⟩ := found_eq_min_of_ended rootsOpen_twoWordStates hended
  exact ⟨_, hended, rfl, rfl, rfl, (hmin rfl 1 rfl).1⟩

end PhraseSearch.Pool
