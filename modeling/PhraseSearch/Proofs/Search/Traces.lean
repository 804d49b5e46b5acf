import PhraseSearch.Proofs.Automaton.Binding
import PhraseSearch.Proofs.Search.Tree

/-!
# Traces of drafts

A draft has a *trace*: the states it went through, each with the letters placed there, the last
state first.  In an indexed automaton the trace says everything: no two drafts have the same one,
the letters of a trace and those left make up the phrase, and every sequence of words along a path
that uses no more letters than there are is the trace of a draft.

    what a search comes to has a trace, and conversely                 (descends_iff_traced)
    drafts with one trace are equal                                    (Traced.unique)
    placed letters and letters left                                    (Traced.total, Traced.get)
    every affordable path of words has a draft                         (Traced.extend)
-/

namespace PhraseSearch

/-- The states that a draft went through, in order. -/
def Draft.statePath : Draft → List Nat
  | .start _ state _ => [state]
  | .letter previous _ _ => previous.statePath
  | .word previous state _ => previous.statePath ++ [state]

namespace Automaton

/-- Whether a search for a bag of letters comes to a draft by placing these letters in words of
these states; the last state comes first. -/
inductive Traced (a : Automaton) (bag : Bag) : List (Nat × List Nat) → Draft → Prop
  | start {target : Nat} {root : Trie} (edge : target ∈ a.edges start)
      (bound : a.trie? target = some root) :
      Traced a bag [(target, [])] (.start root target bag)
  | letter {state i : Nat} {placed : List Nat} {steps : List (Nat × List Nat)} {d : Draft}
      {child : Trie} {rest : Bag} (before : Traced a bag ((state, placed) :: steps) d)
      (more : d.bag.isEmpty = false) (branch : d.trie.child? i = some child)
      (left : d.bag.remove? i = some rest) :
      Traced a bag ((state, placed ++ [i]) :: steps) (.letter d child rest)
  | word {target : Nat} {steps : List (Nat × List Nat)} {d : Draft} {root : Trie}
      (before : Traced a bag steps d) (more : d.bag.isEmpty = false)
      (ends : d.trie.endsWord = true) (edge : target ∈ a.edges d.state)
      (bound : a.trie? target = some root) :
      Traced a bag ((target, []) :: steps) (.word d target root)

/-- The letters of a trace. -/
def placedLetters (steps : List (Nat × List Nat)) : List Nat := steps.flatMap Prod.snd

variable {a : Automaton} {bag : Bag} {alphabet : Alphabet} {lists : WordLists}
  {steps : List (Nat × List Nat)} {d e : Draft}

/-! ## What a trace says -/

/-- The draft stands where the letters of its last state lead in the trie of that state. -/
theorem Traced.at_last (h : a.Traced bag steps d) :
    ∃ placed rest root, steps = (d.state, placed) :: rest ∧ a.trie? d.state = some root ∧
      root.walk placed = some d.trie := by
  induction h with
  | start edge bound => exact ⟨[], [], _, rfl, bound, rfl⟩
  | letter before more branch left ih =>
    obtain ⟨placed, rest, root, hsteps, hroot, hwalk⟩ := ih
    cases hsteps
    refine ⟨_, _, root, rfl, hroot, ?_⟩
    rw [Trie.walk_append, hwalk, Option.bind_some, Trie.walk_cons, branch]
    rfl
  | word before more ends edge bound ih => exact ⟨[], _, _, rfl, bound, rfl⟩

theorem Traced.unique (h : a.Traced bag steps d) (h' : a.Traced bag steps e) : d = e := by
  induction h generalizing e with
  | @start target root edge bound =>
    generalize hsteps : [(target, [])] = all at h'
    cases h' with
    | start edge' bound' => cases hsteps; rw [bound] at bound'; cases bound'; rfl
    | letter => simp at hsteps
    | word before => cases hsteps; cases before
  | @letter state i placed steps d child rest before more branch left ih =>
    generalize hsteps : (state, placed ++ [i]) :: steps = all at h'
    cases h' with
    | start => simp at hsteps
    | @letter state' i' placed' steps' d' child' rest' before' more' branch' left' =>
      simp only [List.cons.injEq, Prod.mk.injEq] at hsteps
      obtain ⟨⟨rfl, hplaced⟩, rfl⟩ := hsteps
      obtain ⟨rfl, hi⟩ := List.append_inj' hplaced rfl
      cases hi
      obtain rfl := ih before'
      rw [branch] at branch'
      rw [left] at left'
      cases branch'
      cases left'
      rfl
    | word => simp at hsteps
  | @word target steps d root before more ends edge bound ih =>
    generalize hsteps : (target, []) :: steps = all at h'
    cases h' with
    | start => cases hsteps; cases before
    | letter => simp at hsteps
    | word before' more' ends' edge' bound' =>
      cases hsteps
      obtain rfl := ih before'
      rw [bound] at bound'
      cases bound'
      rfl

theorem Traced.statePath_eq (h : a.Traced bag steps d) :
    d.statePath = (steps.map Prod.fst).reverse := by
  induction h with
  | start => rfl
  | letter before more branch left ih => simpa [Draft.statePath] using ih
  | word before more ends edge bound ih => simp [Draft.statePath, ih]

/-- The states of a trace lie on a path from the start. -/
theorem Traced.path (h : a.Traced bag steps d) :
    ∃ between, d.statePath = between ++ [d.state] ∧ a.Path Automaton.start between d.state := by
  induction h with
  | start edge bound => exact ⟨[], rfl, .last edge⟩
  | letter before more branch left ih => exact ih
  | word before more ends edge bound ih =>
    obtain ⟨between, hpath, hbetween⟩ := ih
    exact ⟨between ++ [_], by rw [Draft.statePath, hpath]; rfl, hbetween.append (.last edge)⟩

/-! ## Letters of a trace -/

theorem pos_total_of_isEmpty {bag : Bag} (h : bag.isEmpty = false) : 0 < bag.total := by
  apply Nat.pos_of_ne_zero
  intro hzero
  rw [Bag.isEmpty_iff.2 hzero] at h
  cases h

theorem isEmpty_of_pos_total {bag : Bag} (h : 0 < bag.total) : bag.isEmpty = false := by
  rw [Bag.isEmpty, beq_eq_false_iff_ne]
  omega

theorem Traced.total (h : a.Traced bag steps d) :
    d.bag.total + (placedLetters steps).length = bag.total := by
  induction h with
  | start => simp [Draft.bag, placedLetters]
  | letter before more branch left ih =>
    have hpos := pos_total_of_isEmpty more
    have htotal := Bag.total_of_remove? left
    simp only [placedLetters, List.flatMap_cons, List.length_append, List.length_cons,
      List.length_nil, Draft.bag] at ih ⊢
    omega
  | word before more ends edge bound ih => simpa [Draft.bag, placedLetters] using ih

theorem Traced.get (h : a.Traced bag steps d) (j : Nat) :
    d.bag.get j + (placedLetters steps).count j = bag.get j := by
  induction h with
  | start => simp [Draft.bag, placedLetters]
  | @letter state i placed steps d child rest before more branch left ih =>
    have hget := Bag.get_add_of_remove? left j
    have hcount := Bag.count_cons_eq i j []
    simp only [placedLetters, List.flatMap_cons, List.count_append, List.count_nil,
      Draft.bag] at ih hcount ⊢
    omega
  | word before more ends edge bound ih => simpa [Draft.bag, placedLetters] using ih

/-! ## Traces and searches -/

theorem Traced.of_mem_successors (h : a.Traced bag steps d) (he : e ∈ a.successors d) :
    ∃ steps', a.Traced bag steps' e := by
  obtain ⟨more, hnext⟩ := mem_successors.1 he
  obtain ⟨placed, rest, root, rfl, -, -⟩ := h.at_last
  rcases hnext with hletter | hword
  · obtain ⟨i, -, child, left, branch, hleft, rfl⟩ := mem_nextLetters.1 hletter
    exact ⟨_, .letter h more branch hleft⟩
  · obtain ⟨ends, target, edge, root, bound, rfl⟩ := mem_nextWords.1 hword
    exact ⟨_, .word h more ends edge bound⟩

theorem mem_starts {start : Draft} :
    start ∈ a.starts bag ↔ ∃ target ∈ a.edges Automaton.start, ∃ root,
      a.trie? target = some root ∧ start = .start root target bag := by
  simp [starts, List.mem_filterMap, Option.map_eq_some_iff, eq_comm (b := start)]

/-- The jumps of a node that a search comes to are the letters that have a branch. -/
theorem Traced.jumps (hindexed : a.Indexed alphabet lists) (h : a.Traced bag steps d) :
    d.trie.jumps.Pairwise (· < ·) ∧
      ∀ i, i ∈ d.trie.jumps ↔ (d.trie.child? i).isSome = true := by
  obtain ⟨placed, rest, root, -, hroot, hwalk⟩ := h.at_last
  obtain ⟨name, words, -, -, hwords⟩ := hindexed.trie d.state root hroot
  exact Trie.jumps_ofWords hwords hwalk

theorem Traced.descends (hindexed : a.Indexed alphabet lists) (h : a.Traced bag steps d) :
    ∃ start ∈ a.starts bag, a.Descends start d := by
  induction h with
  | start edge bound => exact ⟨_, mem_starts.2 ⟨_, edge, _, bound, rfl⟩, .refl _⟩
  | @letter state i placed steps d child rest before more branch left ih =>
    obtain ⟨start, hstart, hdesc⟩ := ih
    have hjump : i ∈ d.trie.jumps := ((before.jumps hindexed).2 i).2 (by rw [branch]; rfl)
    refine ⟨start, hstart, hdesc.snoc (mem_successors.2 ⟨more, .inl ?_⟩)⟩
    exact mem_nextLetters.2 ⟨i, hjump, child, rest, branch, left, rfl⟩
  | @word target steps d root before more ends edge bound ih =>
    obtain ⟨start, hstart, hdesc⟩ := ih
    refine ⟨start, hstart, hdesc.snoc (mem_successors.2 ⟨more, .inr ?_⟩)⟩
    exact mem_nextWords.2 ⟨ends, target, edge, root, bound, rfl⟩

theorem Descends.traced (h : a.Descends d e) (hd : a.Traced bag steps d) :
    ∃ steps', a.Traced bag steps' e := by
  induction h generalizing steps with
  | refl => exact ⟨steps, hd⟩
  | step first _ ih =>
    obtain ⟨steps', hnext⟩ := hd.of_mem_successors first
    exact ih hnext

theorem descends_iff_traced (hindexed : a.Indexed alphabet lists) :
    (∃ start ∈ a.starts bag, a.Descends start d) ↔ ∃ steps, a.Traced bag steps d := by
  constructor
  · rintro ⟨start, hstart, hdesc⟩
    obtain ⟨target, edge, root, bound, rfl⟩ := mem_starts.1 hstart
    exact hdesc.traced (.start edge bound)
  · rintro ⟨steps, h⟩
    exact h.descends hindexed

/-! ## Every search state is met once -/

theorem remove?_inj {bag rest : Bag} {i j : Nat} (hi : bag.remove? i = some rest)
    (hj : bag.remove? j = some rest) : i = j := by
  apply Classical.byContradiction
  intro hne
  have hget := Bag.get_add_of_remove? hi i
  rw [if_pos rfl] at hget
  have hget' := Bag.get_add_of_remove? hj i
  rw [if_neg hne] at hget'
  omega

theorem nodup_successors (hindexed : a.Indexed alphabet lists) (h : a.Traced bag steps d) :
    (a.successors d).Nodup := by
  rw [successors]
  split
  · exact List.nodup_nil
  · have hjumps : d.trie.jumps.Nodup := (h.jumps hindexed).1.imp fun hlt => Nat.ne_of_lt hlt
    refine List.nodup_append.2 ⟨?_, ?_, ?_⟩
    · refine hjumps.filterMap fun i j f hi hj => ?_
      cases hremove : d.bag.remove? i with
      | none => simp [hremove] at hi
      | some rest =>
        cases hremove' : d.bag.remove? j with
        | none => simp [hremove'] at hj
        | some rest' =>
          simp only [hremove, hremove', Option.mem_def, Option.map_eq_some_iff] at hi hj
          obtain ⟨child, -, rfl⟩ := hi
          obtain ⟨child', -, he⟩ := hj
          cases he
          exact remove?_inj hremove hremove'
    · rw [nextWords]
      split
      · refine (hindexed.edges_nodup d.state).filterMap fun s t f hs ht => ?_
        simp only [Option.mem_def, Option.map_eq_some_iff] at hs ht
        obtain ⟨root, -, rfl⟩ := hs
        obtain ⟨root', -, he⟩ := ht
        cases he
        rfl
      · exact List.nodup_nil
    · intro f hf g hg he
      obtain ⟨i, -, child, rest, -, -, rfl⟩ := mem_nextLetters.1 hf
      obtain ⟨-, target, -, root, -, rfl⟩ := mem_nextWords.1 hg
      cases he

theorem nodup_starts (hindexed : a.Indexed alphabet lists) : (a.starts bag).Nodup := by
  refine (hindexed.edges_nodup start).filterMap fun s t f hs ht => ?_
  simp only [Option.mem_def, Option.map_eq_some_iff] at hs ht
  obtain ⟨root, -, rfl⟩ := hs
  obtain ⟨root', -, he⟩ := ht
  cases he
  rfl

/-! ## Drafts for given words -/

/-- Letters that are left and have branches one after the other can be placed. -/
theorem Traced.spell {state : Nat} {placed : List Nat} {found : Trie} {letters : List Nat}
    (h : a.Traced bag ((state, placed) :: steps) d) (hwalk : d.trie.walk letters = some found)
    (hget : ∀ i, letters.count i ≤ d.bag.get i) (htotal : letters.length ≤ d.bag.total) :
    ∃ e, a.Traced bag ((state, placed ++ letters) :: steps) e ∧ e.trie = found ∧
      e.state = d.state := by
  induction letters generalizing placed d with
  | nil =>
    cases hwalk
    exact ⟨d, by simpa using h, rfl, rfl⟩
  | cons i letters ih =>
    obtain ⟨child, branch, hwalk⟩ := Option.bind_eq_some_iff.1 hwalk
    have hi : 0 < d.bag.get i := by
      have := hget i
      rw [List.count_cons_self] at this
      omega
    obtain ⟨rest, left⟩ := Option.isSome_iff_exists.1 (Bag.isSome_remove?.2 hi)
    rw [List.length_cons] at htotal
    have hnext := Traced.letter h (isEmpty_of_pos_total (by omega)) branch left
    have hrest : ∀ j, letters.count j ≤ rest.get j := by
      intro j
      have hj := hget j
      rw [Bag.count_cons_eq] at hj
      have hbag := Bag.get_add_of_remove? left j
      omega
    have hlen : letters.length ≤ rest.total := by
      rw [Bag.total_of_remove? left]
      omega
    obtain ⟨e, he, htrie, hstate⟩ := ih hnext hwalk hrest hlen
    rw [List.append_assoc] at he
    exact ⟨e, he, htrie, hstate⟩

/-- Whether the letters lead to the end of a word in the trie of the state. -/
def SpellsWord (a : Automaton) (step : Nat × List Nat) : Prop :=
  step.2 ≠ [] ∧ ∃ root found, a.trie? step.1 = some root ∧ root.walk step.2 = some found ∧
    found.endsWord = true

/-- After a word, words along a path to the end can be placed if there are letters enough. -/
theorem Traced.extend {more : List (Nat × List Nat)} (h : a.Traced bag steps d)
    (ends : d.trie.endsWord = true) (hpath : a.Path d.state (more.map Prod.fst) finish)
    (hwords : ∀ step ∈ more, a.SpellsWord step)
    (hget : ∀ i, (placedLetters more).count i ≤ d.bag.get i)
    (htotal : (placedLetters more).length ≤ d.bag.total) :
    ∃ e, a.Traced bag (more.reverse ++ steps) e ∧ e.trie.endsWord = true ∧
      finish ∈ a.edges e.state := by
  induction more generalizing steps d with
  | nil =>
    cases hpath with
    | last edge => exact ⟨d, h, ends, edge⟩
  | cons step more ih =>
    obtain ⟨state, letters⟩ := step
    cases hpath with
    | step edge rest =>
      obtain ⟨hne, root, found, bound, hwalk, hfound⟩ := hwords (state, letters) (by simp)
      simp only [placedLetters, List.flatMap_cons, List.count_append, List.length_append]
        at hget htotal
      have hpos : 0 < letters.length := List.length_pos_iff.2 hne
      have hnext := Traced.word h (isEmpty_of_pos_total (by omega)) ends edge bound
      have hletters : ∀ i, letters.count i ≤ (Draft.word d state root).bag.get i := by
        intro i
        have := hget i
        simp only [Draft.bag]
        omega
      have hlen : letters.length ≤ (Draft.word d state root).bag.total := by
        simp only [Draft.bag]
        omega
      obtain ⟨e, he, htrie, hstate⟩ := hnext.spell hwalk hletters hlen
      -- what is left after the word is still enough for those that follow
      have hleft : ∀ i, (placedLetters more).count i ≤ e.bag.get i := by
        intro i
        have hbefore := h.get i
        have hafter := he.get i
        have := hget i
        simp only [placedLetters, List.flatMap_cons, List.count_append, List.nil_append]
          at hafter hbefore ⊢
        omega
      have hleftTotal : (placedLetters more).length ≤ e.bag.total := by
        have hbefore := h.total
        have hafter := he.total
        simp only [placedLetters, List.flatMap_cons, List.length_append, List.nil_append]
          at hafter hbefore ⊢
        omega
      obtain ⟨f, hf, hends, hfinish⟩ := ih he (by rw [htrie]; exact hfound)
        (by rw [hstate]; exact rest) (fun s hs => hwords s (by simp [hs])) hleft hleftTotal
      refine ⟨f, ?_, hends, hfinish⟩
      simpa using hf

end Automaton

end PhraseSearch
