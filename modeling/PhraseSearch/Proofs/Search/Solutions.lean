import PhraseSearch.Proofs.Search.Exploration
import PhraseSearch.Proofs.Search.Phrases

/-!
# Solutions

A solution of a bag of letters is an accepting path with a word for each of its states, such that
the words use up the letters.  The complete drafts of a search are in correspondence with the
traces of solutions, and their phrases with the choices of words, so every solution comes up
exactly once.

    the phrases of the complete drafts, listed by path and words       (exists_solutions)
    nothing where letters of the total are missing          (completeDrafts_eq_nil_of_lt)
-/

namespace PhraseSearch

namespace Automaton

variable {a : Automaton} {bag : Bag} {alphabet : Alphabet} {lists : WordLists}
  {letters : List Nat} {steps : List (Nat × List Nat)} {d : Draft}

/-- Whether words along a path use up some letters: each is in the list of its state, has a letter,
and all together are spelled by a permutation of the letters. -/
structure Solves (a : Automaton) (alphabet : Alphabet) (lists : WordLists) (letters : List Nat)
    (path : List Nat) (words : List String) : Prop where
  nonempty : words ≠ []
  accepting : a.AcceptingPath path
  listed : List.Forall₂ (fun state word => ∃ name list, a.list? state = some name ∧
    lists.get? name = some list ∧ word ∈ list) path words
  spelled : ∃ spellings, List.Forall₂ (fun word spelling => alphabet.spell word = .ok spelling ∧
    spelling ≠ []) words spellings ∧ spellings.flatten.Perm letters

/-! ## Solutions as traces -/

theorem forall₂_offers_zip {path : List Nat} {words : List String} {spellings : List (List Nat)}
    (hlisted : List.Forall₂ (fun state word => ∃ name list, a.list? state = some name ∧
      lists.get? name = some list ∧ word ∈ list) path words)
    (hspelled : List.Forall₂ (fun word spelling => alphabet.spell word = .ok spelling ∧
      spelling ≠ []) words spellings) :
    List.Forall₂ (a.Offers alphabet lists) (path.zip spellings) words := by
  induction hlisted generalizing spellings with
  | nil =>
    cases hspelled
    exact .nil
  | cons hword _ ih =>
    cases hspelled with
    | cons hspelling hspelled =>
      obtain ⟨name, list, hname, hlist, hmem⟩ := hword
      exact .cons ⟨name, list, hname, hlist, hmem, hspelling.1, hspelling.2⟩ (ih hspelled)

theorem solves_iff_steps {path : List Nat} {words : List String} :
    a.Solves alphabet lists letters path words ↔
      ∃ steps, path = (steps.map Prod.fst).reverse ∧ a.AcceptingPath path ∧ words ≠ [] ∧
        List.Forall₂ (a.Offers alphabet lists) steps words.reverse ∧
        (placedLetters steps).Perm letters := by
  constructor
  · rintro ⟨hne, haccept, hlisted, spellings, hspelled, hperm⟩
    have hlen : path.length = spellings.length :=
      hlisted.length_eq.trans hspelled.length_eq
    have hletters : placedLetters (path.zip spellings) = spellings.flatten := by
      rw [placedLetters, List.flatMap_def, List.map_snd_zip (by omega)]
    refine ⟨(path.zip spellings).reverse, ?_, haccept, hne, ?_, ?_⟩
    · rw [List.map_reverse, List.reverse_reverse, List.map_fst_zip (by omega)]
    · exact List.forall₂_reverse_iff.2 (forall₂_offers_zip hlisted hspelled)
    · have hreverse := (List.reverse_perm (path.zip spellings)).flatMap_right Prod.snd
      exact hreverse.trans ((List.Perm.of_eq hletters).trans hperm)
  · rintro ⟨steps, rfl, haccept, hne, hoffers, hperm⟩
    have hoffers : List.Forall₂ (a.Offers alphabet lists) steps.reverse words := by
      rw [← List.forall₂_reverse_iff, List.reverse_reverse]
      exact hoffers
    refine ⟨hne, haccept, ?_, steps.reverse.map Prod.snd, ?_, ?_⟩
    · rw [← List.map_reverse, List.forall₂_map_left_iff]
      refine hoffers.imp ?_
      rintro step word ⟨name, list, hname, hlist, hmem, -, -⟩
      exact ⟨name, list, hname, hlist, hmem⟩
    · rw [List.forall₂_map_right_iff]
      refine (hoffers.flip).imp ?_
      rintro word step ⟨name, list, -, -, -, hspell, hletters⟩
      exact ⟨hspell, hletters⟩
    · rw [← List.flatMap_def]
      exact ((List.reverse_perm steps).flatMap_right Prod.snd).trans hperm

/-- The states and the words of a trace determine its letters. -/
theorem eq_of_offers {steps' : List (Nat × List Nat)} {words : List String}
    (hstates : steps.map Prod.fst = steps'.map Prod.fst)
    (h : List.Forall₂ (a.Offers alphabet lists) steps words)
    (h' : List.Forall₂ (a.Offers alphabet lists) steps' words) : steps = steps' := by
  induction h generalizing steps' with
  | nil =>
    cases h'
    rfl
  | @cons step word _ _ hoffer _ ih =>
    cases h' with
    | @cons step' _ _ _ hoffer' hoffers' =>
      obtain ⟨-, -, -, -, -, hspell, -⟩ := hoffer
      obtain ⟨-, -, -, -, -, hspell', -⟩ := hoffer'
      obtain ⟨hstate, hstates⟩ := List.cons.inj hstates
      rw [hspell] at hspell'
      rw [ih hstates hoffers', Prod.ext hstate (Except.ok.inj hspell')]

/-! ## Complete drafts -/

theorem completes_iff {d : Draft} :
    a.completes d = true ↔
      d.bag.total = 0 ∧ d.trie.endsWord = true ∧ finish ∈ a.edges d.state := by
  simp [completes, Bag.isEmpty_iff, and_assoc]

/-- The letters of a complete draft's trace are all letters there were, if the bag has no others. -/
theorem Traced.perm_of_completes (hget : ∀ i, bag.get i ≤ letters.count i)
    (htotal : bag.total = letters.length) (h : a.Traced bag steps d) (hd : d.bag.total = 0) :
    (placedLetters steps).Perm letters := by
  have hsub : List.Subperm (placedLetters steps) letters := by
    rw [List.subperm_ext_iff]
    intro i _
    have hplaced := h.get i
    have hle := hget i
    omega
  refine hsub.perm_of_length_le ?_
  have := h.total
  omega

/-- Offered words along a path to the end are the words of a complete draft. -/
theorem exists_traced_of_offers (hindexed : a.Indexed alphabet lists)
    (hget : ∀ i, bag.get i = letters.count i) (htotal : bag.total = letters.length)
    {words : List String} (hne : words ≠ [])
    (haccept : a.AcceptingPath (steps.map Prod.fst).reverse)
    (hoffers : List.Forall₂ (a.Offers alphabet lists) steps words)
    (hperm : (placedLetters steps).Perm letters) :
    ∃ d, a.Traced bag steps d ∧ a.completes d = true := by
  have hspells : ∀ step ∈ steps.reverse, a.SpellsWord step := by
    intro step hstep
    have hflip : List.Forall₂ (fun word step => a.Offers alphabet lists step word) words steps :=
      hoffers.flip
    obtain ⟨word, hoffer⟩ := exists_of_forall₂ hflip (List.mem_reverse.1 hstep)
    exact hoffer.spellsWord hindexed
  have hreverse : (placedLetters steps.reverse).Perm letters :=
    ((List.reverse_perm steps).flatMap_right Prod.snd).trans hperm
  rw [← List.map_reverse] at haccept
  -- the first word starts the draft, all others extend it
  cases hsteps : steps.reverse with
  | nil =>
    rw [List.reverse_eq_nil_iff] at hsteps
    subst hsteps
    cases hoffers
    exact (hne rfl).elim
  | cons step more =>
    obtain ⟨state, placed⟩ := step
    rw [hsteps] at haccept hspells hreverse
    cases haccept with
    | step edge rest =>
      obtain ⟨-, root, found, bound, hwalk, hfound⟩ := hspells (state, placed) (by simp)
      have hcount : ∀ i, placed.count i + (placedLetters more).count i = bag.get i := by
        intro i
        rw [hget i, ← hreverse.count_eq i]
        simp [placedLetters]
      have hlength : placed.length + (placedLetters more).length = bag.total := by
        rw [htotal, ← hreverse.length_eq]
        simp [placedLetters]
      have hstart : a.Traced bag [(state, [])] (.start root state bag) := .start edge bound
      obtain ⟨e, he, htrie, hstate⟩ := hstart.spell hwalk
        (fun i => by have := hcount i; simp only [Draft.bag]; omega)
        (by simp only [Draft.bag]; omega)
      have hleft : ∀ i, (placedLetters more).count i ≤ e.bag.get i := by
        intro i
        have hi := hcount i
        have := he.get i
        simp only [placedLetters, List.flatMap_cons, List.flatMap_nil, List.append_nil,
          List.nil_append] at this hi ⊢
        omega
      have hleftTotal : (placedLetters more).length ≤ e.bag.total := by
        have := he.total
        simp only [placedLetters, List.flatMap_cons, List.flatMap_nil, List.append_nil,
          List.nil_append] at this hlength ⊢
        omega
      obtain ⟨d, hd, hends, hfinish⟩ := he.extend (by rw [htrie]; exact hfound)
        (by rw [hstate]; exact rest) (fun s hs => hspells s (by simp [hs])) hleft hleftTotal
      have hall : more.reverse ++ [(state, placed)] = steps := by
        rw [← List.reverse_cons, ← hsteps, List.reverse_reverse]
      simp only [List.nil_append] at hd
      rw [hall] at hd
      refine ⟨d, hd, completes_iff.2 ⟨?_, hends, hfinish⟩⟩
      have := hd.total
      have := hperm.length_eq
      omega

/-! ## All solutions -/

/-- The complete drafts of the search for a bag of letters. -/
def completeDrafts (a : Automaton) (bag : Bag) : List Draft :=
  ((a.starts bag).flatMap a.searchTree).filter a.completes

theorem mem_starts_searchTree (hindexed : a.Indexed alphabet lists) :
    d ∈ (a.starts bag).flatMap a.searchTree ↔ ∃ steps, a.Traced bag steps d := by
  rw [List.mem_flatMap, ← descends_iff_traced hindexed]
  refine exists_congr fun start => and_congr_right fun _ => ?_
  exact mem_searchTree_iff hindexed.rootsOpen

theorem mem_completeDrafts (hindexed : a.Indexed alphabet lists) :
    d ∈ a.completeDrafts bag ↔ (∃ steps, a.Traced bag steps d) ∧ a.completes d = true := by
  rw [completeDrafts, List.mem_filter, mem_starts_searchTree hindexed]

/-- A bag that lacks some of the letters in its total is never used up. -/
theorem completeDrafts_eq_nil_of_lt (hindexed : a.Indexed alphabet lists)
    (hget : ∀ i, bag.get i ≤ letters.count i) (htotal : bag.total = letters.length) {i : Nat}
    (hlt : bag.get i < letters.count i) : a.completeDrafts bag = [] := by
  refine List.eq_nil_iff_forall_not_mem.2 fun d hd => ?_
  obtain ⟨⟨steps, h⟩, hcompletes⟩ := (mem_completeDrafts hindexed).1 hd
  have hperm := h.perm_of_completes hget htotal (completes_iff.1 hcompletes).1
  have hplaced := h.get i
  have hcount := hperm.count_eq i
  omega

/-- A search comes to no draft twice. -/
theorem nodup_starts_searchTree (hindexed : a.Indexed alphabet lists) :
    ((a.starts bag).flatMap a.searchTree).Nodup := by
  have hroots := hindexed.rootsOpen
  -- one budget fits all starts, since they have the same letters left
  obtain ⟨budget, hfits, htree⟩ : ∃ budget, (∀ s ∈ a.starts bag, a.Fits budget s) ∧
      (a.starts bag).flatMap a.searchTree = (a.starts bag).flatMap (a.tree budget) := by
    refine ⟨(bag.total + 0 + 1) * (a.size + 1), ?_, ?_⟩
    · intro s hs
      obtain ⟨target, -, root, -, rfl⟩ := mem_starts.1 hs
      exact fits_budgetOf hroots 0 (.start root target bag)
    · rw [List.flatMap_def, List.flatMap_def]
      congr 1
      refine List.map_congr_left fun s hs => ?_
      obtain ⟨target, -, root, -, rfl⟩ := mem_starts.1 hs
      rfl
  rw [htree]
  refine nodup_flatMap_tree 0 hfits ?_ (nodup_starts hindexed) ?_
  · intro s hs
    obtain ⟨target, -, root, -, rfl⟩ := mem_starts.1 hs
    rfl
  · intro s hs
    refine (hfits s hs).nodup_tree fun e he => ?_
    obtain ⟨steps, h⟩ := (descends_iff_traced hindexed).1 ⟨s, hs, he⟩
    exact nodup_successors hindexed h

theorem nodup_completeDrafts (hindexed : a.Indexed alphabet lists) :
    (a.completeDrafts bag).Nodup :=
  (nodup_starts_searchTree hindexed).filter _

/-- The phrases of the complete drafts are those of all solutions, each solution counted once. -/
theorem exists_solutions (hindexed : a.Indexed alphabet lists)
    (hget : ∀ i, bag.get i = letters.count i) (htotal : bag.total = letters.length) :
    ∃ solutions : List (List Nat × List String), solutions.Nodup ∧
      (∀ path words, (path, words) ∈ solutions ↔ a.Solves alphabet lists letters path words) ∧
      (a.completeDrafts bag).flatMap Draft.phrases = solutions.map Prod.snd := by
  refine ⟨(a.completeDrafts bag).flatMap fun d => d.phrases.map fun words => (d.statePath, words),
    ?_, ?_, ?_⟩
  · refine List.nodup_flatMap.2 ⟨fun d hd => ?_, ?_⟩
    · obtain ⟨⟨steps, h⟩, hcompletes⟩ := (mem_completeDrafts hindexed).1 hd
      refine (h.nodup_phrases hindexed (completes_iff.1 hcompletes).2.1).map fun v w he => ?_
      exact (Prod.mk.inj he).2
    · refine List.Pairwise.imp_of_mem ?_ (nodup_completeDrafts hindexed)
      intro d e hd he hne x hxd hxe
      obtain ⟨⟨steps, h⟩, hcompletes⟩ := (mem_completeDrafts hindexed).1 hd
      obtain ⟨⟨steps', h'⟩, hcompletes'⟩ := (mem_completeDrafts hindexed).1 he
      obtain ⟨words, hwords, rfl⟩ := List.mem_map.1 hxd
      obtain ⟨words', hwords', heq⟩ := List.mem_map.1 hxe
      obtain ⟨hpath, rfl⟩ := Prod.mk.inj heq
      -- one path and one sequence of words have one trace, and that has one draft
      have hoffers := (h.mem_phrases_iff hindexed (completes_iff.1 hcompletes).2.1).1 hwords
      have hoffers' := (h'.mem_phrases_iff hindexed (completes_iff.1 hcompletes').2.1).1 hwords'
      rw [h.statePath_eq, h'.statePath_eq, List.reverse_inj] at hpath
      have hsteps : steps = steps' := eq_of_offers hpath.symm hoffers hoffers'
      subst hsteps
      exact hne (h.unique h')
  · intro path words
    rw [solves_iff_steps, List.mem_flatMap]
    constructor
    · rintro ⟨d, hd, hmem⟩
      obtain ⟨⟨steps, h⟩, hcompletes⟩ := (mem_completeDrafts hindexed).1 hd
      obtain ⟨htotal0, hends, hfinish⟩ := completes_iff.1 hcompletes
      obtain ⟨words', hwords, heq⟩ := List.mem_map.1 hmem
      obtain ⟨rfl, rfl⟩ := Prod.mk.inj heq
      have hoffers := (h.mem_phrases_iff hindexed hends).1 hwords
      obtain ⟨between, hbetween, hpath⟩ := h.path
      refine ⟨steps, h.statePath_eq, ?_, ?_, hoffers,
        h.perm_of_completes (fun i => Nat.le_of_eq (hget i)) htotal htotal0⟩
      · rw [hbetween]
        exact hpath.append (.last hfinish)
      · intro hnil
        subst hnil
        obtain ⟨placed, rest, root, hsteps, -⟩ := h.at_last
        subst hsteps
        cases hoffers
    · rintro ⟨steps, rfl, haccept, hne, hoffers, hperm⟩
      have hne : words.reverse ≠ [] := by simpa using hne
      obtain ⟨d, h, hcompletes⟩ :=
        exists_traced_of_offers hindexed hget htotal hne haccept hoffers hperm
      refine ⟨d, (mem_completeDrafts hindexed).2 ⟨⟨steps, h⟩, hcompletes⟩, ?_⟩
      refine List.mem_map.2 ⟨words, ?_, by rw [h.statePath_eq]⟩
      exact (h.mem_phrases_iff hindexed (completes_iff.1 hcompletes).2.1).2 hoffers
  · rw [List.map_flatMap]
    congr 1
    funext d
    simp [List.map_map, Function.comp_def]

end Automaton

end PhraseSearch
