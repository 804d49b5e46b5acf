import PhraseSearch.Proofs.Search.Traces

/-!
# Phrases of a draft

The phrases of a draft take one spelling from every trie node at which a word ends.  For a draft
with a trace these nodes are where the letters of the trace lead, so its phrases are the sequences
of words that the states of the trace offer for these letters.

    membership in the phrases of a draft                               (mem_phrases_iff)
    no phrase of a draft is there twice                                (nodup_phrases)
    phrases of a traced draft                                          (Traced.mem_phrases_iff)
-/

namespace PhraseSearch

theorem exists_of_forall₂ {α β : Type} {r : α → β → Prop} {l : List α} {m : List β}
    (h : List.Forall₂ r l m) {y : β} (hy : y ∈ m) : ∃ x, r x y := by
  induction h with
  | nil => cases hy
  | cons hxy _ ih =>
    rcases List.mem_cons.1 hy with rfl | hy
    · exact ⟨_, hxy⟩
    · exact ih hy

namespace Draft

/-! ## Reading spellings -/

theorem prepend_of_endsWord {t : Trie} (ht : t.endsWord = true) (phrases : List (List String)) :
    prepend phrases t =
      phrases.flatMap fun phrase => t.spellings.map fun word => word :: phrase := by
  rw [prepend]
  split
  · next hnil => simp [Trie.endsWord, hnil] at ht
  · rfl

theorem mem_foldl_prepend {ends : List Trie} (hends : ∀ t ∈ ends, t.endsWord = true)
    {phrases : List (List String)} {phrase : List String} :
    phrase ∈ ends.foldl prepend phrases ↔
      ∃ words back, phrase = words.reverse ++ back ∧ back ∈ phrases ∧
        List.Forall₂ (fun word t => word ∈ t.spellings) words ends := by
  induction ends generalizing phrases with
  | nil =>
    constructor
    · intro h
      exact ⟨[], phrase, rfl, h, .nil⟩
    · rintro ⟨words, back, rfl, hback, hwords⟩
      cases hwords
      exact hback
  | cons t ends ih =>
    rw [List.foldl_cons, ih fun u hu => hends u (by simp [hu]),
      prepend_of_endsWord (hends t (by simp))]
    constructor
    · rintro ⟨words, back, rfl, hback, hwords⟩
      obtain ⟨rest, hrest, hback⟩ := List.mem_flatMap.1 hback
      obtain ⟨word, hword, rfl⟩ := List.mem_map.1 hback
      exact ⟨word :: words, rest, by simp, hrest, .cons hword hwords⟩
    · rintro ⟨words, back, rfl, hback, hwords⟩
      cases hwords with
      | cons hword hwords =>
        refine ⟨_, _, by rw [List.reverse_cons, List.append_assoc], ?_, hwords⟩
        exact List.mem_flatMap.2 ⟨back, hback, List.mem_map.2 ⟨_, hword, rfl⟩⟩

theorem nodup_foldl_prepend {ends : List Trie} (hends : ∀ t ∈ ends, t.endsWord = true)
    (hspellings : ∀ t ∈ ends, t.spellings.Nodup) {phrases : List (List String)}
    (hphrases : phrases.Nodup) : (ends.foldl prepend phrases).Nodup := by
  induction ends generalizing phrases with
  | nil => exact hphrases
  | cons t ends ih =>
    refine ih (fun u hu => hends u (by simp [hu])) (fun u hu => hspellings u (by simp [hu])) ?_
    rw [prepend_of_endsWord (hends t (by simp))]
    refine List.nodup_flatMap.2 ⟨fun phrase _ => ?_, hphrases.imp fun {p q} hne => ?_⟩
    · exact (hspellings t (by simp)).map fun v w he => (List.cons.inj he).1
    · intro phrase hp hq
      obtain ⟨v, -, rfl⟩ := List.mem_map.1 hp
      obtain ⟨w, -, he⟩ := List.mem_map.1 hq
      exact hne (List.cons.inj he).2.symm

theorem mem_phrases_iff {d : Draft} (hends : ∀ t ∈ d.wordEnds, t.endsWord = true)
    {phrase : List String} :
    phrase ∈ d.phrases ↔
      List.Forall₂ (fun word t => word ∈ t.spellings) phrase.reverse d.wordEnds := by
  rw [phrases, mem_foldl_prepend hends]
  constructor
  · rintro ⟨words, back, rfl, hback, hwords⟩
    rw [List.mem_singleton] at hback
    subst hback
    simpa using hwords
  · intro h
    exact ⟨phrase.reverse, [], by simp, by simp, h⟩

/-- Where a word ends there is one, so there is a phrase. -/
theorem phrases_ne_nil {d : Draft} (hends : ∀ t ∈ d.wordEnds, t.endsWord = true) :
    d.phrases ≠ [] := by
  have hwords : ∀ ends : List Trie, (∀ t ∈ ends, t.endsWord = true) →
      ∃ words, List.Forall₂ (fun word t => word ∈ t.spellings) words ends := by
    intro ends
    induction ends with
    | nil => exact fun _ => ⟨[], .nil⟩
    | cons t ends ih =>
      intro h
      have hne : t.spellings ≠ [] := by simpa [Trie.endsWord] using h t (by simp)
      obtain ⟨word, hword⟩ := List.exists_mem_of_ne_nil _ hne
      obtain ⟨words, hwords⟩ := ih fun u hu => h u (by simp [hu])
      exact ⟨word :: words, .cons hword hwords⟩
  obtain ⟨words, h⟩ := hwords d.wordEnds hends
  rw [← List.reverse_reverse words] at h
  exact List.ne_nil_of_mem ((mem_phrases_iff hends).2 h)

theorem nodup_phrases {d : Draft} (hends : ∀ t ∈ d.wordEnds, t.endsWord = true)
    (hspellings : ∀ t ∈ d.wordEnds, t.spellings.Nodup) : d.phrases.Nodup :=
  nodup_foldl_prepend hends hspellings (List.nodup_singleton [])

theorem wordEnds_eq_cons (d : Draft) : d.wordEnds = d.trie :: d.wordEndsFrom false := by
  cases d <;> rfl

end Draft

namespace Automaton

variable {a : Automaton} {bag : Bag} {alphabet : Alphabet} {lists : WordLists}
  {steps : List (Nat × List Nat)} {d : Draft}

/-! ## Words of a trace -/

/-- Whether the list of a state has a word with these letters, of which there is at least one. -/
def Offers (a : Automaton) (alphabet : Alphabet) (lists : WordLists) (step : Nat × List Nat)
    (word : String) : Prop :=
  ∃ name words, a.list? step.1 = some name ∧ lists.get? name = some words ∧ word ∈ words ∧
    alphabet.spell word = .ok step.2 ∧ step.2 ≠ []

/-- Whether letters lead to a node in the trie of a state. -/
def LeadsTo (a : Automaton) (step : Nat × List Nat) (t : Trie) : Prop :=
  ∃ root, a.trie? step.1 = some root ∧ root.walk step.2 = some t

theorem mem_spellings_iff_offers (hindexed : a.Indexed alphabet lists) {step : Nat × List Nat}
    {t : Trie} (ht : a.LeadsTo step t) {word : String} :
    word ∈ t.spellings ↔ a.Offers alphabet lists step word := by
  obtain ⟨root, hroot, hwalk⟩ := ht
  obtain ⟨name, words, hname, hwords, htrie⟩ := hindexed.trie step.1 root hroot
  rw [← Trie.spellingsAt_of_walk hwalk, Trie.mem_spellingsAt_ofWords htrie]
  constructor
  · rintro ⟨hne, hmem, hspell⟩
    exact ⟨name, words, hname, hwords, hmem, hspell, hne⟩
  · rintro ⟨name', words', hname', hwords', hmem, hspell, hne⟩
    rw [hname] at hname'
    cases hname'
    rw [hwords] at hwords'
    cases hwords'
    exact ⟨hne, hmem, hspell⟩

theorem Offers.spellsWord (hindexed : a.Indexed alphabet lists) {step : Nat × List Nat}
    {word : String} (h : a.Offers alphabet lists step word) : a.SpellsWord step := by
  obtain ⟨name, words, hname, hwords, hmem, hspell, hne⟩ := h
  obtain ⟨root, hroot⟩ := hindexed.bound step.1 name hname
  obtain ⟨name', words', hname', hwords', htrie⟩ := hindexed.trie step.1 root hroot
  rw [hname] at hname'
  cases hname'
  rw [hwords] at hwords'
  cases hwords'
  have hword : word ∈ root.spellingsAt step.2 :=
    (Trie.mem_spellingsAt_ofWords htrie).2 ⟨hne, hmem, hspell⟩
  cases hwalk : root.walk step.2 with
  | none => rw [Trie.spellingsAt, hwalk] at hword; cases hword
  | some found =>
    rw [Trie.spellingsAt_of_walk hwalk] at hword
    refine ⟨hne, root, found, hroot, hwalk, ?_⟩
    rw [Trie.endsWord]
    cases hs : found.spellings with
    | nil => rw [hs] at hword; cases hword
    | cons => rfl

theorem Traced.leadsTo (h : a.Traced bag steps d) :
    List.Forall₂ a.LeadsTo steps (d.trie :: d.wordEndsFrom false) := by
  induction h with
  | start edge bound => exact .cons ⟨_, bound, rfl⟩ .nil
  | @letter state i placed steps d child rest before more branch left ih =>
    cases ih with
    | cons hfirst htail =>
      obtain ⟨root, hroot, hwalk⟩ := hfirst
      refine .cons ⟨root, hroot, ?_⟩ htail
      rw [Trie.walk_append, hwalk, Option.bind_some, Trie.walk_cons, branch]
      rfl
  | @word target steps d root before more ends edge bound ih =>
    refine .cons ⟨root, bound, rfl⟩ ?_
    have htail : (Draft.word d target root).wordEndsFrom false = d.wordEnds := rfl
    rw [htail, Draft.wordEnds_eq_cons]
    exact ih

theorem Traced.endsWord (h : a.Traced bag steps d) (hends : d.trie.endsWord = true) :
    ∀ t ∈ d.wordEnds, t.endsWord = true := by
  have hbefore : ∀ t ∈ d.wordEndsFrom false, t.endsWord = true := by
    clear hends
    induction h with
    | start => exact nofun
    | letter before more branch left ih => exact ih
    | @word target steps d root before more ends edge bound ih =>
      intro t ht
      have htail : (Draft.word d target root).wordEndsFrom false = d.wordEnds := rfl
      rw [htail, Draft.wordEnds_eq_cons] at ht
      rcases List.mem_cons.1 ht with rfl | ht
      · exact ends
      · exact ih t ht
  intro t ht
  rw [Draft.wordEnds_eq_cons] at ht
  rcases List.mem_cons.1 ht with rfl | ht
  · exact hends
  · exact hbefore t ht

theorem forall₂_mem_spellings_iff (hindexed : a.Indexed alphabet lists) {ends : List Trie}
    (hleads : List.Forall₂ a.LeadsTo steps ends) {words : List String} :
    List.Forall₂ (fun word t => word ∈ t.spellings) words ends ↔
      List.Forall₂ (a.Offers alphabet lists) steps words := by
  induction hleads generalizing words with
  | nil =>
    constructor <;>
    · intro hnil
      cases hnil
      exact .nil
  | cons hstep _ ih =>
    constructor
    · intro hwords
      cases hwords with
      | cons hword hwords =>
        exact .cons ((mem_spellings_iff_offers hindexed hstep).1 hword) (ih.1 hwords)
    · intro hoffers
      cases hoffers with
      | cons hoffer hoffers =>
        exact .cons ((mem_spellings_iff_offers hindexed hstep).2 hoffer) (ih.2 hoffers)

theorem Traced.mem_phrases_iff (hindexed : a.Indexed alphabet lists) (h : a.Traced bag steps d)
    (hends : d.trie.endsWord = true) {phrase : List String} :
    phrase ∈ d.phrases ↔ List.Forall₂ (a.Offers alphabet lists) steps phrase.reverse := by
  rw [Draft.mem_phrases_iff (h.endsWord hends), Draft.wordEnds_eq_cons]
  exact forall₂_mem_spellings_iff hindexed h.leadsTo

theorem Traced.nodup_phrases (hindexed : a.Indexed alphabet lists) (h : a.Traced bag steps d)
    (hends : d.trie.endsWord = true) : d.phrases.Nodup := by
  refine Draft.nodup_phrases (h.endsWord hends) fun t ht => ?_
  rw [Draft.wordEnds_eq_cons] at ht
  obtain ⟨step, root, hroot, hwalk⟩ := exists_of_forall₂ h.leadsTo ht
  obtain ⟨name, words, -, -, htrie⟩ := hindexed.trie step.1 root hroot
  rw [← Trie.spellingsAt_of_walk hwalk]
  exact Trie.nodup_spellingsAt_ofWords htrie step.2

end Automaton

end PhraseSearch
