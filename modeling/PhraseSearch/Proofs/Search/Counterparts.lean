import Mathlib.Combinatorics.Enumerative.DoubleCounting
import PhraseSearch.Proofs.Letter.Agreement
import PhraseSearch.Proofs.Search.Solutions

/-!
# Searches with two alphabets

Two automata with the same states and edges, bound to tries of the same lists, may have been made
with different alphabets.  The same letters then have different indices, and branches stand in a
different order; but a search of one of them comes to a draft just if a search of the other comes
to one whose trace places the same letters at the same states.  So both expand as many drafts, and
as many of these are complete.

    every trace has a counterpart                                      (Traced.exists_counterpart)
    counterparts have the same letters left, and end words alike       (Counterparts.draft)
    both searches expand as many drafts, and hand over as many         (Counterparts.length_eq,
                                                                       length_completeDrafts_eq)
-/

namespace PhraseSearch

open Alphabet

/-- A list is not longer than another one if there is something in that for each of its members, and
for no two of them the same. -/
theorem length_le_of_leftUnique {α β : Type} {l : List α} {m : List β} {r : α → β → Prop}
    (hl : l.Nodup) (hr : Relator.LeftUnique r) (h : ∀ x ∈ l, ∃ y ∈ m, r x y) :
    l.length ≤ m.length := by
  classical
  have hcard : l.toFinset.card ≤ m.toFinset.card := by
    refine Finset.card_le_card_of_forall_subsingleton r (fun x hx => ?_) fun y _ x hx x' hx' => ?_
    · obtain ⟨y, hy, hxy⟩ := h x (List.mem_toFinset.1 hx)
      exact ⟨y, List.mem_toFinset.2 hy, hxy⟩
    · exact hr hx.2 hx'.2
  rw [List.toFinset_card_of_nodup hl] at hcard
  exact hcard.trans m.toFinset_card_le

/-! ## Tries of the same words -/

namespace Trie

variable {alphabet alphabet' : Alphabet} {words : List String} {t t' found found' : Trie}
  {p q : List Nat}

theorem exists_walk_of_agree (hnormalize : alphabet.normalize = alphabet'.normalize)
    (h : ofWords alphabet words = .ok t) (h' : ofWords alphabet' words = .ok t')
    (hwalk : (t.walk p).isSome = true) :
    ∃ q, List.Forall₂ (alphabet.Agree alphabet') p q ∧ (t'.walk q).isSome = true := by
  rcases (isSome_walk_ofWords h).1 hwalk with rfl | ⟨word, hword, rest, hspell⟩
  · exact ⟨[], .nil, rfl⟩
  · obtain ⟨path, hspell'⟩ := exists_spell_of_ofWords h' hword
    obtain ⟨q, rest', rfl, hagree, -⟩ :=
      exists_append_of_agree (forall₂_agree_of_spell hnormalize hspell hspell')
    exact ⟨q, hagree, (isSome_walk_ofWords h').2 (.inr ⟨word, hword, rest', hspell'⟩)⟩

theorem endsWord_of_agree (hnormalize : alphabet.normalize = alphabet'.normalize)
    (h : ofWords alphabet words = .ok t) (h' : ofWords alphabet' words = .ok t')
    (hwalk : t.walk p = some found) (hwalk' : t'.walk q = some found')
    (hagree : List.Forall₂ (alphabet.Agree alphabet') p q) (hends : found.endsWord = true) :
    found'.endsWord = true := by
  have hne : found.spellings ≠ [] := by simpa [endsWord] using hends
  obtain ⟨word, hword⟩ := List.exists_mem_of_ne_nil _ hne
  rw [← spellingsAt_of_walk hwalk, mem_spellingsAt_ofWords h] at hword
  obtain ⟨hp, hword, hspell⟩ := hword
  obtain ⟨path, hspell'⟩ := exists_spell_of_ofWords h' hword
  obtain rfl : path = q := (rightUnique_agree alphabet alphabet').forall₂
    (forall₂_agree_of_spell hnormalize hspell hspell') hagree
  have hq : path ≠ [] := by
    rintro rfl
    cases hagree
    exact hp rfl
  have hmem : word ∈ t'.spellingsAt path := (mem_spellingsAt_ofWords h').2 ⟨hq, hword, hspell'⟩
  rw [spellingsAt_of_walk hwalk'] at hmem
  simpa [endsWord] using List.ne_nil_of_mem hmem

end Trie

namespace Automaton

variable {b b' : Automaton} {alphabet alphabet' : Alphabet} {lists : WordLists} {bag bag' : Bag}
  {steps steps' : List (Nat × List Nat)} {d d' : Draft}

/-! ## Counterparts -/

/-- Whether two automata differ in the alphabet of their tries only, and two bags hold the same
letters. -/
structure Counterparts (b b' : Automaton) (alphabet alphabet' : Alphabet) (lists : WordLists)
    (bag bag' : Bag) : Prop where
  edges : ∀ id, b.edges id = b'.edges id
  list? : ∀ id, b.list? id = b'.list? id
  left : b.Indexed alphabet lists
  right : b'.Indexed alphabet' lists
  normalize : alphabet.normalize = alphabet'.normalize
  total : bag.total = bag'.total
  get : ∀ i j, alphabet.Agree alphabet' i j → bag.get i = bag'.get j

/-- Whether two traces go through the same states and place the same letters there. -/
def StepsAgree (alphabet alphabet' : Alphabet) :
    List (Nat × List Nat) → List (Nat × List Nat) → Prop :=
  List.Forall₂ fun step step' =>
    step.1 = step'.1 ∧ List.Forall₂ (alphabet.Agree alphabet') step.2 step'.2

theorem leftUnique_stepsAgree (alphabet alphabet' : Alphabet) :
    Relator.LeftUnique (StepsAgree alphabet alphabet') := by
  refine Relator.LeftUnique.forall₂ fun step step' other h h' => ?_
  exact Prod.ext (h.1.trans h'.1.symm)
    ((leftUnique_agree alphabet alphabet').forall₂ h.2 h'.2)

theorem StepsAgree.placedLetters (h : StepsAgree alphabet alphabet' steps steps') :
    List.Forall₂ (alphabet.Agree alphabet') (placedLetters steps)
      (Automaton.placedLetters steps') :=
  List.rel_flatMap h fun _ _ hstep => hstep.2

/-- A draft has one trace only. -/
theorem Traced.steps_unique (h : b.Traced bag steps d) (h' : b.Traced bag steps' d) :
    steps = steps' := by
  induction h generalizing steps' with
  | start =>
    cases h'
    rfl
  | letter _ _ _ left ih =>
    cases h' with
    | letter before' _ _ left' =>
      obtain ⟨hstep, rfl⟩ := List.cons_eq_cons.1 (ih before')
      obtain ⟨rfl, rfl⟩ := Prod.mk.inj hstep
      rw [remove?_inj left left']
  | word _ _ _ _ _ ih =>
    cases h' with
    | word before' => rw [ih before']

namespace Counterparts

theorem symm (h : Counterparts b b' alphabet alphabet' lists bag bag') :
    Counterparts b' b alphabet' alphabet lists bag' bag where
  edges id := (h.edges id).symm
  list? id := (h.list? id).symm
  left := h.right
  right := h.left
  normalize := h.normalize.symm
  total := h.total.symm
  get i j hij := (h.get j i hij.symm).symm

/-- The tries of a state have been made of the same words. -/
theorem exists_trie? (h : Counterparts b b' alphabet alphabet' lists bag bag') {id : Nat} {t : Trie}
    (ht : b.trie? id = some t) : ∃ t' words, b'.trie? id = some t' ∧
      Trie.ofWords alphabet words = .ok t ∧ Trie.ofWords alphabet' words = .ok t' := by
  obtain ⟨name, words, hname, hwords, hbuilt⟩ := h.left.trie id t ht
  rw [h.list?] at hname
  obtain ⟨t', ht'⟩ := h.right.bound id name hname
  obtain ⟨name', words', hname', hwords', hbuilt'⟩ := h.right.trie id t' ht'
  obtain rfl : name = name' := Option.some.inj (hname.symm.trans hname')
  obtain rfl : words = words' := Option.some.inj (hwords.symm.trans hwords')
  exact ⟨t', words, ht', hbuilt, hbuilt'⟩

/-- Drafts with agreeing traces stand in tries of the same words, where agreeing letters lead. -/
theorem exists_tries (h : Counterparts b b' alphabet alphabet' lists bag bag')
    (hd : b.Traced bag steps d) (hd' : b'.Traced bag' steps' d')
    (hsteps : StepsAgree alphabet alphabet' steps steps') : d.state = d'.state ∧
      ∃ words root root' placed placed' rest rest',
        Trie.ofWords alphabet words = .ok root ∧ Trie.ofWords alphabet' words = .ok root' ∧
        steps = (d.state, placed) :: rest ∧ steps' = (d'.state, placed') :: rest' ∧
        List.Forall₂ (alphabet.Agree alphabet') placed placed' ∧
        StepsAgree alphabet alphabet' rest rest' ∧
        root.walk placed = some d.trie ∧ root'.walk placed' = some d'.trie := by
  obtain ⟨placed, rest, root, rfl, hroot, hwalk⟩ := hd.at_last
  obtain ⟨placed', rest', root', rfl, hroot', hwalk'⟩ := hd'.at_last
  cases hsteps with
  | cons hstep hrest =>
    obtain ⟨hstate, hplaced⟩ := hstep
    obtain ⟨t', words, ht', hwords, hwords'⟩ := h.exists_trie? hroot
    simp only at hstate
    rw [hstate] at ht'
    obtain rfl : t' = root' := Option.some.inj (ht'.symm.trans hroot')
    exact ⟨hstate, words, root, t', placed, placed', rest, rest', hwords, hwords', rfl, rfl,
      hplaced, hrest, hwalk, hwalk'⟩

/-- Drafts with agreeing traces have the same letters left, and end words alike. -/
theorem draft (h : Counterparts b b' alphabet alphabet' lists bag bag')
    (hd : b.Traced bag steps d) (hd' : b'.Traced bag' steps' d')
    (hsteps : StepsAgree alphabet alphabet' steps steps') :
    d.bag.total = d'.bag.total ∧
      (∀ i j, alphabet.Agree alphabet' i j → d.bag.get i = d'.bag.get j) ∧
      (d.trie.endsWord = true → d'.trie.endsWord = true) := by
  have hplaced := hsteps.placedLetters
  refine ⟨?_, fun i j hij => ?_, fun hends => ?_⟩
  · have := hd.total
    have := hd'.total
    have := h.total
    have := hplaced.length_eq
    omega
  · have := hd.get i
    have := hd'.get j
    have := h.get i j hij
    have := count_eq_of_agree hplaced hij
    omega
  · obtain ⟨-, words, root, root', placed, placed', -, -, hwords, hwords', -, -, hagree, -, hwalk,
      hwalk'⟩ := h.exists_tries hd hd' hsteps
    exact Trie.endsWord_of_agree h.normalize hwords hwords' hwalk hwalk' hagree hends

/-- Where one draft can go on with a letter, the other can, too. -/
theorem exists_child? (h : Counterparts b b' alphabet alphabet' lists bag bag')
    (hd : b.Traced bag steps d) (hd' : b'.Traced bag' steps' d')
    (hsteps : StepsAgree alphabet alphabet' steps steps') {i : Nat} {child : Trie}
    (branch : d.trie.child? i = some child) :
    ∃ j child', alphabet.Agree alphabet' i j ∧ d'.trie.child? j = some child' := by
  obtain ⟨-, words, root, root', placed, placed', -, -, hwords, hwords', -, -, hagree, -, hwalk,
    hwalk'⟩ := h.exists_tries hd hd' hsteps
  have hsome : (root.walk (placed ++ [i])).isSome = true := by
    rw [Trie.walk_append, hwalk, Option.bind_some, Trie.walk_cons, branch]
    rfl
  obtain ⟨q, hq, hwalkq⟩ := Trie.exists_walk_of_agree h.normalize hwords hwords' hsome
  obtain ⟨q₁, q₂, rfl, hq₁, hq₂⟩ := exists_append_of_agree hq
  obtain rfl : q₁ = placed' := (rightUnique_agree alphabet alphabet').forall₂ hq₁ hagree
  obtain ⟨j, u, hij, hu, rfl⟩ := List.forall₂_cons_left_iff.1 hq₂
  cases hu
  rw [Trie.walk_append, hwalk', Option.bind_some, Trie.walk_cons] at hwalkq
  obtain ⟨last, hlast⟩ := Option.isSome_iff_exists.1 hwalkq
  obtain ⟨child', hchild', -⟩ := Option.bind_eq_some_iff.1 hlast
  exact ⟨j, child', hij, hchild'⟩

end Counterparts

/-- What one search comes to has a counterpart in the other: it goes through the same states and
places the same letters. -/
theorem Traced.exists_counterpart (h : Counterparts b b' alphabet alphabet' lists bag bag')
    (hd : b.Traced bag steps d) :
    ∃ steps' d', StepsAgree alphabet alphabet' steps steps' ∧ b'.Traced bag' steps' d' := by
  induction hd with
  | start edge bound =>
    obtain ⟨root', -, bound', -⟩ := h.exists_trie? bound
    rw [h.edges] at edge
    exact ⟨_, _, .cons ⟨rfl, .nil⟩ .nil, .start edge bound'⟩
  | @letter state i placed steps d child rest before more branch left ih =>
    obtain ⟨steps', d', hsteps, hd'⟩ := ih
    obtain ⟨htotal, hget, -⟩ := h.draft before hd' hsteps
    obtain ⟨j, child', hij, branch'⟩ := h.exists_child? before hd' hsteps branch
    have more' : d'.bag.isEmpty = false := by
      rw [Bag.isEmpty, ← htotal]
      exact more
    obtain ⟨rest', left'⟩ : ∃ rest', d'.bag.remove? j = some rest' := by
      refine Option.isSome_iff_exists.1 (Bag.isSome_remove?.2 ?_)
      rw [← hget i j hij]
      exact Bag.get_pos_of_remove? left
    obtain ⟨⟨state', placed'⟩, tail', hstep, htail, rfl⟩ := List.forall₂_cons_left_iff.1 hsteps
    obtain ⟨hstate, hplaced⟩ := hstep
    obtain rfl : state = state' := hstate
    refine ⟨(state, placed' ++ [j]) :: tail', _, .cons ⟨rfl, ?_⟩ htail,
      .letter hd' more' branch' left'⟩
    exact List.rel_append hplaced (.cons hij .nil)
  | @word target steps d root before more ends edge bound ih =>
    obtain ⟨steps', d', hsteps, hd'⟩ := ih
    obtain ⟨htotal, -, hends⟩ := h.draft before hd' hsteps
    obtain ⟨hstate, -⟩ := h.exists_tries before hd' hsteps
    obtain ⟨root', -, bound', -⟩ := h.exists_trie? bound
    have more' : d'.bag.isEmpty = false := by
      rw [Bag.isEmpty, ← htotal]
      exact more
    rw [h.edges, hstate] at edge
    exact ⟨_, _, .cons ⟨rfl, .nil⟩ hsteps, .word hd' more' (hends ends) edge bound'⟩

/-! ## Counting -/

/-- Whether two searches come to two drafts with agreeing traces. -/
def Alike (b b' : Automaton) (alphabet alphabet' : Alphabet) (bag bag' : Bag) (d d' : Draft) :
    Prop :=
  ∃ steps steps', b.Traced bag steps d ∧ b'.Traced bag' steps' d' ∧
    StepsAgree alphabet alphabet' steps steps'

/-- No two drafts have a counterpart in common. -/
theorem leftUnique_alike (b b' : Automaton) (alphabet alphabet' : Alphabet) (bag bag' : Bag) :
    Relator.LeftUnique (Alike b b' alphabet alphabet' bag bag') := by
  rintro d e f ⟨steps, steps', hd, hf, hsteps⟩ ⟨others, others', he, hf', hothers⟩
  obtain rfl := hf.steps_unique hf'
  obtain rfl := leftUnique_stepsAgree alphabet alphabet' hsteps hothers
  exact hd.unique he

namespace Counterparts

/-- Of the drafts of a kind, one search has no more than the other has of theirs, if counterparts
of the one kind are of the other. -/
theorem length_filter_le (h : Counterparts b b' alphabet alphabet' lists bag bag')
    {p q : Draft → Bool} (hp : ∀ {steps steps' d d'}, b.Traced bag steps d →
      b'.Traced bag' steps' d' → StepsAgree alphabet alphabet' steps steps' → p d = true →
      q d' = true) :
    (((b.starts bag).flatMap b.searchTree).filter p).length ≤
      (((b'.starts bag').flatMap b'.searchTree).filter q).length := by
  refine length_le_of_leftUnique ((nodup_starts_searchTree h.left).filter _)
    (leftUnique_alike b b' alphabet alphabet' bag bag') fun d hd => ?_
  obtain ⟨hmem, hkind⟩ := List.mem_filter.1 hd
  obtain ⟨steps, htraced⟩ := (mem_starts_searchTree h.left).1 hmem
  obtain ⟨steps', d', hsteps, htraced'⟩ := htraced.exists_counterpart h
  have hmem' := (mem_starts_searchTree h.right).2 ⟨steps', htraced'⟩
  exact ⟨d', List.mem_filter.2 ⟨hmem', hp htraced htraced' hsteps hkind⟩, steps, steps', htraced,
    htraced', hsteps⟩

/-- Counterparts are complete alike. -/
theorem completes (h : Counterparts b b' alphabet alphabet' lists bag bag')
    (hd : b.Traced bag steps d) (hd' : b'.Traced bag' steps' d')
    (hsteps : StepsAgree alphabet alphabet' steps steps') (hcompletes : b.completes d = true) :
    b'.completes d' = true := by
  obtain ⟨htotal, hends, hfinish⟩ := completes_iff.1 hcompletes
  obtain ⟨htotal', -, hends'⟩ := h.draft hd hd' hsteps
  obtain ⟨hstate, -⟩ := h.exists_tries hd hd' hsteps
  rw [h.edges, hstate] at hfinish
  exact completes_iff.2 ⟨htotal'.symm.trans htotal, hends' hends, hfinish⟩

/-- Both searches begin as many drafts. -/
theorem length_starts_eq (h : Counterparts b b' alphabet alphabet' lists bag bag') :
    (b.starts bag).length = (b'.starts bag').length := by
  have hbound : ∀ id, (b.trie? id).isSome = (b'.trie? id).isSome := by
    intro id
    refine Bool.eq_iff_iff.2 ?_
    rw [Option.isSome_iff_exists, Option.isSome_iff_exists]
    refine ⟨fun ⟨t, ht⟩ => ?_, fun ⟨t, ht⟩ => ?_⟩
    · obtain ⟨t', -, ht', -⟩ := h.exists_trie? ht
      exact ⟨t', ht'⟩
    · obtain ⟨t', -, ht', -⟩ := h.symm.exists_trie? ht
      exact ⟨t', ht'⟩
  simp only [starts, List.length_filterMap_eq_countP, Option.isSome_map, h.edges, hbound]

/-- Both searches come to as many drafts. -/
theorem length_eq (h : Counterparts b b' alphabet alphabet' lists bag bag') :
    ((b.starts bag).flatMap b.searchTree).length =
      ((b'.starts bag').flatMap b'.searchTree).length := by
  have hle := h.length_filter_le (p := fun _ => true) (q := fun _ => true) fun _ _ _ => id
  have hge := h.symm.length_filter_le (p := fun _ => true) (q := fun _ => true) fun _ _ _ => id
  simp only [List.filter_true] at hle hge
  exact Nat.le_antisymm hle hge

/-- Both searches come to as many complete drafts. -/
theorem length_completeDrafts_eq (h : Counterparts b b' alphabet alphabet' lists bag bag') :
    (b.completeDrafts bag).length = (b'.completeDrafts bag').length :=
  Nat.le_antisymm (h.length_filter_le h.completes) (h.symm.length_filter_le h.symm.completes)

end Counterparts

end Automaton

end PhraseSearch
