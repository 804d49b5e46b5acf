import Mathlib.Data.List.Dedup
import Mathlib.Data.List.Induction
import PhraseSearch.Proofs.Trie.Building
import PhraseSearch.Proofs.Trie.Slots

/-!
# What changes make of a trie

After some changes a trie holds the words that they store, each at the end of its path, and nothing
else.  If the jumps are computed last, they are right at every node.  The order in which words are
stored shows only in the order of the spellings at a node.

    the spellings after some changes                                   (spellingsAt_after)
    where there are nodes                                              (isSome_walk_after)
    how many words there are                                           (size_after)
    what changes make of a trie                                        (after_spec)
-/

namespace PhraseSearch

/-! ## Sizes -/

theorem Branches.size_update {i : Nat} (change : Trie → Trie) {b : Branches}
    (hb : b.indices.Pairwise (· < ·)) :
    (b.update i change).size + ((b.get? i).getD .empty).size =
      b.size + (change ((b.get? i).getD .empty)).size := by
  fun_induction Branches.update i change b with
  | case1 => simp [size, get?, Trie.empty, Trie.size]
  | case2 index child rest h =>
    have hnone : (cons index child rest).get? i = none := by
      refine get?_eq_none_of_lt fun j hj => ?_
      rcases List.mem_cons.1 hj with rfl | hj
      · exact h
      · exact Nat.lt_trans h ((List.pairwise_cons.1 hb).1 j hj)
    rw [hnone, Option.getD_none, size, Trie.empty, Trie.size, List.length_nil, size]
    omega
  | case3 child rest =>
    rw [get?, if_pos rfl, Option.getD_some, size, size]
    omega
  | case4 index child rest hlt hne ih =>
    have hrest := ih (List.pairwise_cons.1 hb).2
    rw [get?, if_neg hne, size, size]
    omega

namespace Trie

/-- Storing a word adds one, unless it stands there already. -/
theorem size_insert {t : Trie} (h : t.Sorted) (word : String) (path : List Nat) :
    (t.insert word path).size = t.size + if word ∈ t.spellingsAt path then 0 else 1 := by
  induction path generalizing t with
  | nil =>
    obtain ⟨spellings, jumps, branches⟩ := t
    rw [spellingsAt_nil, insert, size, size, Trie.spellings]
    by_cases hword : word ∈ spellings
    · rw [if_pos hword, if_pos hword, Nat.add_zero]
    · rw [if_neg hword, if_neg hword, List.length_append, List.length_singleton]
      omega
  | cons i path ih =>
    obtain ⟨spellings, jumps, branches⟩ := t
    have hupdate := Branches.size_update (i := i) (Trie.insert word path) h.1
    have hchild : ((branches.get? i).getD empty).Sorted := by
      cases hget : branches.get? i with
      | none => exact sorted_empty
      | some child => exact h.2.get? hget
    have hat : ((branches.get? i).getD empty).spellingsAt path =
        spellingsAt (.node spellings jumps branches) (i :: path) := by
      rw [spellingsAt_cons, child?, Trie.branches]
      cases branches.get? i with
      | none => exact spellingsAt_empty path
      | some child => rfl
    rw [ih hchild, hat] at hupdate
    rw [insert, size, size]
    omega

end Trie

mutual

theorem Trie.size_refreshJumps : ∀ t : Trie, t.refreshJumps.size = t.size
  | .node spellings jumps branches => by
    rw [Trie.refreshJumps, Trie.size, branches.size_refreshJumps, Trie.size]

theorem Branches.size_refreshJumps : ∀ b : Branches, b.refreshJumps.size = b.size
  | .nil => rfl
  | .cons index child rest => by
    rw [Branches.refreshJumps, Branches.size, child.size_refreshJumps, rest.size_refreshJumps,
      Branches.size]

end

namespace Trie

variable {changes changes' : List Change} {path : List Nat}

/-! ## After some changes -/

theorem after_append (changes : List Change) (last : Change) :
    after (changes ++ [last]) = (after changes).change last := by
  rw [after, List.foldl_append]
  rfl

theorem stored_append_insert (changes : List Change) (word : String) (path : List Nat) :
    stored (changes ++ [.insert word path]) = stored changes ++ [(word, path)] := by
  rw [stored, List.filterMap_append]
  rfl

theorem stored_append_refreshJumps (changes : List Change) :
    stored (changes ++ [.refreshJumps]) = stored changes := by
  rw [stored, List.filterMap_append]
  exact List.append_nil _

theorem built_after (changes : List Change) : (after changes).Built := by
  induction changes using List.reverseRecOn with
  | nil => exact .empty
  | append_singleton changes last ih =>
    rw [after_append]
    cases last with
    | insert word path => exact ih.insert word path
    | refreshJumps => exact ih.refreshJumps

/-- The words that changes store at the end of a path. -/
def wordsAt (changes : List Change) (path : List Nat) : List String :=
  ((stored changes).filter fun e => e.2 = path).map Prod.fst

theorem mem_wordsAt {word : String} : word ∈ wordsAt changes path ↔ (word, path) ∈ stored changes := by
  simp [wordsAt]

/-- The distinct words that were stored at the end of a path, in the order of their first times. -/
theorem spellingsAt_after (changes : List Change) (path : List Nat) :
    (after changes).spellingsAt path = (wordsAt changes path).eraseDups := by
  rw [← foldl_addSpelling_nil]
  induction changes using List.reverseRecOn with
  | nil => exact spellingsAt_empty path
  | append_singleton changes last ih =>
    rw [after_append]
    cases last with
    | insert word stored =>
      rw [change, spellingsAt_insert (built_after changes).sorted, ih, wordsAt, wordsAt,
        stored_append_insert, List.filter_append, List.map_append, List.foldl_append]
      by_cases hpath : path = stored
      · simp [hpath]
      · simp [hpath, Ne.symm hpath]
    | refreshJumps =>
      rw [change, spellingsAt_refreshJumps, ih, wordsAt, wordsAt, stored_append_refreshJumps]

theorem mem_spellingsAt_after {word : String} :
    word ∈ (after changes).spellingsAt path ↔ (word, path) ∈ stored changes := by
  rw [spellingsAt_after, List.mem_eraseDups, mem_wordsAt]

/-- There is a node at the root, and at the end of every path with which one begins that has been
stored at. -/
theorem isSome_walk_after (changes : List Change) (path : List Nat) :
    ((after changes).walk path).isSome = true ↔
      path = [] ∨ ∃ e ∈ stored changes, path <+: e.2 := by
  induction changes using List.reverseRecOn with
  | nil => exact (walk_empty path).trans (or_iff_left (by rintro ⟨e, he, -⟩; cases he)).symm
  | append_singleton changes last ih =>
    rw [after_append]
    cases last with
    | insert word q =>
      rw [change, isSome_walk_insert (built_after changes).sorted, ih, stored_append_insert]
      simp [or_and_right, exists_or, or_assoc]
    | refreshJumps =>
      rw [change, walk_refreshJumps, Option.isSome_map, ih, stored_append_refreshJumps]

/-- There are as many words as different pairs of a word and a path have been stored. -/
theorem size_after (changes : List Change) :
    (after changes).size = (stored changes).dedup.length := by
  induction changes using List.reverseRecOn with
  | nil => rfl
  | append_singleton changes last ih =>
    rw [after_append]
    cases last with
    | insert word q =>
      have hperm : (stored changes ++ [(word, q)]).dedup.length =
          ((word, q) :: stored changes).dedup.length :=
        (List.perm_append_singleton _ _).dedup.length_eq
      rw [change, size_insert (built_after changes).sorted, ih, stored_append_insert, hperm]
      by_cases hmem : (word, q) ∈ stored changes
      · rw [if_pos (mem_spellingsAt_after.2 hmem), List.dedup_cons_of_mem hmem, Nat.add_zero]
      · rw [if_neg (mt mem_spellingsAt_after.1 hmem), List.dedup_cons_of_notMem hmem,
          List.length_cons]
    | refreshJumps =>
      rw [change, size_refreshJumps, ih, stored_append_refreshJumps]

/-! ## If the jumps are computed last -/

theorem wordsAt_append_refreshJumps (changes : List Change) :
    wordsAt (changes ++ [.refreshJumps]) path = wordsAt changes path := by
  rw [wordsAt, stored_append_refreshJumps, wordsAt]

theorem finished_after (changes : List Change) : (after (changes ++ [.refreshJumps])).Finished :=
  ⟨after changes, built_after changes, after_append changes .refreshJumps⟩

theorem spellings_of_walk_after {found : Trie} (hwalk : (after changes).walk path = some found) :
    found.spellings = (wordsAt changes path).eraseDups := by
  rw [← spellingsAt_of_walk hwalk, spellingsAt_after]

theorem endsWord_iff {t : Trie} : t.endsWord = true ↔ t.spellings ≠ [] := by
  rw [endsWord, Bool.not_eq_true', List.isEmpty_eq_false_iff]

/-- Only the root may have no word at it or below. -/
theorem exists_endsWord_below {found : Trie} (hwalk : (after changes).walk path = some found)
    (hpath : path ≠ []) :
    ∃ rest below, found.walk rest = some below ∧ below.endsWord = true := by
  have hsome : ((after changes).walk path).isSome = true := by rw [hwalk, Option.isSome_some]
  obtain ⟨⟨word, _⟩, hstored, rest, rfl⟩ :=
    ((isSome_walk_after changes path).1 hsome).resolve_left hpath
  obtain ⟨below, hbelow⟩ := Option.isSome_iff_exists.1
    ((isSome_walk_after changes (path ++ rest)).2 (.inr ⟨_, hstored, List.prefix_rfl⟩))
  have hword : word ∈ below.spellings := by
    rw [← spellingsAt_of_walk hbelow]
    exact mem_spellingsAt_after.2 hstored
  rw [walk_append, hwalk] at hbelow
  exact ⟨rest, below, hbelow, endsWord_iff.2 (List.ne_nil_of_mem hword)⟩

/-! ## The order of the changes -/

/-- Whether there is a node does not depend on the order in which words are stored. -/
theorem isSome_walk_after_congr (h : (stored changes').Perm (stored changes)) (path : List Nat) :
    ((after changes').walk path).isSome = ((after changes).walk path).isSome := by
  rw [Bool.eq_iff_iff, isSome_walk_after, isSome_walk_after]
  simp only [h.mem_iff]

theorem spellingsAt_after_perm (h : (stored changes').Perm (stored changes)) (path : List Nat) :
    ((after changes').spellingsAt path).Perm ((after changes).spellingsAt path) := by
  refine (List.perm_ext_iff_of_nodup ((built_after changes').nodup_spellingsAt path)
    ((built_after changes).nodup_spellingsAt path)).2 fun word => ?_
  rw [mem_spellingsAt_after, mem_spellingsAt_after, h.mem_iff]

/-- The jumps of two finished tries with the same nodes are the same. -/
theorem Finished.jumps_congr {t t' found found' : Trie} (h : t.Finished) (h' : t'.Finished)
    (hnodes : ∀ path, (t'.walk path).isSome = (t.walk path).isSome)
    (hwalk : t.walk path = some found) (hwalk' : t'.walk path = some found') :
    found'.jumps = found.jumps := by
  obtain ⟨hasc, hmem⟩ := h.jumps hwalk
  obtain ⟨hasc', hmem'⟩ := h'.jumps hwalk'
  have hchild : ∀ i, (found'.child? i).isSome = (found.child? i).isSome := by
    intro i
    have hnode := hnodes (path ++ [i])
    rw [walk_append, walk_append, hwalk, hwalk'] at hnode
    simpa [walk] using hnode
  have hperm : found'.jumps.Perm found.jumps :=
    (List.perm_ext_iff_of_nodup (hasc'.imp Nat.ne_of_lt) (hasc.imp Nat.ne_of_lt)).2 fun i => by
      rw [hmem, hmem', hchild]
  exact hperm.eq_of_pairwise (fun _ _ _ _ hab hba => absurd hab (Nat.lt_asymm hba)) hasc' hasc

/-- The order in which words are stored shows only in the order of the spellings. -/
theorem face?_after_alike (h : (stored changes').Perm (stored changes)) (path : List Nat) :
    Option.Rel Face.Alike ((after (changes' ++ [.refreshJumps])).face? path)
      ((after (changes ++ [.refreshJumps])).face? path) := by
  have hstored : (stored (changes' ++ [.refreshJumps])).Perm (stored (changes ++ [.refreshJumps])) := by
    rwa [stored_append_refreshJumps, stored_append_refreshJumps]
  have hnodes := isSome_walk_after_congr hstored
  have hnode := hnodes path
  rw [face?, face?]
  cases hwalk : (after (changes ++ [.refreshJumps])).walk path with
  | none =>
    rw [hwalk, Option.isSome_none, Option.isSome_eq_false_iff, Option.isNone_iff_eq_none] at hnode
    rw [hnode]
    exact .none
  | some found =>
    rw [hwalk, Option.isSome_some] at hnode
    obtain ⟨found', hwalk'⟩ := Option.isSome_iff_exists.1 hnode
    have hspellings : found'.spellings.Perm found.spellings := by
      have hperm := spellingsAt_after_perm hstored path
      rwa [spellingsAt_of_walk hwalk, spellingsAt_of_walk hwalk'] at hperm
    have hends : found'.endsWord = found.endsWord := by
      rw [endsWord, endsWord, hspellings.isEmpty_eq]
    rw [hwalk']
    exact .some ⟨hspellings, hends,
      (finished_after changes).jumps_congr (finished_after changes') hnodes hwalk hwalk'⟩

/-- A trie after some changes, the last of which computes the jumps.  Kept in slots, with notes where
words end, it shows the same.  There is a node at the root and along every path at which a word was
stored; it has the distinct words that were stored there, by their first times, its jumps are the
letters that have a branch, by ascending letter, and every node but the root has a word at it or
below.  Its size is the number of different words and paths.  Changes that store the same in another
order give the same trie, the order of the spellings at a node apart. -/
theorem after_spec (changes : List Change) :
    let t := after (changes ++ [.refreshJumps])
    let inSlots := SlotTrie.after (changes ++ [.refreshJumps])
    (∀ path, inSlots.face? path = t.face? path) ∧ inSlots.size = t.size ∧
    (∀ path, (t.walk path).isSome = true ↔ path = [] ∨ ∃ e ∈ stored changes, path <+: e.2) ∧
    (∀ path found, t.walk path = some found →
      found.spellings = (wordsAt changes path).eraseDups ∧
      (found.endsWord = true ↔ found.spellings ≠ []) ∧
      found.jumps.Pairwise (· < ·) ∧
      (∀ i, i ∈ found.jumps ↔ (found.child? i).isSome = true) ∧
      (path ≠ [] → ∃ rest below, found.walk rest = some below ∧ below.endsWord = true)) ∧
    t.size = (stored changes).dedup.length ∧
    (∀ changes', (stored changes').Perm (stored changes) →
      let t' := after (changes' ++ [.refreshJumps])
      (∀ path, Option.Rel Face.Alike (t'.face? path) (t.face? path)) ∧ t'.size = t.size) := by
  intro t inSlots
  refine ⟨SlotTrie.face?_after _, SlotTrie.size_after _, fun path => ?_, fun path found hwalk => ?_,
    ?_, fun changes' hperm => ⟨face?_after_alike hperm, ?_⟩⟩
  · rw [isSome_walk_after, stored_append_refreshJumps]
  · obtain ⟨hascending, hmem⟩ := (finished_after changes).jumps hwalk
    refine ⟨?_, endsWord_iff, hascending, hmem, exists_endsWord_below hwalk⟩
    rw [spellings_of_walk_after hwalk, wordsAt_append_refreshJumps]
  · rw [size_after, stored_append_refreshJumps]
  · rw [size_after, size_after, stored_append_refreshJumps, stored_append_refreshJumps]
    exact hperm.dedup.length_eq

end Trie

end PhraseSearch
