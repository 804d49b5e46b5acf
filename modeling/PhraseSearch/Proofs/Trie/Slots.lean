import PhraseSearch.Proofs.Trie.Contents
import PhraseSearch.Trie.Slots

/-!
# Both forms of a trie

Leaving out the free slots and the notes, a trie in slots is the trie that the same changes build:
its slots are numbered without a gap, so the number of a slot is the index of its branch.  A word
ends where its note says, since nothing else sets a note.

    storing a word is the same in both forms                           (trie_insert)
    and so is computing the jumps                                      (trie_refreshJumps)
    the nodes show the same in both forms                              (face?_after)
-/

namespace PhraseSearch

/-! ## Branches in slots -/

theorem Branches.update_of_lt {i : Nat} (change : Trie → Trie) {b : Branches}
    (h : ∀ j ∈ b.indices, i < j) : b.update i change = .cons i (change .empty) b := by
  cases b with
  | nil => rfl
  | cons index child rest => rw [update, if_pos (h index (by simp [indices]))]

namespace Slots

theorem indices_branchesFrom (slots : Slots) (k : Nat) :
    (slots.branchesFrom k).indices = slots.indicesFrom k := by
  induction slots using AllNoted.induct (motive_1 := fun _ => True) generalizing k with
  | case1 => trivial
  | case2 => rfl
  | case3 rest ih => exact ih (k + 1)
  | case4 child rest _ ih =>
    rw [branchesFrom, Branches.indices, ih (k + 1), indicesFrom]

theorem le_of_mem_indicesFrom {slots : Slots} {k i : Nat} (h : i ∈ slots.indicesFrom k) :
    k ≤ i := by
  induction slots using AllNoted.induct (motive_1 := fun _ => True) generalizing k with
  | case1 => trivial
  | case2 => cases h
  | case3 rest ih => exact Nat.le_of_succ_le (ih h)
  | case4 child rest _ ih =>
    rcases List.mem_cons.1 h with rfl | h
    · exact Nat.le_refl i
    · exact Nat.le_of_succ_le (ih h)

/-- Slots from the next number on come after this number. -/
theorem lt_of_mem_indices {slots : Slots} {k i : Nat}
    (h : i ∈ (slots.branchesFrom (k + 1)).indices) : k < i := by
  rw [indices_branchesFrom] at h
  exact le_of_mem_indicesFrom h

theorem get?_branchesFrom (slots : Slots) (k i : Nat) :
    (slots.branchesFrom k).get? (k + i) = (slots.get? i).map SlotTrie.trie := by
  induction slots using AllNoted.induct (motive_1 := fun _ => True) generalizing k i with
  | case1 => trivial
  | case2 => rfl
  | case3 rest ih =>
    rw [branchesFrom]
    cases i with
    | zero => exact Branches.get?_eq_none_of_lt fun j hj => lt_of_mem_indices hj
    | succ i => rw [show k + (i + 1) = k + 1 + i by omega, ih, get?]
  | case4 child rest _ ih =>
    rw [branchesFrom, Branches.get?]
    cases i with
    | zero => exact if_pos rfl
    | succ i => rw [if_neg (by omega), show k + (i + 1) = k + 1 + i by omega, ih, get?]

/-- Changing the branch in a slot is changing the branch of its number. -/
theorem branchesFrom_update {change : SlotTrie → SlotTrie} {change' : Trie → Trie}
    (h : ∀ t : SlotTrie, (change t).trie = change' t.trie) (i : Nat) (slots : Slots) (k : Nat) :
    (slots.update change i).branchesFrom k = (slots.branchesFrom k).update (k + i) change' := by
  fun_induction Slots.update change i slots generalizing k with
  | case1 => simp only [branchesFrom, h]; rfl
  | case2 rest =>
    simp only [branchesFrom, h, Nat.add_zero]
    exact (Branches.update_of_lt change' fun j hj => lt_of_mem_indices hj).symm
  | case3 child rest =>
    simp only [branchesFrom, h, Branches.update, Nat.add_zero, Nat.lt_irrefl, if_false, if_true]
  | case4 i ih =>
    rw [show k + (i + 1) = k + 1 + i by omega]
    exact ih (k + 1)
  | case5 i rest ih =>
    rw [show k + (i + 1) = k + 1 + i by omega]
    exact ih (k + 1)
  | case6 i child rest ih =>
    rw [branchesFrom, branchesFrom, Branches.update, if_neg (by omega), if_neg (by omega),
      show k + (i + 1) = k + 1 + i by omega, ih (k + 1)]

end Slots

/-! ## The same trie -/

namespace SlotTrie

theorem trie_insert (word : String) (path : List Nat) (t : SlotTrie) :
    (t.insert word path).trie = t.trie.insert word path := by
  induction path generalizing t with
  | nil =>
    obtain ⟨spellings, endsWord, jumps, slots⟩ := t
    rfl
  | cons i path ih =>
    obtain ⟨spellings, endsWord, jumps, slots⟩ := t
    rw [insert, trie, Slots.branchesFrom_update ih, Nat.zero_add]
    rfl

end SlotTrie

mutual

theorem SlotTrie.trie_refreshJumps : ∀ t : SlotTrie, t.refreshJumps.trie = t.trie.refreshJumps
  | .node spellings endsWord jumps slots => by
    rw [SlotTrie.refreshJumps, SlotTrie.trie, SlotTrie.trie, Trie.refreshJumps,
      slots.branchesFrom_refreshJumps, slots.indices_branchesFrom]

theorem Slots.branchesFrom_refreshJumps : ∀ (slots : Slots) (k : Nat),
    slots.refreshJumps.branchesFrom k = (slots.branchesFrom k).refreshJumps
  | .nil, _ => rfl
  | .free rest, k => rest.branchesFrom_refreshJumps (k + 1)
  | .taken child rest, k => by
    rw [Slots.refreshJumps, Slots.branchesFrom, Slots.branchesFrom, Branches.refreshJumps,
      child.trie_refreshJumps, rest.branchesFrom_refreshJumps]

end

mutual

theorem SlotTrie.size_trie : ∀ t : SlotTrie, t.trie.size = t.size
  | .node spellings endsWord jumps slots => by
    rw [SlotTrie.trie, Trie.size, slots.size_branchesFrom, SlotTrie.size]

theorem Slots.size_branchesFrom : ∀ (slots : Slots) (k : Nat),
    (slots.branchesFrom k).size = slots.size
  | .nil, _ => rfl
  | .free rest, k => rest.size_branchesFrom (k + 1)
  | .taken child rest, k => by
    rw [Slots.branchesFrom, Branches.size, child.size_trie, rest.size_branchesFrom, Slots.size]

end

namespace SlotTrie

theorem child?_trie (t : SlotTrie) (i : Nat) : t.trie.child? i = (t.child? i).map trie := by
  obtain ⟨spellings, endsWord, jumps, slots⟩ := t
  have hget := slots.get?_branchesFrom 0 i
  rwa [Nat.zero_add] at hget

theorem walk_trie (t : SlotTrie) (path : List Nat) : t.trie.walk path = (t.walk path).map trie := by
  induction path generalizing t with
  | nil => rfl
  | cons i path ih =>
    rw [Trie.walk_cons, child?_trie, walk]
    cases t.child? i with
    | none => rfl
    | some child => exact ih child

/-! ## Notes -/

theorem noted_empty : empty.Noted := ⟨rfl, trivial⟩

end SlotTrie

theorem Slots.AllNoted.update {change : SlotTrie → SlotTrie} {slots : Slots} (h : slots.AllNoted)
    (hchange : ∀ t : SlotTrie, t.Noted → (change t).Noted) (i : Nat) :
    (slots.update change i).AllNoted := by
  fun_induction Slots.update change i slots with
  | case1 => exact ⟨hchange _ SlotTrie.noted_empty, trivial⟩
  | case2 rest => exact ⟨hchange _ SlotTrie.noted_empty, h⟩
  | case3 child rest => exact ⟨hchange child h.1, h.2⟩
  | case4 i ih => exact ih h
  | case5 i rest ih => exact ih h
  | case6 i child rest ih => exact ⟨h.1, ih h.2⟩

theorem SlotTrie.Noted.insert {t : SlotTrie} (h : t.Noted) (word : String) (path : List Nat) :
    (t.insert word path).Noted := by
  induction path generalizing t with
  | nil =>
    obtain ⟨spellings, endsWord, jumps, slots⟩ := t
    refine ⟨?_, h.2⟩
    by_cases hword : word ∈ spellings
    · rw [if_pos hword]
      cases spellings with
      | nil => cases hword
      | cons first rest => rfl
    · rw [if_neg hword]
      simp
  | cons i path ih =>
    obtain ⟨spellings, endsWord, jumps, slots⟩ := t
    exact ⟨h.1, h.2.update (fun child hchild => ih hchild) i⟩

mutual

theorem SlotTrie.Noted.refreshJumps : ∀ {t : SlotTrie}, t.Noted → t.refreshJumps.Noted
  | .node _ _ _ _, h => ⟨h.1, h.2.refreshJumps⟩

theorem Slots.AllNoted.refreshJumps :
    ∀ {slots : Slots}, slots.AllNoted → slots.refreshJumps.AllNoted
  | .nil, _ => trivial
  | .free rest, h => show rest.refreshJumps.AllNoted from Slots.AllNoted.refreshJumps h
  | .taken _ _, h => ⟨h.1.refreshJumps, h.2.refreshJumps⟩

end

theorem Slots.AllNoted.get? {slots : Slots} (h : slots.AllNoted) {i : Nat} {child : SlotTrie}
    (hchild : slots.get? i = some child) : child.Noted := by
  fun_induction Slots.get? slots i with
  | case1 => cases hchild
  | case2 => cases hchild
  | case3 rest i ih => exact ih h hchild
  | case4 child' rest => cases hchild; exact h.1
  | case5 child' rest i ih => exact ih h.2 hchild

namespace SlotTrie

theorem Noted.walk {t found : SlotTrie} {path : List Nat} (h : t.Noted)
    (hwalk : t.walk path = some found) : found.Noted := by
  induction path generalizing t with
  | nil =>
    cases hwalk
    exact h
  | cons i path ih =>
    obtain ⟨spellings, endsWord, jumps, slots⟩ := t
    obtain ⟨child, hchild, hrest⟩ := Option.bind_eq_some_iff.1 hwalk
    exact ih (h.2.get? hchild) hrest

/-! ## What both forms show -/

theorem Noted.face?_eq {t : SlotTrie} (h : t.Noted) (path : List Nat) :
    t.face? path = t.trie.face? path := by
  rw [face?, Trie.face?, walk_trie, Option.map_map]
  refine Option.map_congr fun found hwalk => ?_
  have hnoted := h.walk hwalk
  obtain ⟨spellings, endsWord, jumps, slots⟩ := found
  exact congrArg (Trie.Face.mk spellings · jumps) hnoted.1

theorem noted_after (changes : List Trie.Change) :
    (after changes).Noted ∧ (after changes).trie = Trie.after changes := by
  have hfold : ∀ t : SlotTrie, t.Noted → (changes.foldl change t).Noted ∧
      (changes.foldl change t).trie = changes.foldl Trie.change t.trie := by
    induction changes with
    | nil => exact fun t h => ⟨h, rfl⟩
    | cons first changes ih =>
      intro t h
      rw [List.foldl_cons, List.foldl_cons]
      cases first with
      | insert word path =>
        obtain ⟨hnoted, htrie⟩ := ih (t.insert word path) (h.insert word path)
        exact ⟨hnoted, htrie.trans (by rw [trie_insert]; rfl)⟩
      | refreshJumps =>
        obtain ⟨hnoted, htrie⟩ := ih t.refreshJumps h.refreshJumps
        exact ⟨hnoted, htrie.trans (by rw [trie_refreshJumps]; rfl)⟩
  exact hfold empty noted_empty

/-- After the same changes, the nodes of both forms show the same. -/
theorem face?_after (changes : List Trie.Change) (path : List Nat) :
    (after changes).face? path = (Trie.after changes).face? path := by
  obtain ⟨hnoted, htrie⟩ := noted_after changes
  rw [hnoted.face?_eq, htrie]

theorem size_after (changes : List Trie.Change) :
    (after changes).size = (Trie.after changes).size := by
  rw [← (noted_after changes).2, size_trie]

end SlotTrie

end PhraseSearch
