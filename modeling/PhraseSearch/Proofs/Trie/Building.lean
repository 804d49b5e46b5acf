import PhraseSearch.Proofs.Trie.Contents
import PhraseSearch.Trie.Building

/-!
# Properties of all tries that can be built

However a trie was built, its branches stand in order and no node has a spelling twice.  The jumps
of a finished trie are, at every node, the letters that have a branch, by ascending letter.

    no node has a spelling twice                                       (Built.nodup_spellings)
    the jumps of a finished trie                                       (Finished.jumps)
    the trie of a word list is finished                                (finished_ofWords)
-/

namespace PhraseSearch

mutual

theorem Trie.Sorted.refreshJumps : ∀ {t : Trie}, t.Sorted → t.refreshJumps.Sorted
  | .node _ _ branches, h => by
    refine ⟨?_, h.2.refreshJumps⟩
    rw [Branches.indices_refreshJumps]
    exact h.1

theorem Branches.AllSorted.refreshJumps :
    ∀ {b : Branches}, b.AllSorted → b.refreshJumps.AllSorted
  | .nil, _ => trivial
  | .cons _ _ _, h => ⟨h.1.refreshJumps, h.2.refreshJumps⟩

end

namespace Trie

variable {t found : Trie} {path : List Nat}

theorem Built.sorted (h : t.Built) : t.Sorted := by
  induction h with
  | empty => exact sorted_empty
  | insert word path _ ih => exact ih.insert word path
  | refreshJumps _ ih => exact ih.refreshJumps

theorem Built.nodup_spellingsAt (h : t.Built) (path : List Nat) : (t.spellingsAt path).Nodup := by
  induction h with
  | empty =>
    rw [spellingsAt_empty]
    exact List.nodup_nil
  | insert word stored before ih =>
    rw [spellingsAt_insert before.sorted]
    split
    · have hadded : ([word].foldl addSpelling (Trie.spellingsAt _ path)).Nodup :=
        nodup_foldl_addSpelling ih
      exact hadded
    · exact ih
  | refreshJumps _ ih =>
    rw [spellingsAt_refreshJumps]
    exact ih

theorem Built.nodup_spellings (h : t.Built) (hwalk : t.walk path = some found) :
    found.spellings.Nodup := by
  rw [← spellingsAt_of_walk hwalk]
  exact h.nodup_spellingsAt path

theorem Finished.jumps (h : t.Finished) (hwalk : t.walk path = some found) :
    found.jumps.Pairwise (· < ·) ∧ ∀ i, i ∈ found.jumps ↔ (found.child? i).isSome = true := by
  obtain ⟨u, hu, rfl⟩ := h
  exact jumps_of_walk_refreshJumps hu.sorted hwalk

/-! ## Tries of word lists -/

theorem Built.insertWords {a : Alphabet} {words : List String} {u : Trie} (h : t.Built)
    (hinsert : insertWords a words t = .ok u) : u.Built := by
  induction words generalizing t with
  | nil =>
    cases hinsert
    exact h
  | cons word words ih =>
    obtain ⟨spelled, -, hrest⟩ := exists_spell_of_insertWords hinsert
    refine ih ?_ hrest
    split
    · exact h
    · exact h.insert word spelled

theorem finished_ofWords {a : Alphabet} {words : List String} (h : ofWords a words = .ok t) :
    t.Finished := by
  obtain ⟨u, hinsert, rfl⟩ := ofWords_eq_ok h
  exact ⟨u, Built.empty.insertWords hinsert, rfl⟩

end Trie

end PhraseSearch
