import PhraseSearch.Proofs.Search.Tree
import PhraseSearch.Proofs.Trie.Contents

/-!
# What a search passes on

A search goes on from the draft it has come to, so what is to be shown of all drafts of a search is
shown of the first one and of the successors of one that was come to.  Thus every draft stands at a
node that some letters lead to from a root: of a trie that a state is bound to, or of the trie that
the search began with.

    induction along a search, the last step first                      (Descends.induction_last)
    the nodes that a search comes to                                   (Descends.exists_walk)
    the only trie of a loop                                            (eq_of_trie?_loopOf)
-/

namespace PhraseSearch.Automaton

variable {a : Automaton} {d e : Draft}

theorem Descends.induction_last {P : Draft → Prop} (h : a.Descends d e) (first : P d)
    (step : ∀ e f, a.Descends d e → P e → f ∈ a.successors e → P f) : P e := by
  induction h with
  | refl => exact first
  | step hnext _ ih =>
    refine ih (step _ _ (.refl _) first hnext) fun e f he => ?_
    exact step e f (.step hnext he)

theorem Descends.exists_walk {R : Trie → Prop}
    (hroots : ∀ id root, a.trie? id = some root → R root) (h : a.Descends d e) (hd : R d.trie) :
    ∃ root path, R root ∧ root.walk path = some e.trie := by
  refine h.induction_last (P := fun e => ∃ root path, R root ∧ root.walk path = some e.trie)
    ⟨d.trie, [], hd, rfl⟩ fun e f _ ih hf => ?_
  rcases (mem_successors.1 hf).2 with hletter | hword
  · obtain ⟨i, -, child, bag, hchild, -, rfl⟩ := mem_nextLetters.1 hletter
    obtain ⟨root, path, hroot, hwalk⟩ := ih
    refine ⟨root, path ++ [i], hroot, ?_⟩
    rw [Trie.walk_append, hwalk, Option.bind_some, Trie.walk_cons, hchild]
    rfl
  · obtain ⟨-, target, -, root, hroot, rfl⟩ := mem_nextWords.1 hword
    exact ⟨root, [], hroots target root hroot, rfl⟩

/-! ## A loop -/

/-- An automaton with one word state, from which an edge leads back to it. -/
def loopOf (t : Trie) : Automaton :=
  ⟨#[⟨.start, [2]⟩, ⟨.finish, []⟩, ⟨.word "w" (some t), [1, 2]⟩]⟩

theorem eq_of_trie?_loopOf {t root : Trie} {id : Nat} (h : (loopOf t).trie? id = some root) :
    root = t := by
  match id with
  | 0 | 1 => cases h
  | 2 => cases h; rfl
  | id + 3 => cases h

end PhraseSearch.Automaton
