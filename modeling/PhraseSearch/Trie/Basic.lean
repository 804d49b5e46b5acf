/-!
# Tries over letter indices

A `Trie` holds the words of one list.  The path to a node spells its words; a node
keeps the spellings that share the path, in the order in which they came.  A node also keeps its
*jumps*, the indices of its branches.  They are computed by `refreshJumps`; a word that is
inserted later does not change them.

    (b.update i f).get? k = some (f (b.get? i or empty)) for k = i, else b.get? k   (get?_update)
    `update` keeps the branches in ascending order                       (pairwise_indices_update)
    `refreshJumps` changes no branch                                     (indices_refreshJumps)
-/

namespace PhraseSearch

mutual

/-- A node of a trie, and all that lies below it. -/
inductive Trie where
  | node (spellings : List String) (jumps : List Nat) (branches : Branches)

/-- The branches of a node, by ascending letter index. -/
inductive Branches where
  | nil
  | cons (index : Nat) (child : Trie) (rest : Branches)

end

deriving instance DecidableEq for Trie, Branches

/-! ## Reading -/

namespace Trie

/-- The trie without words. -/
def empty : Trie := node [] [] .nil

/-- The distinct words that end here, in the order in which they came. -/
def spellings : Trie → List String
  | node spellings _ _ => spellings

/-- The indices of the branches, as of the last time they were computed. -/
def jumps : Trie → List Nat
  | node _ jumps _ => jumps

/-- The branches. -/
def branches : Trie → Branches
  | node _ _ branches => branches

/-- Whether a word ends here. -/
def endsWord (t : Trie) : Bool := !t.spellings.isEmpty

end Trie

namespace Branches

/-- The branch of a letter. -/
def get? : Branches → Nat → Option Trie
  | nil, _ => none
  | cons index child rest, i => if i = index then some child else rest.get? i

/-- The letters that have a branch. -/
def indices : Branches → List Nat
  | nil => []
  | cons index _ rest => index :: rest.indices

end Branches

/-- The node below the branch of a letter. -/
def Trie.child? (t : Trie) (i : Nat) : Option Trie := t.branches.get? i

/-- The node at the end of a path. -/
def Trie.walk : Trie → List Nat → Option Trie
  | t, [] => some t
  | t, i :: path => (t.child? i).bind fun child => child.walk path

mutual

/-- The number of distinct words at a node and below. -/
def Trie.size : Trie → Nat
  | .node spellings _ branches => spellings.length + branches.size

/-- The number of distinct words below all branches. -/
def Branches.size : Branches → Nat
  | .nil => 0
  | .cons _ child rest => child.size + rest.size

end

/-! ## Building -/

/-- Changes the branch of a letter; a new branch starts from the empty trie. -/
def Branches.update (i : Nat) (change : Trie → Trie) : Branches → Branches
  | nil => cons i (change .empty) nil
  | cons index child rest =>
    if i < index then cons i (change .empty) (cons index child rest)
    else if i = index then cons index (change child) rest
    else cons index child (rest.update i change)

/-- Stores a word at the end of a path, unless it stands there already. -/
def Trie.insert (word : String) : List Nat → Trie → Trie
  | [], .node spellings jumps branches =>
    .node (if word ∈ spellings then spellings else spellings ++ [word]) jumps branches
  | i :: path, .node spellings jumps branches =>
    .node spellings jumps (branches.update i (Trie.insert word path))

mutual

/-- Computes the jumps of a node and of every node below. -/
def Trie.refreshJumps : Trie → Trie
  | .node spellings _ branches => .node spellings branches.indices branches.refreshJumps

/-- Computes the jumps of every node below the branches. -/
def Branches.refreshJumps : Branches → Branches
  | .nil => .nil
  | .cons index child rest => .cons index child.refreshJumps rest.refreshJumps

end

/-! ## Lemmas -/

theorem Branches.get?_eq_none_of_lt {i : Nat} :
    ∀ {b : Branches}, (∀ j ∈ b.indices, i < j) → b.get? i = none
  | .nil, _ => rfl
  | .cons j _ rest, h => by
    rw [get?, if_neg (Nat.ne_of_lt (h j (by simp [indices])))]
    exact get?_eq_none_of_lt fun k hk => h k (by simp [indices, hk])

theorem Branches.get?_update (i : Nat) (change : Trie → Trie) (b : Branches) (k : Nat)
    (hb : b.indices.Pairwise (· < ·)) :
    (b.update i change).get? k =
      if k = i then some (change ((b.get? i).getD .empty)) else b.get? k := by
  fun_induction Branches.update i change b with
  | case1 => simp [get?]
  | case2 index child rest h =>
    have hnone : get? (cons index child rest) i = none := by
      refine get?_eq_none_of_lt fun j hj => ?_
      rcases List.mem_cons.1 hj with rfl | hj
      · exact h
      · exact Nat.lt_trans h ((List.pairwise_cons.1 hb).1 j hj)
    rw [get?, hnone]
    rfl
  | case3 child rest =>
    by_cases hk : k = i <;> simp [get?, hk]
  | case4 index child rest hlt hne ih =>
    rw [get?, ih (List.pairwise_cons.1 hb).2, get?, get?, if_neg hne]
    by_cases hk : k = index
    · have : ¬ index = i := fun e => hne e.symm
      simp [hk, this]
    · simp [hk]

theorem Branches.mem_indices_update {i : Nat} {change : Trie → Trie} {b : Branches} {k : Nat} :
    k ∈ (b.update i change).indices ↔ k = i ∨ k ∈ b.indices := by
  fun_induction Branches.update i change b with
  | case1 => simp [indices]
  | case2 => simp [indices]
  | case3 => simp [indices]
  | case4 index child rest _ _ ih => simp [indices, ih, or_left_comm]

theorem Branches.pairwise_indices_update {i : Nat} {change : Trie → Trie} {b : Branches}
    (hb : b.indices.Pairwise (· < ·)) : (b.update i change).indices.Pairwise (· < ·) := by
  fun_induction Branches.update i change b with
  | case1 => simp [indices]
  | case2 index child rest h =>
    refine List.pairwise_cons.2 ⟨fun j hj => ?_, hb⟩
    rcases List.mem_cons.1 hj with rfl | hj
    · exact h
    · exact Nat.lt_trans h ((List.pairwise_cons.1 hb).1 j hj)
  | case3 => exact hb
  | case4 index child rest hlt hne ih =>
    obtain ⟨hhead, htail⟩ := List.pairwise_cons.1 hb
    refine List.pairwise_cons.2 ⟨fun j hj => ?_, ih htail⟩
    rcases mem_indices_update.1 hj with rfl | hj
    · omega
    · exact hhead j hj

theorem Branches.indices_refreshJumps : ∀ b : Branches, b.refreshJumps.indices = b.indices
  | .nil => rfl
  | .cons index _ rest => congrArg (index :: ·) (indices_refreshJumps rest)

end PhraseSearch
