import PhraseSearch.Trie.OfWords

/-!
# What a trie holds

A trie is read by the spellings at the end of every path.  Storing a word adds it at its own path
and changes nothing elsewhere, so the trie of a word list has at every path the words of the list
that are spelled so, each once and in the order of the list.

    (t.insert w q).spellingsAt p                                       (spellingsAt_insert)
    the spellings in the trie of a word list                           (spellingsAt_ofWords)
    its jumps are the letters that have a branch                       (jumps_of_walk_refreshJumps)
    the paths that lead somewhere are the beginnings of words          (isSome_walk_ofWords)
-/

namespace PhraseSearch

namespace Trie

/-- A list of spellings with one more, if it is new. -/
def addSpelling (spellings : List String) (word : String) : List String :=
  if word ∈ spellings then spellings else spellings ++ [word]

/-- The spellings at the end of a path. -/
def spellingsAt (t : Trie) (path : List Nat) : List String :=
  match t.walk path with
  | some found => found.spellings
  | none => []

end Trie

mutual

/-- Whether the branches of every node stand in ascending order. -/
def Trie.Sorted : Trie → Prop
  | .node _ _ branches => branches.indices.Pairwise (· < ·) ∧ branches.AllSorted

/-- Whether the branches of every node below stand in ascending order. -/
def Branches.AllSorted : Branches → Prop
  | .nil => True
  | .cons _ child rest => child.Sorted ∧ rest.AllSorted

end

/-! ## Order of branches -/

theorem Trie.sorted_empty : Trie.empty.Sorted := ⟨List.Pairwise.nil, trivial⟩

theorem Branches.AllSorted.get? : ∀ {b : Branches}, b.AllSorted → ∀ {i : Nat} {child : Trie},
    b.get? i = some child → child.Sorted
  | .nil, _, _, _, hchild => nomatch hchild
  | .cons index first rest, h, i, child, hchild => by
    rw [Branches.get?] at hchild
    split at hchild
    · cases hchild
      exact h.1
    · exact get? h.2 hchild

theorem Branches.AllSorted.update {i : Nat} {change : Trie → Trie} {b : Branches}
    (hchange : ∀ t : Trie, t.Sorted → (change t).Sorted) (hb : b.AllSorted) :
    (b.update i change).AllSorted := by
  fun_induction Branches.update i change b with
  | case1 => exact ⟨hchange _ Trie.sorted_empty, trivial⟩
  | case2 index child rest h => exact ⟨hchange _ Trie.sorted_empty, hb⟩
  | case3 child rest => exact ⟨hchange _ hb.1, hb.2⟩
  | case4 index child rest hlt hne ih => exact ⟨hb.1, ih hb.2⟩

theorem Trie.Sorted.insert {t : Trie} (h : t.Sorted) (word : String) (path : List Nat) :
    (t.insert word path).Sorted := by
  induction path generalizing t with
  | nil =>
    obtain ⟨spellings, jumps, branches⟩ := t
    exact h
  | cons i path ih =>
    obtain ⟨spellings, jumps, branches⟩ := t
    exact ⟨Branches.pairwise_indices_update h.1, h.2.update fun child hchild => ih hchild⟩

theorem Trie.Sorted.child {t child : Trie} {i : Nat} (h : t.Sorted)
    (hchild : t.child? i = some child) : child.Sorted := by
  obtain ⟨spellings, jumps, branches⟩ := t
  exact h.2.get? hchild

/-! ## Spellings along a path -/

namespace Trie

theorem walk_cons (t : Trie) (i : Nat) (path : List Nat) :
    t.walk (i :: path) = (t.child? i).bind fun child => child.walk path := rfl

theorem walk_append (t : Trie) (path path' : List Nat) :
    t.walk (path ++ path') = (t.walk path).bind fun found => found.walk path' := by
  induction path generalizing t with
  | nil => rfl
  | cons i path ih =>
    rw [List.cons_append, walk_cons, walk_cons, Option.bind_assoc]
    congr 1
    funext child
    exact ih child

theorem spellingsAt_nil (t : Trie) : t.spellingsAt [] = t.spellings := rfl

theorem spellingsAt_cons (t : Trie) (i : Nat) (path : List Nat) :
    t.spellingsAt (i :: path) =
      match t.child? i with
      | some child => child.spellingsAt path
      | none => [] := by
  rw [spellingsAt, walk_cons]
  cases t.child? i <;> rfl

theorem spellingsAt_empty (path : List Nat) : empty.spellingsAt path = [] := by
  cases path <;> rfl

theorem spellingsAt_of_walk {t found : Trie} {path : List Nat} (h : t.walk path = some found) :
    t.spellingsAt path = found.spellings := by
  rw [spellingsAt, h]

theorem child?_insert {t : Trie} (h : t.Sorted) (word : String) (i : Nat) (path : List Nat)
    (k : Nat) :
    (t.insert word (i :: path)).child? k =
      if k = i then some (((t.child? i).getD empty).insert word path) else t.child? k := by
  obtain ⟨spellings, jumps, branches⟩ := t
  exact Branches.get?_update i (Trie.insert word path) branches k h.1

theorem spellingsAt_insert {t : Trie} (h : t.Sorted) (word : String) (path probe : List Nat) :
    (t.insert word path).spellingsAt probe =
      if probe = path then addSpelling (t.spellingsAt probe) word else t.spellingsAt probe := by
  induction path generalizing t probe with
  | nil =>
    obtain ⟨spellings, jumps, branches⟩ := t
    cases probe with
    | nil => rfl
    | cons k probe => rfl
  | cons i path ih =>
    cases probe with
    | nil =>
      obtain ⟨spellings, jumps, branches⟩ := t
      rfl
    | cons k probe =>
      rw [spellingsAt_cons, spellingsAt_cons, child?_insert h]
      by_cases hk : k = i
      · subst hk
        rw [if_pos rfl]
        cases hchild : t.child? k with
        | none =>
          have := ih (t := empty) sorted_empty probe
          simpa [spellingsAt_empty] using this
        | some child =>
          have := ih (h.child hchild) probe
          simpa using this
      · rw [if_neg hk, if_neg (by simp [hk])]

theorem walk_empty (path : List Nat) : (empty.walk path).isSome = true ↔ path = [] := by
  cases path with
  | nil => exact iff_of_true rfl rfl
  | cons i path => exact iff_of_false (by rw [walk_cons]; exact Bool.false_ne_true) nofun

theorem isSome_walk_insert {t : Trie} (h : t.Sorted) (word : String) (path probe : List Nat) :
    ((t.insert word path).walk probe).isSome = true ↔
      (t.walk probe).isSome = true ∨ probe <+: path := by
  induction path generalizing t probe with
  | nil =>
    obtain ⟨spellings, jumps, branches⟩ := t
    cases probe with
    | nil => exact iff_of_true rfl (.inl rfl)
    | cons k probe => exact (or_iff_left (by simp)).symm
  | cons i path ih =>
    cases probe with
    | nil => exact iff_of_true rfl (.inl rfl)
    | cons k probe =>
      rw [walk_cons, walk_cons, child?_insert h, List.cons_prefix_cons]
      by_cases hk : k = i
      · subst hk
        rw [if_pos rfl, Option.bind_some, and_iff_right rfl]
        cases hchild : t.child? k with
        | none =>
          rw [Option.getD_none, ih sorted_empty, walk_empty]
          refine ⟨fun hor => .inr (hor.elim (fun hnil => hnil ▸ List.nil_prefix) id), ?_⟩
          exact fun hor => .inr (hor.resolve_left Bool.false_ne_true)
        | some child => exact ih (h.child hchild) probe
      · rw [if_neg hk]
        exact (or_iff_left fun hand => hk hand.1).symm

/-! ## Jumps -/

theorem child?_refreshJumps (t : Trie) (i : Nat) :
    t.refreshJumps.child? i = (t.child? i).map refreshJumps := by
  have hget : ∀ b : Branches, b.refreshJumps.get? i = (b.get? i).map refreshJumps := by
    intro b
    induction b using Branches.AllSorted.induct (motive_1 := fun _ => True) with
    | case1 => trivial
    | case2 => rfl
    | case3 index child rest _ ih =>
      rw [Branches.refreshJumps, Branches.get?, Branches.get?, ih]
      split <;> rfl
  obtain ⟨spellings, jumps, branches⟩ := t
  exact hget branches

theorem walk_refreshJumps (t : Trie) (path : List Nat) :
    t.refreshJumps.walk path = (t.walk path).map refreshJumps := by
  induction path generalizing t with
  | nil => rfl
  | cons i path ih =>
    rw [walk_cons, walk_cons, child?_refreshJumps]
    cases t.child? i with
    | none => rfl
    | some child => exact ih child

theorem spellingsAt_refreshJumps (t : Trie) (path : List Nat) :
    t.refreshJumps.spellingsAt path = t.spellingsAt path := by
  rw [spellingsAt, spellingsAt, walk_refreshJumps]
  cases t.walk path with
  | none => rfl
  | some found =>
    obtain ⟨spellings, jumps, branches⟩ := found
    rfl

theorem mem_indices_iff {b : Branches} {i : Nat} : i ∈ b.indices ↔ (b.get? i).isSome = true := by
  induction b using Branches.AllSorted.induct (motive_1 := fun _ => True) with
  | case1 => trivial
  | case2 => simp [Branches.indices, Branches.get?]
  | case3 index child rest _ ih =>
    rw [Branches.indices, Branches.get?, List.mem_cons, ih]
    split <;> simp_all

theorem Sorted.walk {t found : Trie} {path : List Nat} (h : t.Sorted)
    (hwalk : t.walk path = some found) : found.Sorted := by
  induction path generalizing t with
  | nil =>
    cases hwalk
    exact h
  | cons i path ih =>
    obtain ⟨child, hchild, hwalk⟩ := Option.bind_eq_some_iff.1 hwalk
    exact ih (h.child hchild) hwalk

theorem jumps_of_walk_refreshJumps {t found : Trie} {path : List Nat} (h : t.Sorted)
    (hwalk : t.refreshJumps.walk path = some found) :
    found.jumps.Pairwise (· < ·) ∧ ∀ i, i ∈ found.jumps ↔ (found.child? i).isSome = true := by
  rw [walk_refreshJumps] at hwalk
  obtain ⟨old, hold, rfl⟩ := Option.map_eq_some_iff.1 hwalk
  have hsorted := h.walk hold
  obtain ⟨spellings, jumps, branches⟩ := old
  refine ⟨hsorted.1, fun i => ?_⟩
  rw [child?_refreshJumps, Option.isSome_map]
  exact mem_indices_iff

/-! ## Distinct spellings -/

theorem mem_foldl_addSpelling {words spellings : List String} {w : String} :
    w ∈ words.foldl addSpelling spellings ↔ w ∈ spellings ∨ w ∈ words := by
  induction words generalizing spellings with
  | nil => simp
  | cons word words ih =>
    rw [List.foldl_cons, ih, List.mem_cons, ← or_assoc]
    refine or_congr_left ?_
    rw [addSpelling]
    split
    · next hold => exact ⟨.inl, fun h => h.elim id fun e => e ▸ hold⟩
    · simp

theorem nodup_foldl_addSpelling {words spellings : List String} (h : spellings.Nodup) :
    (words.foldl addSpelling spellings).Nodup := by
  induction words generalizing spellings with
  | nil => exact h
  | cons word words ih =>
    refine ih ?_
    rw [addSpelling]
    split
    · exact h
    · next hnew =>
      refine List.nodup_append.2 ⟨h, by simp, fun w hw v hv => ?_⟩
      rw [List.mem_singleton] at hv
      exact fun e => hnew (by rw [← hv, ← e]; exact hw)

theorem foldl_addSpelling_eq (words spellings : List String) :
    words.foldl addSpelling spellings = spellings ++ (words.removeAll spellings).eraseDups := by
  induction words generalizing spellings with
  | nil => simp
  | cons word words ih =>
    rw [List.foldl_cons, ih, addSpelling, List.cons_removeAll]
    by_cases hold : word ∈ spellings
    · simp [hold]
    · have hrest : words.removeAll (spellings ++ [word]) =
          (words.removeAll spellings).filter fun w => !w == word := by
        rw [List.removeAll, List.removeAll, List.filter_filter]
        refine List.filter_congr fun w _ => ?_
        by_cases hw : w = word <;> simp [hw]
      simp [hold, hrest, List.eraseDups_cons]

/-- Words added one after the other are the distinct words, in the order of their first places. -/
theorem foldl_addSpelling_nil (words : List String) :
    words.foldl addSpelling [] = words.eraseDups := by
  rw [foldl_addSpelling_eq, List.removeAll_nil, List.nil_append]

end Trie

/-! ## Tries of word lists -/

/-- The words of a list that are spelled along a path. -/
def Alphabet.spelledAs (a : Alphabet) (words : List String) (path : List Nat) : List String :=
  words.filter fun word => (a.spell word).toOption = some path

namespace Trie

variable {a : Alphabet}

theorem spelledAs_cons {word : String} {words : List String} {spelled : List Nat}
    (hspell : a.spell word = .ok spelled) (path : List Nat) :
    a.spelledAs (word :: words) path =
      if path = spelled then word :: a.spelledAs words path else a.spelledAs words path := by
  rw [Alphabet.spelledAs, List.filter_cons, hspell]
  by_cases h : path = spelled
  · simp [h, Except.toOption, Alphabet.spelledAs]
  · have : ¬ spelled = path := fun e => h e.symm
    simp [h, this, Except.toOption, Alphabet.spelledAs]

theorem exists_spell_of_insertWords {word : String} {words : List String} {t u : Trie}
    (h : insertWords a (word :: words) t = .ok u) : ∃ spelled, a.spell word = .ok spelled ∧
      insertWords a words (if spelled.isEmpty then t else t.insert word spelled) = .ok u := by
  rw [insertWords] at h
  cases hspell : a.spell word with
  | error fault =>
    rw [hspell] at h
    cases h
  | ok spelled =>
    rw [hspell] at h
    exact ⟨spelled, rfl, h⟩

/-- Words without a canonical letter are passed over, all others are stored where they belong. -/
theorem spellingsAt_insertWords {words : List String} {t u : Trie} (h : t.Sorted)
    (hinsert : insertWords a words t = .ok u) :
    u.Sorted ∧ ∀ path, u.spellingsAt path =
      if path = [] then t.spellingsAt []
      else (a.spelledAs words path).foldl addSpelling (t.spellingsAt path) := by
  induction words generalizing t with
  | nil =>
    cases hinsert
    refine ⟨h, fun path => ?_⟩
    split
    · next hpath => rw [hpath]
    · rfl
  | cons word words ih =>
    obtain ⟨spelled, hspell, hinsert⟩ := exists_spell_of_insertWords hinsert
    cases spelled with
    | nil =>
      obtain ⟨hsorted, hat⟩ := ih h hinsert
      refine ⟨hsorted, fun path => ?_⟩
      rw [hat path, spelledAs_cons hspell]
      by_cases hpath : path = []
      · simp [hpath]
      · simp [hpath]
    | cons i rest =>
      obtain ⟨hsorted, hat⟩ := ih (h.insert word (i :: rest)) hinsert
      refine ⟨hsorted, fun path => ?_⟩
      rw [hat path, spelledAs_cons hspell, spellingsAt_insert h, spellingsAt_insert h]
      by_cases hpath : path = []
      · simp [hpath]
      · by_cases hspelled : path = i :: rest
        · simp [hspelled]
        · simp [hpath, hspelled]

/-- All words are spelled, and what leads somewhere are their beginnings. -/
theorem isSome_walk_insertWords {words : List String} {t u : Trie} (h : t.Sorted)
    (hinsert : insertWords a words t = .ok u) :
    (∀ word ∈ words, ∃ path, a.spell word = .ok path) ∧
      ∀ probe, (u.walk probe).isSome = true ↔ (t.walk probe).isSome = true ∨
        ∃ word ∈ words, ∃ rest, a.spell word = .ok (probe ++ rest) := by
  induction words generalizing t with
  | nil =>
    cases hinsert
    exact ⟨nofun, fun probe => (or_iff_left (by simp)).symm⟩
  | cons word words ih =>
    obtain ⟨spelled, hspell, hrest⟩ := exists_spell_of_insertWords hinsert
    have hone : ∀ probe, ((if spelled.isEmpty then t else t.insert word spelled).walk
        probe).isSome = true ↔ (t.walk probe).isSome = true ∨
          ∃ rest, a.spell word = .ok (probe ++ rest) := by
      intro probe
      have hbegins : (∃ rest, a.spell word = .ok (probe ++ rest)) ↔ probe <+: spelled := by
        rw [hspell]
        exact exists_congr fun rest => by rw [Except.ok.injEq, eq_comm]
      rw [hbegins]
      cases spelled with
      | nil =>
        refine (or_iff_left_of_imp fun hnil => ?_).symm
        obtain rfl := List.prefix_nil.1 hnil
        rfl
      | cons i path => exact isSome_walk_insert h word (i :: path) probe
    have hsorted : (if spelled.isEmpty then t else t.insert word spelled).Sorted := by
      split
      · exact h
      · exact h.insert word spelled
    obtain ⟨hspells, hwalks⟩ := ih hsorted hrest
    refine ⟨List.forall_mem_cons.2 ⟨⟨spelled, hspell⟩, hspells⟩, fun probe => ?_⟩
    rw [hwalks, hone, or_assoc]
    simp only [List.mem_cons, exists_eq_or_imp]

theorem ofWords_eq_ok {words : List String} {t : Trie} (h : ofWords a words = .ok t) :
    ∃ u, insertWords a words empty = .ok u ∧ t = u.refreshJumps := by
  rw [ofWords] at h
  cases hinsert : insertWords a words empty with
  | error fault => rw [hinsert] at h; cases h
  | ok u => rw [hinsert] at h; cases h; exact ⟨u, rfl, rfl⟩

theorem spellingsAt_ofWords {words : List String} {t : Trie} (h : ofWords a words = .ok t)
    (path : List Nat) :
    t.spellingsAt path =
      if path = [] then [] else (a.spelledAs words path).foldl addSpelling [] := by
  obtain ⟨u, hinsert, rfl⟩ := ofWords_eq_ok h
  rw [spellingsAt_refreshJumps, (spellingsAt_insertWords sorted_empty hinsert).2 path,
    spellingsAt_empty, spellingsAt_empty]

theorem mem_spellingsAt_ofWords {words : List String} {t : Trie} (h : ofWords a words = .ok t)
    {path : List Nat} {word : String} :
    word ∈ t.spellingsAt path ↔ path ≠ [] ∧ word ∈ words ∧ a.spell word = .ok path := by
  have hspell : (a.spell word).toOption = some path ↔ a.spell word = .ok path := by
    cases a.spell word <;> simp [Except.toOption]
  rw [spellingsAt_ofWords h]
  split
  · next hpath => simp [hpath]
  · next hpath => simp [mem_foldl_addSpelling, Alphabet.spelledAs, hspell, hpath]

theorem nodup_spellingsAt_ofWords {words : List String} {t : Trie} (h : ofWords a words = .ok t)
    (path : List Nat) : (t.spellingsAt path).Nodup := by
  rw [spellingsAt_ofWords h]
  split
  · exact List.nodup_nil
  · exact nodup_foldl_addSpelling List.nodup_nil

theorem isSome_walk_ofWords {words : List String} {t : Trie} (h : ofWords a words = .ok t)
    {probe : List Nat} : (t.walk probe).isSome = true ↔
      probe = [] ∨ ∃ word ∈ words, ∃ rest, a.spell word = .ok (probe ++ rest) := by
  obtain ⟨u, hinsert, rfl⟩ := ofWords_eq_ok h
  rw [walk_refreshJumps, Option.isSome_map,
    (isSome_walk_insertWords sorted_empty hinsert).2 probe, walk_empty]

theorem exists_spell_of_ofWords {words : List String} {t : Trie} (h : ofWords a words = .ok t)
    {word : String} (hword : word ∈ words) : ∃ path, a.spell word = .ok path := by
  obtain ⟨u, hinsert, -⟩ := ofWords_eq_ok h
  exact (isSome_walk_insertWords sorted_empty hinsert).1 word hword

theorem endsWord_ofWords {words : List String} {t : Trie} (h : ofWords a words = .ok t) :
    t.endsWord = false := by
  have hroot := spellingsAt_ofWords h []
  rw [spellingsAt_nil, if_pos rfl] at hroot
  rw [endsWord, hroot]
  rfl

theorem jumps_ofWords {words : List String} {t found : Trie} {path : List Nat}
    (h : ofWords a words = .ok t) (hwalk : t.walk path = some found) :
    found.jumps.Pairwise (· < ·) ∧ ∀ i, i ∈ found.jumps ↔ (found.child? i).isSome = true := by
  obtain ⟨u, hinsert, rfl⟩ := ofWords_eq_ok h
  exact jumps_of_walk_refreshJumps (spellingsAt_insertWords sorted_empty hinsert).1 hwalk

end Trie

end PhraseSearch
