/-!
# Maps from names

A `NameMap` holds one value per name, in ascending order of the names (by code point).  The
order is part of the type, so two maps that answer every question alike are equal, whatever
order their entries came in.

    (m.insert n v).get? k = if k = n then some v else m.get? k        (get?_insert)
    n ∈ m.names ↔ m.contains n                                         (mem_names_iff)
    m.names is strictly ascending                                      (names_pairwise)
    equal look-ups, equal maps                                         (ext_get?)
-/

namespace PhraseSearch

/-- A finite map from names to values, ascending in the names. -/
structure NameMap (α : Type) where
  entries : List (String × α)
  ascending : entries.Pairwise fun a b => a.1 < b.1

namespace NameMap

variable {α : Type}

/-! ## Operations -/

/-- The map without entries. -/
def empty : NameMap α := ⟨[], .nil⟩

/-- Puts an entry in its place; an entry of the same name gives way. -/
def insertEntry (name : String) (value : α) : List (String × α) → List (String × α)
  | [] => [(name, value)]
  | (n, v) :: rest =>
    if name < n then (name, value) :: (n, v) :: rest
    else if name = n then (name, value) :: rest
    else (n, v) :: insertEntry name value rest

theorem mem_insertEntry {name : String} {value : α} {l : List (String × α)} {e : String × α}
    (h : e ∈ insertEntry name value l) : e = (name, value) ∨ e ∈ l := by
  fun_induction insertEntry name value l with
  | case1 => simpa using h
  | case2 => simpa using h
  | case3 v rest _ =>
    rcases List.mem_cons.1 h with h | h
    · exact .inl h
    · exact .inr (List.mem_cons_of_mem _ h)
  | case4 n v rest _ _ ih =>
    rcases List.mem_cons.1 h with h | h
    · exact .inr (by simp [h])
    · exact (ih h).imp_right (List.mem_cons_of_mem _)

theorem pairwise_insertEntry {name : String} {value : α} {l : List (String × α)}
    (hl : l.Pairwise fun a b => a.1 < b.1) :
    (insertEntry name value l).Pairwise fun a b => a.1 < b.1 := by
  fun_induction insertEntry name value l with
  | case1 => simp
  | case2 n v rest h =>
    refine List.pairwise_cons.2 ⟨fun e he => ?_, hl⟩
    rcases List.mem_cons.1 he with rfl | he
    · exact h
    · exact String.lt_trans h ((List.pairwise_cons.1 hl).1 e he)
  | case3 v rest =>
    exact List.pairwise_cons.2 (List.pairwise_cons.1 hl)
  | case4 n v rest hlt hne ih =>
    obtain ⟨hhead, htail⟩ := List.pairwise_cons.1 hl
    refine List.pairwise_cons.2 ⟨fun e he => ?_, ih htail⟩
    rcases mem_insertEntry he with rfl | he
    · rcases String.le_total n name with hle | hle
      · exact String.not_le.1 fun hge => hne (String.le_antisymm hge hle)
      · exact absurd (String.not_le.1 fun hge => hne (String.le_antisymm hle hge)) hlt
    · exact hhead e he

/-- Adds an entry, or replaces the one of that name. -/
def insert (m : NameMap α) (name : String) (value : α) : NameMap α :=
  ⟨insertEntry name value m.entries, pairwise_insertEntry m.ascending⟩

/-- The value of a name. -/
def get? (m : NameMap α) (name : String) : Option α :=
  m.entries.lookup name

/-- Whether the map has an entry of that name. -/
def contains (m : NameMap α) (name : String) : Bool :=
  (m.get? name).isSome

/-- The names, ascending. -/
def names (m : NameMap α) : List String :=
  m.entries.map Prod.fst

/-- The number of entries. -/
def size (m : NameMap α) : Nat :=
  m.entries.length

/-- Whether there is no entry. -/
def isEmpty (m : NameMap α) : Bool :=
  m.entries.isEmpty

/-- The map with the given entries; of two entries of one name the later one counts. -/
def ofList (l : List (String × α)) : NameMap α :=
  l.foldl (fun m (name, value) => m.insert name value) empty

/-! ## Lemmas -/

theorem names_pairwise (m : NameMap α) : m.names.Pairwise (· < ·) :=
  List.pairwise_map.2 m.ascending

theorem lookup_cons_eq_ite (k n : String) (v : α) (l : List (String × α)) :
    ((n, v) :: l).lookup k = if k = n then some v else l.lookup k := by
  rw [List.lookup_cons]
  by_cases h : k = n
  · simp [h]
  · rw [if_neg h, beq_eq_false_iff_ne.2 h]

theorem lookup_insertEntry (name : String) (value : α) (l : List (String × α)) (k : String)
    (hl : l.Pairwise fun a b => a.1 < b.1) :
    (insertEntry name value l).lookup k = if k = name then some value else l.lookup k := by
  fun_induction insertEntry name value l with
  | case1 => rw [lookup_cons_eq_ite]
  | case2 n v rest h => rw [lookup_cons_eq_ite]
  | case3 v rest =>
    rw [lookup_cons_eq_ite, lookup_cons_eq_ite]
    split <;> rfl
  | case4 n v rest hlt hne ih =>
    rw [lookup_cons_eq_ite, lookup_cons_eq_ite, ih (List.pairwise_cons.1 hl).2]
    by_cases hk : k = n
    · have : ¬ n = name := fun e => hne e.symm
      simp [hk, this]
    · simp [hk]

@[simp] theorem get?_empty (k : String) : (empty : NameMap α).get? k = none := rfl

@[simp] theorem get?_insert (m : NameMap α) (name : String) (value : α) (k : String) :
    (m.insert name value).get? k = if k = name then some value else m.get? k :=
  lookup_insertEntry name value m.entries k m.ascending

theorem contains_eq_false_iff {m : NameMap α} {name : String} :
    m.contains name = false ↔ m.get? name = none := by
  rw [contains, Option.isSome_eq_false_iff, Option.isNone_iff_eq_none]

theorem not_contains (m : NameMap α) (name : String) :
    (!m.contains name) = (m.get? name).isNone := by
  rw [contains, Option.not_isSome]

theorem mem_names_iff {m : NameMap α} {name : String} :
    name ∈ m.names ↔ m.contains name = true := by
  simp only [names, contains, get?]
  induction m.entries with
  | nil => simp
  | cons e l ih =>
    obtain ⟨n, v⟩ := e
    rw [lookup_cons_eq_ite, List.map_cons, List.mem_cons, ih]
    by_cases h : name = n <;> simp [h]

theorem mem_names_ofList {l : List (String × α)} {name : String} :
    name ∈ (ofList l).names ↔ name ∈ l.map Prod.fst := by
  have hfold : ∀ m : NameMap α,
      name ∈ (l.foldl (fun m e => m.insert e.1 e.2) m).names ↔
        name ∈ m.names ∨ name ∈ l.map Prod.fst := by
    induction l with
    | nil => simp
    | cons e l ih =>
      intro m
      obtain ⟨n, v⟩ := e
      have hinsert : name ∈ (m.insert n v).names ↔ name ∈ m.names ∨ name = n := by
        rw [mem_names_iff, mem_names_iff, contains, contains, get?_insert]
        split <;> simp_all
      rw [List.foldl_cons, ih, hinsert, List.map_cons, List.mem_cons, or_assoc]
  show name ∈ (l.foldl (fun m e => m.insert e.1 e.2) empty).names ↔ _
  rw [hfold]
  simp [names, empty]

/-- What a map of entries holds is one of them. -/
theorem mem_of_get?_ofList {l : List (String × α)} {name : String} {value : α}
    (h : (ofList l).get? name = some value) : (name, value) ∈ l := by
  have hfold : ∀ m : NameMap α,
      (l.foldl (fun m e => m.insert e.1 e.2) m).get? name = some value →
        m.get? name = some value ∨ (name, value) ∈ l := by
    clear h
    induction l with
    | nil => exact fun m hm => .inl hm
    | cons e l ih =>
      intro m hm
      obtain ⟨n, v⟩ := e
      rcases ih (m.insert n v) hm with hfirst | hrest
      · rw [get?_insert] at hfirst
        split at hfirst
        · next hname =>
          cases hfirst
          exact .inr (hname ▸ List.mem_cons_self)
        · exact .inl hfirst
      · exact .inr (List.mem_cons_of_mem _ hrest)
  exact (hfold empty h).resolve_left nofun

theorem ext_get? {m m' : NameMap α} (h : ∀ name, m.get? name = m'.get? name) : m = m' := by
  obtain ⟨l, hl⟩ := m
  obtain ⟨l', hl'⟩ := m'
  simp only [get?] at h
  congr
  induction l generalizing l' with
  | nil =>
    cases l' with
    | nil => rfl
    | cons e l' => have := h e.1; simp [lookup_cons_eq_ite e.1 e.1 e.2] at this
  | cons e l ih =>
    obtain ⟨n, v⟩ := e
    cases l' with
    | nil => have := h n; simp at this
    | cons e' l' =>
      obtain ⟨n', v'⟩ := e'
      have lookup_none : ∀ {n : String} {l : List (String × α)},
          (∀ e ∈ l, n < e.1) → l.lookup n = none := by
        intro n l hlt
        induction l with
        | nil => rfl
        | cons e l ih =>
          have hne : (n == e.1) = false := by
            have := hlt e (by simp)
            exact beq_false_of_ne fun he => String.lt_irrefl _ (he ▸ this)
          rw [List.lookup_cons, hne]
          exact ih fun e he => hlt e (List.mem_cons_of_mem _ he)
      obtain ⟨hhead, htail⟩ := List.pairwise_cons.1 hl
      obtain ⟨hhead', htail'⟩ := List.pairwise_cons.1 hl'
      have hn : n = n' := by
        apply Classical.byContradiction
        intro hne
        rcases String.le_total n n' with hle | hle
        · have hlt : n < n' := String.not_le.1 fun hge => hne (String.le_antisymm hle hge)
          have := h n
          rw [lookup_none (l := (n', v') :: l') fun e he => by
            rcases List.mem_cons.1 he with rfl | he
            · exact hlt
            · exact String.lt_trans hlt (hhead' e he)] at this
          simp at this
        · have hlt : n' < n := String.not_le.1 fun hge => hne (String.le_antisymm hge hle)
          have := h n'
          rw [lookup_none (l := (n, v) :: l) fun e he => by
            rcases List.mem_cons.1 he with rfl | he
            · exact hlt
            · exact String.lt_trans hlt (hhead e he)] at this
          simp at this
      subst hn
      have hv : v = v' := by simpa using h n
      subst hv
      congr 1
      refine ih htail l' htail' fun k => ?_
      by_cases hk : k = n
      · subst hk
        rw [lookup_none hhead, lookup_none hhead']
      · simpa [lookup_cons_eq_ite, hk] using h k

end NameMap

end PhraseSearch
