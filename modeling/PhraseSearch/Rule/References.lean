import PhraseSearch.Rule.Derivation

/-!
# References between rules

A rule refers to the names that its alternatives mention.  A name is *settled* if following
references from it comes to an end, on names that rules have; all other names lead to a name that
no rule has, or into a cycle.  A list is *used* by a rule if it is mentioned in a place that can be
reached from there without repeating anything zero times.

    the lists in what can be derived are used                          (Derives.uses)
-/

namespace PhraseSearch.Rule

/-- Whether some rule has a name. -/
def Defined (rules : List Rule) (name : String) : Prop :=
  ∃ r ∈ rules, r.name = name

/-- Whether an alternative of one name mentions another. -/
def Refers (rules : List Rule) (name target : String) : Prop :=
  ∃ elements ∈ alternativesOf rules name, ∃ e ∈ elements, e.atom = .rule target

/-- Whether references lead from one name to another, in any number of steps, or none. -/
inductive LeadsTo (rules : List Rule) : String → String → Prop
  | refl (name : String) : LeadsTo rules name name
  | step {name next target : String} (first : Refers rules name next)
      (rest : LeadsTo rules next target) : LeadsTo rules name target

/-- Whether references lead from a name back to it. -/
def OnCycle (rules : List Rule) (name : String) : Prop :=
  ∃ next, Refers rules name next ∧ LeadsTo rules next name

/-- A name from which no reference leads to an undefined name or into a cycle. -/
def Settled (rules : List Rule) (name : String) : Prop :=
  ∀ target, LeadsTo rules name target → Defined rules target ∧ ¬ OnCycle rules target

/-- Whether a list is used where an atom stands. -/
inductive Uses (rules : List Rule) : Atom → String → Prop
  | list (name : String) : Uses rules (.list name) name
  | rule {name list : String} {elements : List Element} {e : Element} {n : Nat}
      (alternative : elements ∈ alternativesOf rules name) (mem : e ∈ elements)
      (times : e.Allows n) (pos : 0 < n) (rest : Uses rules e.atom list) :
      Uses rules (.rule name) list

/-! ## Lemmas -/

theorem LeadsTo.trans {rules : List Rule} {a b c : String} (h : LeadsTo rules a b)
    (h' : LeadsTo rules b c) : LeadsTo rules a c := by
  induction h with
  | refl => exact h'
  | step first _ ih => exact .step first (ih h')

theorem Settled.of_refers {rules : List Rule} {name target : String}
    (h : Settled rules name) (href : Refers rules name target) : Settled rules target :=
  fun _ hlead => h _ (.step href hlead)

theorem Unrolls.exists_element {elements : List Element} {atoms : List Atom}
    (h : Unrolls elements atoms) {atom : Atom} (hatom : atom ∈ atoms) :
    ∃ e ∈ elements, e.atom = atom ∧ ∃ n, 0 < n ∧ e.Allows n := by
  induction h with
  | nil => cases hatom
  | @cons e es n atoms times _ ih =>
    rcases List.mem_append.1 hatom with hatom | hatom
    · obtain ⟨hn, rfl⟩ := List.mem_replicate.1 hatom
      exact ⟨e, List.mem_cons_self, rfl, n, Nat.pos_of_ne_zero hn, times⟩
    · obtain ⟨other, hother, hrest⟩ := ih hatom
      exact ⟨other, List.mem_cons_of_mem _ hother, hrest⟩

/-- Every list in a sequence that atoms stand for is used by one of them. -/
theorem Derives.uses {rules : List Rule} {atoms : List Atom} {lists : List String}
    (h : Derives rules atoms lists) {list : String} (hlist : list ∈ lists) :
    ∃ atom ∈ atoms, Uses rules atom list := by
  induction h with
  | nil => cases hlist
  | @list name _ _ _ ih =>
    rcases List.mem_cons.1 hlist with rfl | hlist
    · exact ⟨_, List.mem_cons_self, .list list⟩
    · obtain ⟨atom, hatom, huses⟩ := ih hlist
      exact ⟨atom, List.mem_cons_of_mem _ hatom, huses⟩
  | rule alternative unrolls _ ih =>
    obtain ⟨atom, hatom, huses⟩ := ih hlist
    rcases List.mem_append.1 hatom with hatom | hatom
    · obtain ⟨e, he, rfl, n, hn, times⟩ := unrolls.exists_element hatom
      exact ⟨_, List.mem_cons_self, .rule alternative he times hn huses⟩
    · exact ⟨atom, List.mem_cons_of_mem _ hatom, huses⟩

end PhraseSearch.Rule
