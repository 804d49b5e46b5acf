import PhraseSearch.Proofs.Pattern.Denotation

/-!
# Languages of rules

What some atoms derive is the product of what each of them derives, and a name derives what any of
its alternatives does.  So the languages of the names solve the equations that the rules state: the
pattern of a name has the language of the name, if references have the languages of theirs.

    atoms derive a product                                             (derived_append)
    the pattern of a name has the language of the name                 (languageIn_ofRules)
-/

namespace PhraseSearch.Rule

/-- The sequences of list names that some atoms stand for, one after another. -/
def derived (rules : List Rule) (atoms : List Atom) : Language String :=
  {w | Derives rules atoms w}

/-- The language of a name. -/
def language (rules : List Rule) (name : String) : Language String :=
  derived rules [.rule name]

variable {rules : List Rule}

/-! ## Atoms -/

theorem derived_nil : derived rules [] = 1 := by
  ext w
  rw [Language.mem_one]
  constructor
  · intro h
    cases h
    rfl
  · rintro rfl
    exact .nil

/-- A derivation from two sequences of atoms is one from each of them. -/
theorem Derives.split {atoms : List Atom} {w : List String} (h : Derives rules atoms w)
    (first second : List Atom) (hatoms : atoms = first ++ second) :
    ∃ u v, w = u ++ v ∧ Derives rules first u ∧ Derives rules second v := by
  induction h generalizing first with
  | nil =>
    obtain ⟨rfl, rfl⟩ := List.append_eq_nil_iff.1 hatoms.symm
    exact ⟨[], [], rfl, .nil, .nil⟩
  | @list name atoms lists rest ih =>
    cases first with
    | nil =>
      obtain rfl : _ = second := hatoms
      exact ⟨[], _, rfl, .nil, .list rest⟩
    | cons atom first =>
      obtain ⟨rfl, hrest⟩ := List.cons_eq_cons.1 hatoms
      obtain ⟨u, v, rfl, hu, hv⟩ := ih first hrest
      exact ⟨name :: u, v, rfl, .list hu, hv⟩
  | @rule name elements unrolled atoms lists alternative unrolls rest ih =>
    cases first with
    | nil =>
      obtain rfl : _ = second := hatoms
      exact ⟨[], _, rfl, .nil, .rule alternative unrolls rest⟩
    | cons atom first =>
      obtain ⟨rfl, rfl⟩ := List.cons_eq_cons.1 hatoms
      obtain ⟨u, v, rfl, hu, hv⟩ := ih (unrolled ++ first) (List.append_assoc _ _ _).symm
      exact ⟨u, v, rfl, .rule alternative unrolls hu, hv⟩

theorem derived_append (first second : List Atom) :
    derived rules (first ++ second) = derived rules first * derived rules second := by
  ext w
  rw [Language.mem_mul]
  constructor
  · intro h
    obtain ⟨u, v, rfl, hu, hv⟩ := Derives.split h first second rfl
    exact ⟨u, hu, v, hv, rfl⟩
  · rintro ⟨u, hu, v, hv, rfl⟩
    exact Derives.append hu hv

theorem derived_replicate (n : Nat) (atom : Atom) :
    derived rules (List.replicate n atom) = derived rules [atom] ^ n := by
  induction n with
  | zero => rw [List.replicate_zero, derived_nil, pow_zero]
  | succ n ih => rw [List.replicate_succ, ← List.singleton_append, derived_append, ih, pow_succ']

theorem derived_list (name : String) : derived rules [.list name] = {[name]} := by
  ext w
  constructor
  · intro h
    cases h with
    | list rest => cases rest; rfl
  · rintro rfl
    exact .list .nil

theorem languageIn_ofAtom (atom : Atom) :
    (Pattern.ofAtom atom).languageIn (language rules) = derived rules [atom] := by
  cases atom with
  | list name => exact (derived_list name).symm
  | rule name => rfl

/-! ## Alternatives -/

theorem mem_languageIn_ofElement {e : Element} {w : List String} :
    w ∈ (Pattern.ofElement e).languageIn (language rules) ↔
      ∃ n, e.Allows n ∧ w ∈ derived rules (List.replicate n e.atom) := by
  rw [Pattern.ofElement]
  cases hbounds : e.bounds with
  | none =>
    simp only [Element.Allows, hbounds, exists_eq_left, List.replicate_one, languageIn_ofAtom]
  | some bounds =>
    simp only [Element.Allows, hbounds, Pattern.languageIn, languageIn_ofAtom,
      Bounds.mem_powers, derived_replicate]

theorem languageIn_ofAlternative (elements : List Element) :
    (Pattern.ofAlternative elements).languageIn (language rules) =
      Pattern.productIn (language rules) (elements.map Pattern.ofElement) := by
  match elements with
  | [] => rfl
  | [e] => exact (mul_one _).symm
  | _ :: _ :: _ => rfl

/-- An alternative has the language of all the atoms that it may be unrolled to. -/
theorem mem_languageIn_ofAlternative {elements : List Element} {w : List String} :
    w ∈ (Pattern.ofAlternative elements).languageIn (language rules) ↔
      ∃ unrolled, Unrolls elements unrolled ∧ Derives rules unrolled w := by
  rw [languageIn_ofAlternative]
  induction elements generalizing w with
  | nil =>
    have hnil : derived rules [] = 1 := derived_nil
    rw [List.map_nil, Pattern.productIn, ← hnil]
    constructor
    · intro h
      exact ⟨[], .nil, h⟩
    · rintro ⟨unrolled, hunrolled, h⟩
      cases hunrolled
      exact h
  | cons e elements ih =>
    rw [List.map_cons, Pattern.productIn, Language.mem_mul]
    constructor
    · rintro ⟨u, hu, v, hv, rfl⟩
      obtain ⟨n, htimes, hu⟩ := mem_languageIn_ofElement.1 hu
      obtain ⟨unrolled, hunrolled, hv⟩ := ih.1 hv
      exact ⟨_, .cons htimes hunrolled, Derives.append hu hv⟩
    · rintro ⟨unrolled, hunrolled, h⟩
      cases hunrolled with
      | @cons _ _ n atoms times rest =>
        obtain ⟨u, v, rfl, hu, hv⟩ := Derives.split h _ _ rfl
        exact ⟨u, mem_languageIn_ofElement.2 ⟨n, times, hu⟩, v, ih.2 ⟨atoms, rest, hv⟩, rfl⟩

/-! ## Names -/

theorem mem_language {name : String} {w : List String} :
    w ∈ language rules name ↔ ∃ elements ∈ alternativesOf rules name,
      ∃ unrolled, Unrolls elements unrolled ∧ Derives rules unrolled w := by
  constructor
  · intro h
    cases h with
    | rule alternative unrolls rest =>
      rw [List.append_nil] at rest
      exact ⟨_, alternative, _, unrolls, rest⟩
  · rintro ⟨elements, halternative, unrolled, hunrolls, h⟩
    exact .rule halternative hunrolls (by rwa [List.append_nil])

theorem languageIn_ofRules (rules : List Rule) (name : String) :
    (Pattern.ofRules rules name).languageIn (language rules) = language rules name := by
  ext w
  rw [mem_language, Pattern.ofRules, Pattern.languageIn, Pattern.sumIn_eq_sum, Pattern.mem_sum]
  simp only [List.map_map, List.mem_map, Function.comp_apply, exists_exists_and_eq_and,
    mem_languageIn_ofAlternative]

end PhraseSearch.Rule
