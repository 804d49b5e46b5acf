import Mathlib.Data.List.Forall2
import PhraseSearch.Proofs.Letter.Spelling

/-!
# Two alphabets

Two alphabets agree on two indices if these stand for the same letter.  With one normalizer, the
spellings of a text agree index by index, whatever other words the alphabets were made for, and
agreeing spellings count agreeing indices alike.

    an index agrees with one index at most                             (rightUnique_agree)
    the spellings of a text agree                                      (forall₂_agree_of_spell)
-/

namespace PhraseSearch.Alphabet

variable {a a' : Alphabet} {i j : Nat} {p q : List Nat}

/-- Whether an index of one alphabet stands for the same letter as one of the other. -/
def Agree (a a' : Alphabet) (i j : Nat) : Prop :=
  ∃ c, a.letterAt? i = some c ∧ a'.letterAt? j = some c

theorem Agree.symm (h : a.Agree a' i j) : a'.Agree a j i := by
  obtain ⟨c, hi, hj⟩ := h
  exact ⟨c, hj, hi⟩

theorem rightUnique_agree (a a' : Alphabet) : Relator.RightUnique (a.Agree a') := by
  rintro i j k ⟨c, hi, hj⟩ ⟨d, hi', hk⟩
  rw [hi] at hi'
  obtain rfl := Option.some.inj hi'
  rw [← position?_eq_some_iff] at hj hk
  exact Option.some.inj (hj.symm.trans hk)

theorem leftUnique_agree (a a' : Alphabet) : Relator.LeftUnique (a.Agree a') :=
  fun _ _ _ h h' => rightUnique_agree a' a h.symm h'.symm

/-- The two spellings of a text agree. -/
theorem forall₂_agree_of_spell {text : String} (hnormalize : a.normalize = a'.normalize)
    (h : a.spell text = .ok p) (h' : a'.spell text = .ok q) : List.Forall₂ (a.Agree a') p q := by
  rw [spell_eq_ok_iff] at h h'
  rw [← hnormalize] at h'
  generalize a.normalize.canonical text = cs at h h'
  induction cs generalizing p q with
  | nil =>
    obtain rfl : p = [] := by simpa using h.symm
    obtain rfl : q = [] := by simpa using h'.symm
    exact .nil
  | cons c cs ih =>
    cases p with
    | nil => cases h
    | cons i p =>
      cases q with
      | nil => cases h'
      | cons j q =>
        obtain ⟨hi, hp⟩ := List.cons_eq_cons.1 h
        obtain ⟨hj, hq⟩ := List.cons_eq_cons.1 h'
        exact .cons ⟨c, position?_eq_some_iff.1 hi, position?_eq_some_iff.1 hj⟩ (ih hp hq)

theorem count_eq_of_agree (h : List.Forall₂ (a.Agree a') p q) (hij : a.Agree a' i j) :
    p.count i = q.count j := by
  induction h with
  | nil => rfl
  | @cons k l p q hkl _ ih =>
    rw [List.count_cons, List.count_cons, ih]
    by_cases hk : k = i
    · subst hk
      obtain rfl := rightUnique_agree a a' hkl hij
      simp
    · have hl : l ≠ j := by
        rintro rfl
        exact hk (leftUnique_agree a a' hkl hij)
      simp [hk, hl]

/-- The beginning of a spelling agrees with the beginning of the other. -/
theorem exists_append_of_agree {r : List Nat} (h : List.Forall₂ (a.Agree a') (p ++ r) q) :
    ∃ q₁ q₂, q = q₁ ++ q₂ ∧ List.Forall₂ (a.Agree a') p q₁ ∧ List.Forall₂ (a.Agree a') r q₂ := by
  refine ⟨q.take p.length, q.drop p.length, (List.take_append_drop _ _).symm, ?_, ?_⟩
  · simpa using List.forall₂_take p.length h
  · simpa using List.forall₂_drop p.length h

end PhraseSearch.Alphabet
