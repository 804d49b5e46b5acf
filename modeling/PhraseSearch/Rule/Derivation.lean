import PhraseSearch.Rule.Basic

/-!
# Derivations

Rules read as a context-free grammar whose right-hand sides hold repetitions.  `Unrolls` settles
every repetition of an alternative: an element gives way to as many copies of its atom as its
bounds allow.  `Derives` is leftmost derivation: a list stands for its own name, and a rule for
what any of its alternatives, unrolled, stands for.

    alternatives of one name are united, over all rules                (mem_alternativesOf)
    what two halves derive, their concatenation derives                (Derives.append)
-/

namespace PhraseSearch

/-! ## Repetitions -/

/-- Whether bounds allow `n` repetitions.  The lower bound always counts; an upper bound below it
adds nothing. -/
def Bounds.Allows (b : Bounds) (n : Nat) : Prop :=
  b.low ≤ n ∧ ∀ high ∈ b.high, n ≤ max b.low high

/-- Whether an element may stand for `n` copies of its atom. -/
def Element.Allows (e : Element) (n : Nat) : Prop :=
  match e.bounds with
  | none => n = 1
  | some bounds => bounds.Allows n

namespace Rule

/-- The alternatives of a name, over all rules of that name, in order. -/
def alternativesOf (rules : List Rule) (name : String) : List (List Element) :=
  (rules.filter (·.name = name)).flatMap (·.alternatives)

/-- The atoms that an alternative may stand for once its repetitions are settled. -/
inductive Unrolls : List Element → List Atom → Prop
  | nil : Unrolls [] []
  | cons {e : Element} {es : List Element} {n : Nat} {atoms : List Atom}
      (times : e.Allows n) (rest : Unrolls es atoms) :
      Unrolls (e :: es) (List.replicate n e.atom ++ atoms)

/-- The sequences of list names that some atoms stand for, one after another. -/
inductive Derives (rules : List Rule) : List Atom → List String → Prop
  | nil : Derives rules [] []
  | list {name : String} {atoms : List Atom} {lists : List String}
      (rest : Derives rules atoms lists) : Derives rules (.list name :: atoms) (name :: lists)
  | rule {name : String} {elements : List Element} {unrolled atoms : List Atom}
      {lists : List String} (alternative : elements ∈ alternativesOf rules name)
      (unrolls : Unrolls elements unrolled) (rest : Derives rules (unrolled ++ atoms) lists) :
      Derives rules (.rule name :: atoms) lists

/-! ## Lemmas -/

theorem mem_alternativesOf {rules : List Rule} {name : String} {elements : List Element} :
    elements ∈ alternativesOf rules name ↔
      ∃ r ∈ rules, r.name = name ∧ elements ∈ r.alternatives := by
  simp [alternativesOf, List.mem_flatMap, and_assoc]

theorem Derives.append {rules : List Rule} {atoms atoms' : List Atom} {lists lists' : List String}
    (h : Derives rules atoms lists) (h' : Derives rules atoms' lists') :
    Derives rules (atoms ++ atoms') (lists ++ lists') := by
  induction h with
  | nil => exact h'
  | list _ ih => exact .list ih
  | rule alternative unrolls _ ih =>
    exact .rule alternative unrolls (by simpa [List.append_assoc] using ih)

end Rule

end PhraseSearch
