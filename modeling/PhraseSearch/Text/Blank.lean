/-!
# Blanks

`isBlank` is the Unicode property `White_Space`.  Texts are lists of characters here: `splitWhere`
cuts one at every character of a class, `fields` keeps the non-empty pieces between blanks, and
`trim` drops the blanks at both ends.

    splitWhere p (c :: cs) = [] :: splitWhere p cs, if `p c`           (splitWhere_cons_of_pos)
    splitWhere p (c :: cs): `c` in front of the first piece, if not    (splitWhere_cons_of_neg)
    no piece of `splitWhere p` holds a character of the class         (not_of_mem_splitWhere)
    no field is empty, and none holds a blank                         (ne_nil_of_mem_fields,
                                                                       not_isBlank_of_mem_fields)
-/

namespace PhraseSearch.Text

/-! ## Definitions -/

/-- The `White_Space` code points: closed ranges, ascending. -/
def blankRanges : List (Nat × Nat) :=
  [(0x9, 0xD), (0x20, 0x20), (0x85, 0x85), (0xA0, 0xA0), (0x1680, 0x1680), (0x2000, 0x200A),
   (0x2028, 0x2029), (0x202F, 0x202F), (0x205F, 0x205F), (0x3000, 0x3000)]

/-- Whether a character is white space in the sense of Unicode. -/
def isBlank (c : Char) : Bool :=
  blankRanges.any fun (first, last) => first ≤ c.toNat && c.toNat ≤ last

/-- Cuts a text at every character of class `p`: `piece` holds the characters since the last cut
and `pieces` the pieces before it, both the last one first. -/
def splitLoop (p : Char → Bool) : List Char → List Char → List (List Char) → List (List Char)
  | [], piece, pieces => (piece.reverse :: pieces).reverse
  | c :: cs, piece, pieces =>
    if p c then splitLoop p cs [] (piece.reverse :: pieces)
    else splitLoop p cs (c :: piece) pieces

/-- The pieces between the characters of class `p`, empty ones included. -/
def splitWhere (p : Char → Bool) (cs : List Char) : List (List Char) :=
  splitLoop p cs [] []

/-- The maximal runs of characters that are not blank. -/
def fields (cs : List Char) : List (List Char) :=
  (splitWhere isBlank cs).filter (!·.isEmpty)

/-- The text without the blanks in front. -/
def trimStart (cs : List Char) : List Char :=
  cs.dropWhile isBlank

/-- The text without the blanks at its end. -/
def trimEnd (cs : List Char) : List Char :=
  (trimStart cs.reverse).reverse

/-- The text without the blanks at both ends. -/
def trim (cs : List Char) : List Char :=
  trimEnd (trimStart cs)

/-! ## Lemmas -/

theorem isBlank_space : isBlank ' ' = true := by decide

theorem splitLoop_eq (p : Char → Bool) (cs piece : List Char) (pieces : List (List Char)) :
    splitLoop p cs piece pieces =
      pieces.reverse ++ (splitLoop p cs [] []).modifyHead (piece.reverse ++ ·) := by
  induction cs generalizing piece pieces with
  | nil => simp [splitLoop]
  | cons c cs ih =>
    by_cases h : p c = true
    · simp only [splitLoop, h, if_true]
      rw [ih [] (piece.reverse :: pieces), ih [] [([] : List Char).reverse]]
      simp
    · simp only [splitLoop, h]
      rw [ih (c :: piece) pieces, ih [c] []]
      cases splitLoop p cs [] [] <;> simp

@[simp] theorem splitWhere_nil (p : Char → Bool) : splitWhere p [] = [[]] := rfl

theorem splitWhere_cons_of_pos {p : Char → Bool} {c : Char} (h : p c = true) (cs : List Char) :
    splitWhere p (c :: cs) = [] :: splitWhere p cs := by
  have hstep : splitWhere p (c :: cs) = splitLoop p cs [] [[]] := by
    simp [splitWhere, splitLoop, h]
  rw [hstep, splitLoop_eq]
  cases hs : splitLoop p cs [] [] <;> simp [splitWhere, hs]

theorem splitWhere_cons_of_neg {p : Char → Bool} {c : Char} (h : p c = false) (cs : List Char) :
    splitWhere p (c :: cs) = (splitWhere p cs).modifyHead (c :: ·) := by
  have hstep : splitWhere p (c :: cs) = splitLoop p cs [c] [] := by
    simp [splitWhere, splitLoop, h]
  rw [hstep, splitLoop_eq]
  rfl

theorem splitWhere_ne_nil (p : Char → Bool) (cs : List Char) : splitWhere p cs ≠ [] := by
  induction cs with
  | nil => simp
  | cons c cs ih =>
    by_cases h : p c = true
    · simp [splitWhere_cons_of_pos h]
    · rw [splitWhere_cons_of_neg (by simpa using h)]
      cases hs : splitWhere p cs with
      | nil => exact absurd hs ih
      | cons => simp

theorem not_of_mem_splitWhere {p : Char → Bool} {cs piece : List Char}
    (hpiece : piece ∈ splitWhere p cs) {c : Char} (hc : c ∈ piece) : p c = false := by
  induction cs generalizing piece with
  | nil => simp_all
  | cons d cs ih =>
    by_cases hd : p d = true
    · rw [splitWhere_cons_of_pos hd] at hpiece
      rcases List.mem_cons.1 hpiece with rfl | h
      · simp at hc
      · exact ih h hc
    · have hd : p d = false := by simpa using hd
      rw [splitWhere_cons_of_neg hd] at hpiece
      cases hs : splitWhere p cs with
      | nil => simp [hs] at hpiece
      | cons first rest =>
        rw [hs, List.modifyHead_cons] at hpiece
        rcases List.mem_cons.1 hpiece with rfl | h
        · rcases List.mem_cons.1 hc with rfl | h
          · exact hd
          · exact ih (by simp [hs]) h
        · exact ih (by simp [hs, h]) hc

theorem ne_nil_of_mem_fields {cs field : List Char} (h : field ∈ fields cs) : field ≠ [] := by
  simp only [fields, List.mem_filter, Bool.not_eq_true', List.isEmpty_eq_false_iff] at h
  exact h.2

theorem not_isBlank_of_mem_fields {cs field : List Char} (h : field ∈ fields cs) {c : Char}
    (hc : c ∈ field) : isBlank c = false :=
  not_of_mem_splitWhere (List.mem_filter.1 h).1 hc

end PhraseSearch.Text
