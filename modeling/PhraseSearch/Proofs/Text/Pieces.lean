import Mathlib.Data.List.TakeWhile
import PhraseSearch.Text.Blank
import PhraseSearch.Text.Numeric

/-!
# Taking texts apart

What is joined at a character of a class that none of the pieces has is cut there again.

    xs ++ rest is spanned at the first character outside a class       (takeWhile_append_of_head,
                                                        dropWhile_append_of_head, span_inj)
    what stands between blanks is left by trimming        (trimStart_append, trimEnd_append)
    a text is cut at the first separator, then the rest                (splitWhere_append_cons)
    a text without separators is one piece                             (splitWhere_eq_singleton)
    either of these holds of every text                                (splitWhere_cases)
    lines that are ended are cut apart again                           (splitWhere_join)
    a number ends where no digit stands                                (toString_append_inj)
    no character of a name is blank                                    (not_isBlank_of_isNameChar)
-/

namespace PhraseSearch.Text

variable {α : Type} {p : Char → Bool} {c : Char} {cs piece rest : List Char}

/-! ## Spans -/

theorem takeWhile_append_of_head {p : α → Bool} {xs rest : List α} (hall : ∀ x ∈ xs, p x = true)
    (hhead : ∀ x ∈ rest.head?, p x = false) : (xs ++ rest).takeWhile p = xs := by
  rw [List.takeWhile_append_of_pos hall]
  cases rest with
  | nil => simp
  | cons x rest => simp [hhead x rfl]

theorem dropWhile_append_of_head {p : α → Bool} {xs rest : List α} (hall : ∀ x ∈ xs, p x = true)
    (hhead : ∀ x ∈ rest.head?, p x = false) : (xs ++ rest).dropWhile p = rest := by
  rw [List.dropWhile_append_of_pos hall]
  cases rest with
  | nil => simp
  | cons x rest => simp [hhead x rfl]

/-- What is in a class and what follows it can be told apart. -/
theorem span_inj {p : α → Bool} {xs ys rest rest' : List α} (hxs : ∀ x ∈ xs, p x = true)
    (hys : ∀ y ∈ ys, p y = true) (hrest : ∀ x ∈ rest.head?, p x = false)
    (hrest' : ∀ y ∈ rest'.head?, p y = false) (h : xs ++ rest = ys ++ rest') :
    xs = ys ∧ rest = rest' := by
  constructor
  · rw [← takeWhile_append_of_head hxs hrest, h, takeWhile_append_of_head hys hrest']
  · rw [← dropWhile_append_of_head hxs hrest, h, dropWhile_append_of_head hys hrest']

theorem not_of_mem_head?_dropWhile {p : α → Bool} {xs : List α} {x : α}
    (h : x ∈ (xs.dropWhile p).head?) : p x = false := by
  have hnot := List.head?_dropWhile_not p xs
  rwa [Option.mem_def.1 h] at hnot

theorem not_of_dropWhile_eq_cons {p : α → Bool} {xs rest : List α} {x : α}
    (h : xs.dropWhile p = x :: rest) : p x = false :=
  not_of_mem_head?_dropWhile (by rw [h]; rfl)

/-! ## Trimming -/

theorem trimStart_append {blanks : List Char} (hblanks : ∀ c ∈ blanks, isBlank c = true)
    (hhead : ∀ c ∈ cs.head?, isBlank c = false) : trimStart (blanks ++ cs) = cs :=
  dropWhile_append_of_head hblanks hhead

theorem trimEnd_append {blanks : List Char} (hlast : ∀ c ∈ cs.getLast?, isBlank c = false)
    (hblanks : ∀ c ∈ blanks, isBlank c = true) : trimEnd (cs ++ blanks) = cs := by
  rw [trimEnd, List.reverse_append, trimStart_append, List.reverse_reverse]
  · exact fun c hc => hblanks c (List.mem_reverse.1 hc)
  · rwa [List.head?_reverse]

theorem exists_append_trimStart (cs : List Char) :
    ∃ blanks, cs = blanks ++ trimStart cs ∧ ∀ c ∈ blanks, isBlank c = true :=
  ⟨_, List.takeWhile_append_dropWhile.symm, fun _ hc => List.mem_takeWhile_imp hc⟩

theorem exists_trimEnd_append (cs : List Char) :
    ∃ blanks, cs = trimEnd cs ++ blanks ∧ ∀ c ∈ blanks, isBlank c = true := by
  obtain ⟨blanks, hcs, hblanks⟩ := exists_append_trimStart cs.reverse
  refine ⟨blanks.reverse, ?_, fun c hc => hblanks c (List.mem_reverse.1 hc)⟩
  rw [trimEnd, ← List.reverse_append, ← hcs, List.reverse_reverse]

/-! ## Pieces -/

theorem splitWhere_append_cons (hpiece : ∀ d ∈ piece, p d = false) (hc : p c = true)
    (rest : List Char) : splitWhere p (piece ++ c :: rest) = piece :: splitWhere p rest := by
  induction piece with
  | nil => exact splitWhere_cons_of_pos hc rest
  | cons d piece ih =>
    rw [List.cons_append, splitWhere_cons_of_neg (hpiece d (by simp)),
      ih fun e he => hpiece e (by simp [he])]
    rfl

theorem splitWhere_eq_singleton (hcs : ∀ d ∈ cs, p d = false) : splitWhere p cs = [cs] := by
  induction cs with
  | nil => rfl
  | cons d cs ih =>
    rw [splitWhere_cons_of_neg (hcs d (by simp)), ih fun e he => hcs e (by simp [he])]
    rfl

/-- A text is one piece, or a piece, a separator and the rest. -/
theorem splitWhere_cases (p : Char → Bool) (cs : List Char) :
    (splitWhere p cs = [cs] ∧ ∀ d ∈ cs, p d = false) ∨ ∃ piece c rest, cs = piece ++ c :: rest ∧
      p c = true ∧ (∀ d ∈ piece, p d = false) ∧ splitWhere p cs = piece :: splitWhere p rest := by
  have hpiece : ∀ d ∈ cs.takeWhile (!p ·), p d = false := fun d hd => by
    simpa using List.mem_takeWhile_imp hd
  have hcs := List.takeWhile_append_dropWhile (p := (!p ·)) (l := cs)
  cases hrest : cs.dropWhile (!p ·) with
  | nil =>
    rw [hrest, List.append_nil] at hcs
    rw [hcs] at hpiece
    exact .inl ⟨splitWhere_eq_singleton hpiece, hpiece⟩
  | cons c rest =>
    have hc : p c = true := by simpa using not_of_dropWhile_eq_cons hrest
    rw [hrest] at hcs
    have hsplit := splitWhere_append_cons hpiece hc rest
    rw [hcs] at hsplit
    exact .inr ⟨_, c, rest, hcs.symm, hc, hpiece, hsplit⟩

/-! ## Lines -/

/-- Lines that are all ended, and hold no end inside, are cut apart again. -/
theorem splitWhere_join {lines : List String} (h : ∀ line ∈ lines, '\n' ∉ line.toList) :
    splitWhere (· == '\n') (String.join (lines.map (· ++ "\n"))).toList =
      lines.map String.toList ++ [[]] := by
  induction lines with
  | nil => rfl
  | cons line lines ih =>
    obtain ⟨hline, hrest⟩ := List.forall_mem_cons.1 h
    have hpiece : ∀ c ∈ line.toList, (c == '\n') = false := fun c hc =>
      beq_false_of_ne fun heq => hline (heq ▸ hc)
    rw [List.map_cons, String.join_cons, String.toList_append, String.toList_append,
      List.append_assoc]
    exact (splitWhere_append_cons hpiece rfl _).trans (congrArg (line.toList :: ·) (ih hrest))

/-! ## Numbers -/

theorem isDigit_of_mem_toString {n : Nat} (h : c ∈ (toString n).toList) : c.isDigit = true := by
  rw [Nat.toString_eq_ofList_toDigits, String.toList_ofList] at h
  exact Nat.isDigit_of_mem_toDigits (by decide) (Nat.le_refl 10) h

theorem toString_inj {m n : Nat} (h : (toString m).toList = (toString n).toList) : m = n := by
  rw [Nat.toString_eq_ofList_toDigits, Nat.toString_eq_ofList_toDigits, String.toList_ofList,
    String.toList_ofList] at h
  rw [← Nat.ofDigitChars_ten_toDigits (n := m), h, Nat.ofDigitChars_ten_toDigits]

/-- A number and what follows its digits can be told apart. -/
theorem toString_append_inj {m n : Nat} {rest rest' : List Char}
    (hrest : ∀ c ∈ rest.head?, c.isDigit = false) (hrest' : ∀ c ∈ rest'.head?, c.isDigit = false)
    (h : (toString m).toList ++ rest = (toString n).toList ++ rest') : m = n ∧ rest = rest' := by
  obtain ⟨hdigits, hsame⟩ := span_inj (fun _ => isDigit_of_mem_toString)
    (fun _ => isDigit_of_mem_toString) hrest hrest' h
  exact ⟨toString_inj hdigits, hsame⟩

/-! ## Names -/

theorem isName_iff : isName cs = true ↔ cs ≠ [] ∧ ∀ c ∈ cs, isNameChar c = true := by
  simp [isName]

/-- A name ends where another character stands. -/
theorem ne_of_isNameChar {d : Char} (h : isNameChar c = true) (hd : isNameChar d = false) :
    c ≠ d := by
  rintro rfl
  rw [h] at hd
  cases hd

theorem not_isBlank_of_isNameChar (h : isNameChar c = true) : isBlank c = false := by
  have hblanks : ∀ range ∈ blankRanges, ∀ n ∈ List.range' range.1 (range.2 + 1 - range.1),
      isNameChar (Char.ofNat n) = false := by
    decide +kernel
  rw [← Bool.not_eq_true]
  intro hblank
  obtain ⟨range, hrange, hc⟩ := List.any_eq_true.1 hblank
  have hmem : c.toNat ∈ List.range' range.1 (range.2 + 1 - range.1) := by
    simp only [Bool.and_eq_true, decide_eq_true_eq] at hc
    rw [List.mem_range'_1]
    omega
  have hnot := hblanks range hrange c.toNat hmem
  rw [Char.ofNat_toNat, h] at hnot
  cases hnot

end PhraseSearch.Text
