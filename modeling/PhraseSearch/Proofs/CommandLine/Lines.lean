import Mathlib.Data.List.Forall2
import PhraseSearch.CommandLine.Program
import PhraseSearch.Proofs.Text.Pieces

/-!
# Lines and words

A text of lines is read back as these lines if none of them holds an end of a line.  A list file has
one word to a line; blanks around it do not count, and a blank line has no word.  So words joined by
single spaces can stand on a line, even if there are spaces inside a word.

    lines that have no end inside are read back as they were written   (linesOf_textOf)
    the words of a list file                                           (hasWords_iff)
    words with spaces between them make up a line                      (single_intercalate)
-/

namespace PhraseSearch.CommandLine

open Text

variable {text line word : String} {lines words : List String}

/-! ## Lines of a text -/

/-- Whether a line can be told from its neighbours in a text. -/
structure Single (line : String) : Prop where
  inside : '\n' ∉ line.toList
  last : line.toList.getLast? ≠ some '\r'

theorem splitWhere_textOf (h : ∀ line ∈ lines, Single line) :
    splitWhere (· == '\n') (textOf lines).toList = lines.map String.toList ++ [[]] :=
  splitWhere_join fun line hline => (h line hline).inside

theorem linesOf_textOf (h : ∀ line ∈ lines, Single line) : linesOf (textOf lines) = lines := by
  have hended : (lines.map String.toList).reverse.map
      (fun cs => if cs.getLast? = some '\r' then cs.dropLast else cs) =
        (lines.map String.toList).reverse := by
    refine (List.map_congr_left fun cs hcs => ?_).trans (List.map_id _)
    obtain ⟨line, hline, rfl⟩ := List.mem_map.1 (List.mem_reverse.1 hcs)
    exact if_neg (h line hline).last
  rw [linesOf, splitWhere_textOf h, List.reverse_append, List.reverse_singleton,
    List.singleton_append]
  simp only [hended, List.isEmpty_nil, if_true, List.reverse_reverse, List.map_map]
  refine (List.map_congr_left fun line _ => ?_).trans (List.map_id _)
  exact String.ofList_toList

/-- A line is part of what stands between two ends of lines. -/
theorem not_mem_of_mem_linesOf (h : line ∈ linesOf text) : '\n' ∉ line.toList := by
  have hpieces : ∀ cs ∈ (splitWhere (· == '\n') text.toList).reverse, '\n' ∉ cs := by
    intro cs hcs hmem
    cases not_of_mem_splitWhere (List.mem_reverse.1 hcs) hmem
  rw [linesOf] at h
  cases hsplit : (splitWhere (· == '\n') text.toList).reverse with
  | nil =>
    rw [hsplit] at h
    cases h
  | cons last ended =>
    rw [hsplit] at h hpieces
    obtain ⟨hlast, hended⟩ := List.forall_mem_cons.1 hpieces
    have hcut : ∀ cs ∈ ended.map fun cs => if cs.getLast? = some '\r' then cs.dropLast else cs,
        '\n' ∉ cs := by
      intro cs hcs
      obtain ⟨whole, hwhole, rfl⟩ := List.mem_map.1 hcs
      split
      · exact fun hmem => hended whole hwhole (List.dropLast_subset _ hmem)
      · exact hended whole hwhole
    obtain ⟨cs, hcs, rfl⟩ := List.mem_map.1 h
    rw [String.toList_ofList]
    rw [List.mem_reverse] at hcs
    split at hcs
    · exact hcut cs hcs
    · rcases List.mem_cons.1 hcs with rfl | hcs
      · exact hlast
      · exact hcut cs hcs

/-! ## Words of a list file -/

/-- Whether a word is what is left of a line without the blanks around it. -/
structure Trimmed (line word : String) : Prop where
  around : ∃ before after, line.toList = before ++ word.toList ++ after ∧
    (∀ c ∈ before, isBlank c = true) ∧ ∀ c ∈ after, isBlank c = true
  first : ∀ c ∈ word.toList.head?, isBlank c = false
  last : ∀ c ∈ word.toList.getLast?, isBlank c = false

/-- Whether words are those of lines, in order: one of each line that is not blank. -/
def HasWords (lines words : List String) : Prop :=
  ∃ trimmed, List.Forall₂ Trimmed lines trimmed ∧ words = trimmed.filter (· ≠ "")

theorem trimmed_iff : Trimmed line word ↔ String.ofList (trim line.toList) = word := by
  constructor
  · rintro ⟨⟨before, after, hline, hbefore, hafter⟩, hfirst, hlast⟩
    have hword : trimEnd (word.toList ++ after) = word.toList := trimEnd_append hlast hafter
    rw [hline, trim, List.append_assoc]
    by_cases hne : word.toList = []
    · -- the whole line is blank
      have hall : ∀ c ∈ before ++ after, isBlank c = true :=
        List.forall_mem_append.2 ⟨hbefore, hafter⟩
      have hstart : trimStart (before ++ after) = [] := by
        simpa using @trimStart_append [] _ hall nofun
      rw [hne, List.nil_append, hstart, String.toList_eq_nil_iff.1 hne]
      rfl
    · rw [trimStart_append hbefore, hword, String.ofList_toList]
      rwa [List.head?_append_of_ne_nil _ hne]
  · rintro rfl
    obtain ⟨before, hline, hbefore⟩ := exists_append_trimStart line.toList
    obtain ⟨after, hstart, hafter⟩ := exists_trimEnd_append (trimStart line.toList)
    have hends : ∀ c ∈ (trim line.toList).getLast?, isBlank c = false := by
      intro c hc
      rw [trim, trimEnd, List.getLast?_reverse] at hc
      exact not_of_mem_head?_dropWhile hc
    refine ⟨⟨before, after, ?_, hbefore, hafter⟩, fun c hc => ?_, ?_⟩
    · rw [String.toList_ofList, List.append_assoc, trim, ← hstart, ← hline]
    · rw [String.toList_ofList] at hc
      have hhead : c ∈ (trimStart line.toList).head? := by
        rw [hstart, List.head?_append]
        exact Option.or_eq_some_iff.2 (.inl hc)
      exact not_of_mem_head?_dropWhile hhead
    · rwa [String.toList_ofList]

theorem hasWords_iff : HasWords lines words ↔ words = wordsOf lines := by
  have hfilter : wordsOf lines =
      (lines.map fun line => String.ofList (trim line.toList)).filter (· ≠ "") := by
    refine List.filter_congr fun word _ => ?_
    rw [Bool.eq_iff_iff]
    simp [← String.isEmpty_eq_false_iff]
  have hlines : ∀ trimmed, List.Forall₂ Trimmed lines trimmed ↔
      lines.map (fun line => String.ofList (trim line.toList)) = trimmed := by
    intro trimmed
    rw [← List.forall₂_eq_eq_eq, List.forall₂_map_left_iff]
    exact ⟨List.Forall₂.imp fun _ _ => trimmed_iff.1, List.Forall₂.imp fun _ _ => trimmed_iff.2⟩
  simp only [HasWords, hlines, hfilter, exists_eq_left']

/-! ## Lines that are printed -/

theorem single_of_mem_wordsOf (h : word ∈ wordsOf (linesOf text)) : Single word := by
  obtain ⟨line, hline, hword⟩ := List.mem_map.1 (List.mem_filter.1 h).1
  obtain ⟨⟨before, after, hparts, -, -⟩, -, hlast⟩ := trimmed_iff.2 hword
  refine ⟨fun hmem => not_mem_of_mem_linesOf hline ?_, fun hend => ?_⟩
  · rw [hparts]
    exact List.mem_append_left _ (List.mem_append_right _ hmem)
  · exact absurd (hlast _ hend) (by decide)

/-- Words with spaces between them can stand on a line, whatever the words hold beside ends of
lines. -/
theorem single_intercalate (h : ∀ word ∈ words, Single word) : Single (" ".intercalate words) := by
  induction words with
  | nil => exact ⟨nofun, nofun⟩
  | cons word words ih =>
    obtain ⟨hword, hwords⟩ := List.forall_mem_cons.1 h
    cases words with
    | nil => exact hword
    | cons next words =>
      have hrest := ih hwords
      have hjoined : (" ".intercalate (word :: next :: words)).toList =
          word.toList ++ ' ' :: (" ".intercalate (next :: words)).toList := by
        simp [String.intercalate_cons_cons]
      constructor
      · rw [hjoined, List.mem_append, List.mem_cons]
        rintro (hmem | hmem | hmem)
        · exact hword.inside hmem
        · cases hmem
        · exact hrest.inside hmem
      · rw [hjoined, List.getLast?_append, List.getLast?_cons]
        cases hlast : (" ".intercalate (next :: words)).toList.getLast? with
        | none => simp
        | some c =>
          have hc := hrest.last
          rw [hlast] at hc
          simpa using hc

theorem single_toString (n : Nat) : Single (toString n) := by
  have hdigits : ∀ c ∈ (toString n).toList, c.isDigit = true := fun _ => isDigit_of_mem_toString
  constructor
  · exact fun hmem => absurd (hdigits _ hmem) (by decide)
  · exact fun hlast => absurd (hdigits _ (List.mem_of_getLast? hlast)) (by decide)

end PhraseSearch.CommandLine
