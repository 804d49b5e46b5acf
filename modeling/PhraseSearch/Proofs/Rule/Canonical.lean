import PhraseSearch.Proofs.Rule.Lines

/-!
# Lines in canonical form

What a canonical line looks like, whatever line it comes from: it has no comment, its blanks are
single spaces inside, and nothing blank stands on either side of its first arrow.  A line that looks
like this is left as it is, so that a second pass changes nothing.

    there is no first arrow in a text without arrows                  (splitArrow?_eq_none_iff)
    the canonical form of a line is in canonical form                  (inForm_canonical)
    a line in canonical form is its own canonical form                 (canonical_of_inForm)
-/

namespace PhraseSearch.Rule

open Text

variable {cs before after : List Char} {c : Char}

/-! ## Characters -/

theorem mem_of_mem_splitWhere {p : Char → Bool} {cs piece : List Char}
    (hpiece : piece ∈ splitWhere p cs) (hc : c ∈ piece) : c ∈ cs := by
  rcases splitWhere_cases p cs with ⟨hsplit, -⟩ | ⟨first, sep, rest, hcs, -, -, hsplit⟩
  · rw [hsplit, List.mem_singleton] at hpiece
    rwa [hpiece] at hc
  · rw [hsplit] at hpiece
    rcases List.mem_cons.1 hpiece with rfl | hpiece
    · simp [hcs, hc]
    · have hrest := mem_of_mem_splitWhere hpiece hc
      simp [hcs, hrest]
termination_by cs.length
decreasing_by
  rw [hcs, List.length_append, List.length_cons]
  omega

/-- Collapsing adds nothing but spaces. -/
theorem mem_of_mem_collapse (h : c ∈ collapse cs) (hc : c ≠ ' ') : c ∈ cs := by
  have hfield : ∀ fields : List (List Char), c ∈ [' '].intercalate fields →
      ∃ field ∈ fields, c ∈ field := by
    intro fields
    induction fields with
    | nil => simp
    | cons field fields ih =>
      cases fields with
      | nil => simp
      | cons next fields =>
        rw [List.intercalate_cons_cons, List.append_assoc]
        intro hmem
        rcases List.mem_append.1 hmem with hmem | hmem
        · exact ⟨field, by simp, hmem⟩
        · obtain ⟨found, hfound, hin⟩ := ih ((List.mem_cons.1 hmem).resolve_left hc)
          exact ⟨found, List.mem_cons_of_mem _ hfound, hin⟩
  obtain ⟨field, hmem, hin⟩ := hfield _ h
  exact mem_of_mem_splitWhere (List.mem_filter.1 hmem).1 hin

theorem hash_not_mem_collapse (line : List Char) : '#' ∉ collapse (dropComment line) := by
  intro h
  have hmem := mem_of_mem_collapse h (by decide)
  exact absurd (List.mem_takeWhile_imp hmem) (by decide)

/-! ## Blanks at an end -/

/-- What is left of a tidy text when blanks at its end are dropped. -/
theorem Tidy.trimEnd (h : Tidy (before ++ after)) : Tidy (Text.trimEnd before) := by
  obtain ⟨blanks, hblanks, -⟩ := exists_trimEnd_append before
  have hprefix : Text.trimEnd before <+: before ++ after :=
    List.IsPrefix.trans ⟨blanks, hblanks.symm⟩ (List.prefix_append _ _)
  refine ⟨h.toSpaced.within hprefix.isInfix, fun c hc => ?_, fun c hc => ?_⟩
  · obtain ⟨rest, hrest⟩ := hprefix
    refine h.head c ?_
    rw [← hrest, List.head?_append, Option.mem_def.1 hc]
    rfl
  · rw [Text.trimEnd, List.getLast?_reverse] at hc
    exact not_of_mem_head?_dropWhile hc

/-! ## First arrows -/

theorem splitArrow?_eq_none_iff : splitArrow? cs = none ↔ ¬ ['-', '>'] <:+: cs := by
  constructor
  · rintro hnone ⟨before, after, rfl⟩
    rw [List.append_assoc] at hnone
    have hsplit := splitArrow?_append (splitArrow?_of_append hnone) after
    cases hnone.symm.trans hsplit
  · intro harrow
    cases hsplit : splitArrow? cs with
    | none => rfl
    | some parts =>
      refine absurd ⟨parts.1, parts.2, ?_⟩ harrow
      rw [eq_of_splitArrow? hsplit, List.append_assoc]
      rfl

/-- A text is taken apart at an arrow if there is none in front of it. -/
theorem splitArrow?_eq_some_iff :
    splitArrow? cs = some (before, after) ↔
      cs = before ++ '-' :: '>' :: after ∧ ¬ ['-', '>'] <:+: before := by
  constructor
  · intro h
    exact ⟨eq_of_splitArrow? h, splitArrow?_eq_none_iff.1 (splitArrow?_of_eq_some h)⟩
  · rintro ⟨rfl, hnone⟩
    exact splitArrow?_append (splitArrow?_eq_none_iff.2 hnone) after

/-! ## Canonical form -/

/-- Whether a line has no comment, no blanks but single spaces inside, and no blank on either side
of its first arrow. -/
structure InForm (cs : List Char) : Prop extends Tidy cs where
  comment : '#' ∉ cs
  arrow : ∀ before after, cs = before ++ '-' :: '>' :: after → ¬ ['-', '>'] <:+: before →
    (∀ c ∈ before.getLast?, isBlank c = false) ∧ ∀ c ∈ after.head?, isBlank c = false

theorem inForm_canonical (line : List Char) : InForm (canonical line) := by
  rw [canonical]
  have htidy := tidy_collapse (dropComment line)
  have hhash := hash_not_mem_collapse line
  generalize collapse (dropComment line) = text at htidy hhash
  cases hsplit : splitArrow? text with
  | none =>
    rw [tighten, hsplit]
    refine ⟨htidy, hhash, fun before after htext hnone => ?_⟩
    cases hsplit.symm.trans (splitArrow?_eq_some_iff.2 ⟨htext, hnone⟩)
  | some parts =>
    obtain ⟨before, after⟩ := parts
    have htext := eq_of_splitArrow? hsplit
    have hbefore : Tidy (trimEnd before) := by
      rw [htext] at htidy
      exact htidy.trimEnd
    have hafter : Tidy (trimStart after) := by
      rw [htext, List.append_cons, List.append_cons] at htidy
      exact htidy.trimStart
    have harrow : Tidy ['-', '>'] := tidy_of_not_isBlank
      (List.forall_mem_cons.2 ⟨rfl, List.forall_mem_singleton.2 rfl⟩)
    have htight := splitArrow?_tighten hsplit
    have hshape : tighten text = trimEnd before ++ '-' :: '>' :: trimStart after :=
      eq_of_splitArrow? htight
    refine ⟨?_, ?_, fun before' after' htext' hnone => ?_⟩
    · rw [hshape]
      exact hbefore.append (harrow.append hafter)
    · obtain ⟨ending, hending, -⟩ := exists_trimEnd_append before
      obtain ⟨beginning, hbeginning, -⟩ := exists_append_trimStart after
      rw [htext, hending, hbeginning] at hhash
      rw [hshape]
      intro hmem
      refine hhash ?_
      simp only [List.mem_append, List.mem_cons] at hmem ⊢
      rcases hmem with hmem | hmem | hmem | hmem
      · exact .inl (.inl hmem)
      · exact .inr (.inl hmem)
      · exact .inr (.inr (.inl hmem))
      · exact .inr (.inr (.inr (.inr hmem)))
    · have hsame := splitArrow?_eq_some_iff.2 ⟨htext', hnone⟩
      cases htight.symm.trans hsame
      exact ⟨hbefore.last, hafter.head⟩

theorem canonical_of_inForm (h : InForm cs) : canonical cs = cs := by
  have hdrop : dropComment cs = cs := by
    refine List.takeWhile_eq_self_iff.2 fun c hc => bne_iff_ne.2 ?_
    rintro rfl
    exact h.comment hc
  rw [canonical, hdrop, collapse_of_tidy h.toTidy, tighten]
  split
  · next before after hsplit =>
    obtain ⟨hcs, hnone⟩ := splitArrow?_eq_some_iff.1 hsplit
    obtain ⟨hlast, hhead⟩ := h.arrow before after hcs hnone
    have hbefore : trimEnd (before ++ []) = before := trimEnd_append hlast (by simp)
    have hafter : trimStart ([] ++ after) = after := trimStart_append (by simp) hhead
    rw [List.append_nil] at hbefore
    rw [List.nil_append] at hafter
    rw [hbefore, hafter, ← hcs]
  · rfl

/-- The canonical form of a line given as a string does not change any more. -/
theorem canonicalLine_canonicalLine (line : String) :
    canonicalLine (canonicalLine line) = canonicalLine line := by
  rw [canonicalLine, toList_canonicalLine, canonical_of_inForm (inForm_canonical _), canonicalLine]

/-- The lines that are shown are in canonical form, so they are shown as they are. -/
theorem shownLines_shownLines (lines : List String) :
    shownLines (shownLines lines) = shownLines lines := by
  have hmap : (shownLines lines).map canonicalLine = shownLines lines := by
    refine (List.map_congr_left fun line hline => ?_).trans (List.map_id _)
    obtain ⟨raw, -, rfl⟩ := List.mem_map.1 (List.mem_filter.1 hline).1
    exact canonicalLine_canonicalLine raw
  rw [shownLines, hmap, shownLines, List.filter_filter]
  simp only [Bool.and_self]

end PhraseSearch.Rule
