import Mathlib.Data.List.Chain
import PhraseSearch.Proofs.Text.Pieces
import PhraseSearch.Rule.Line
import PhraseSearch.Rule.Written

/-!
# Canonical lines

A text is *tidy* if its blanks are single spaces between other characters.  Collapsing makes texts
tidy and leaves tidy texts as they are; what stands behind the first arrow of a canonical line is
tidy, too.

    what is glued with a space or without one stays tidy               (Tidy.glue)
    collapsed texts are the tidy ones                      (tidy_collapse, collapse_of_tidy)
    a name, an arrow and a tidy body are a canonical line              (canonical_of_tidy)
    behind the arrow of a canonical line                               (tidy_of_splitArrow?)
-/

namespace PhraseSearch.Rule

open Text

variable {cs before after : List Char}

/-! ## Tidy texts -/

/-- Whether all blanks are spaces, and no two stand side by side. -/
structure Spaced (cs : List Char) : Prop where
  space : ∀ c ∈ cs, isBlank c = true → c = ' '
  apart : cs.IsChain fun c d => isBlank c = true → isBlank d = false

/-- Whether besides no blank stands at an end. -/
structure Tidy (cs : List Char) : Prop extends Spaced cs where
  head : ∀ c ∈ cs.head?, isBlank c = false
  last : ∀ c ∈ cs.getLast?, isBlank c = false

theorem Spaced.within {piece : List Char} (h : Spaced cs) (hpiece : piece <:+: cs) :
    Spaced piece where
  space c hc := h.space c (hpiece.subset hc)
  apart := h.apart.infix hpiece

/-- Blanks that are spaced are a gap. -/
theorem Spaced.gap (h : Spaced cs) (hblank : ∀ c ∈ cs, isBlank c = true) : Gap cs := by
  match cs with
  | [] => exact .inl rfl
  | [c] => exact .inr (by rw [h.space c (by simp) (hblank c (by simp))])
  | c :: d :: cs =>
    have hapart := (List.isChain_cons_cons.1 h.apart).1 (hblank c (by simp))
    rw [hblank d (by simp)] at hapart
    cases hapart

theorem Gap.isBlank {gap : List Char} (h : Gap gap) : ∀ c ∈ gap, isBlank c = true := by
  rcases h with rfl | rfl
  · exact nofun
  · intro c hc
    obtain rfl := List.mem_singleton.1 hc
    exact isBlank_space

theorem tidy_nil : Tidy [] := ⟨⟨nofun, .nil⟩, nofun, nofun⟩

/-- A text without blanks is tidy. -/
theorem tidy_of_not_isBlank (h : ∀ c ∈ cs, isBlank c = false) : Tidy cs where
  space c hc hblank := by
    rw [h c hc] at hblank
    cases hblank
  apart := by
    refine List.Pairwise.isChain (List.Pairwise.imp_of_mem (R := fun _ _ => True) ?_ ?_)
    · exact fun _ hd _ _ => h _ hd
    · exact List.pairwise_of_forall fun _ _ => trivial
  head c hc := h c (List.mem_of_mem_head? hc)
  last c hc := h c (List.mem_of_mem_getLast? hc)

/-- What ends in no blank may be followed by what begins with none. -/
theorem Tidy.append (hbefore : Tidy before) (hafter : Tidy after) : Tidy (before ++ after) where
  space c hc := by
    rcases List.mem_append.1 hc with hc | hc
    · exact hbefore.space c hc
    · exact hafter.space c hc
  apart := List.isChain_append.2 ⟨hbefore.apart, hafter.apart, fun _ _ d hd _ => hafter.head d hd⟩
  head c hc := by
    rw [List.head?_append] at hc
    cases hhead : before.head? with
    | none => exact hafter.head c (by simpa [hhead] using hc)
    | some d => exact hbefore.head c (by rw [hhead]; simpa [hhead] using hc)
  last c hc := by
    rw [List.getLast?_append] at hc
    cases hlast : after.getLast? with
    | none => exact hbefore.last c (by simpa [hlast] using hc)
    | some d => exact hafter.last c (by rw [hlast]; simpa [hlast] using hc)

/-- Texts that are not empty may be glued with a space or without one. -/
theorem Tidy.glue (hbefore : Tidy before) (hafter : Tidy after) (hne : before ≠ [])
    (hne' : after ≠ []) {gap : List Char} (hgap : Gap gap) : Tidy (before ++ (gap ++ after)) := by
  rcases hgap with rfl | rfl
  · exact hbefore.append hafter
  · refine ⟨⟨fun c hc hblank => ?_, ?_⟩, ?_, ?_⟩
    · rcases List.mem_append.1 hc with hc | hc
      · exact hbefore.space c hc hblank
      · rcases List.mem_cons.1 hc with rfl | hc
        · rfl
        · exact hafter.space c hc hblank
    · refine List.isChain_append.2 ⟨hbefore.apart, ?_, fun c hc _ _ hblank => ?_⟩
      · exact List.isChain_cons.2 ⟨fun d hd _ => hafter.head d hd, hafter.apart⟩
      · rw [hbefore.last c hc] at hblank
        cases hblank
    · rw [List.head?_append_of_ne_nil _ hne]
      exact hbefore.head
    · rw [List.getLast?_append_of_ne_nil _ (by simp), List.getLast?_append_of_ne_nil _ hne']
      exact hafter.last

/-- What is left of a tidy text when blanks at its beginning are dropped. -/
theorem Tidy.trimStart (h : Tidy (before ++ after)) : Tidy (Text.trimStart after) := by
  have hsuffix : Text.trimStart after <:+ before ++ after :=
    (List.dropWhile_suffix _).trans (List.suffix_append _ _)
  refine ⟨h.toSpaced.within hsuffix.isInfix, fun c hc => not_of_mem_head?_dropWhile hc,
    fun c hc => ?_⟩
  obtain ⟨front, hfront⟩ := hsuffix
  refine h.last c ?_
  rw [← hfront, List.getLast?_append, Option.mem_def.1 hc]
  rfl

/-! ## Collapsing -/

theorem tidy_intercalate {fields : List (List Char)}
    (h : ∀ field ∈ fields, field ≠ [] ∧ ∀ c ∈ field, isBlank c = false) :
    Tidy ([' '].intercalate fields) ∧ (fields ≠ [] → [' '].intercalate fields ≠ []) := by
  induction fields with
  | nil => exact ⟨tidy_nil, fun hne => (hne rfl).elim⟩
  | cons field fields ih =>
    obtain ⟨hne, hfield⟩ := h field (by simp)
    have hfield := tidy_of_not_isBlank hfield
    cases fields with
    | nil =>
      rw [List.intercalate_singleton]
      exact ⟨hfield, fun _ => hne⟩
    | cons next fields =>
      obtain ⟨hrest, hrestne⟩ := ih fun f hf => h f (List.mem_cons_of_mem _ hf)
      rw [List.intercalate_cons_cons, List.append_assoc]
      exact ⟨hfield.glue hrest hne (hrestne (by simp)) (.inr rfl), fun _ => by simp⟩

theorem tidy_collapse (cs : List Char) : Tidy (collapse cs) :=
  (tidy_intercalate fun _ hfield =>
    ⟨ne_nil_of_mem_fields hfield, fun _ => not_isBlank_of_mem_fields hfield⟩).1

theorem collapse_of_tidy {cs : List Char} (h : Tidy cs) : collapse cs = cs := by
  rcases splitWhere_cases isBlank cs with ⟨hsplit, -⟩ | ⟨piece, c, rest, hcs, hc, -, hsplit⟩
  · rw [collapse, fields, hsplit]
    cases cs <;> simp [List.intercalate]
  · have hsuffix : c :: rest <:+ cs := ⟨piece, hcs.symm⟩
    have hspaced : Spaced (c :: rest) := h.toSpaced.within hsuffix.isInfix
    have hlast : ∀ d ∈ (c :: rest).getLast?, isBlank d = false := fun d hd =>
      h.last d (by rw [hcs, List.getLast?_append, Option.mem_def.1 hd]; rfl)
    have hpiece : piece ≠ [] := by
      rintro rfl
      have hhead := h.head c (by rw [hcs]; rfl)
      rw [hc] at hhead
      cases hhead
    have hrestne : rest ≠ [] := by
      rintro rfl
      have hend := hlast c rfl
      rw [hc] at hend
      cases hend
    have hrest : Tidy rest := by
      refine ⟨hspaced.within (List.suffix_cons c rest).isInfix,
        fun d hd => (List.isChain_cons.1 hspaced.apart).1 d hd hc, fun d hd => hlast d ?_⟩
      rw [List.getLast?_cons, Option.mem_def.1 hd]
      rfl
    have hcollapse := collapse_of_tidy hrest
    have hfields : fields cs = piece :: fields rest := by
      rw [fields, hsplit, List.filter_cons_of_pos (by simpa using hpiece), fields]
    rw [collapse] at hcollapse ⊢
    rw [hfields]
    cases hnext : fields rest with
    | nil =>
      rw [hnext] at hcollapse
      exact (hrestne hcollapse.symm).elim
    | cons field more =>
      rw [hnext] at hcollapse
      rw [List.intercalate_cons_cons, hcollapse, List.append_assoc, hcs,
        hspaced.space c (by simp) hc]
      rfl
termination_by cs.length
decreasing_by
  rw [hcs, List.length_append, List.length_cons]
  omega

/-! ## Arrows -/

theorem splitArrow?_append (h : splitArrow? before = none) (after : List Char) :
    splitArrow? (before ++ '-' :: '>' :: after) = some (before, after) := by
  fun_induction splitArrow? before with
  | case1 rest => cases h
  | case2 c rest hne ih =>
    rw [Option.map_eq_none_iff] at h
    have hfirst : ∀ tail, c = '-' → rest ++ '-' :: '>' :: after ≠ '>' :: tail := by
      rintro tail rfl heq
      cases rest with
      | nil => cases heq
      | cons d rest =>
        obtain ⟨rfl, -⟩ := List.cons.inj heq
        exact hne rest rfl rfl
    rw [List.cons_append, splitArrow?.eq_2 _ _ fun tail hc => hfirst tail hc, ih h]
    rfl
  | case3 => rfl

/-- There is no arrow in front of the first one. -/
theorem splitArrow?_of_eq_some (h : splitArrow? cs = some (before, after)) :
    splitArrow? before = none := by
  fun_induction splitArrow? cs generalizing before after with
  | case1 rest =>
    cases h
    rfl
  | case2 c rest hne ih =>
    obtain ⟨⟨before', after'⟩, hsplit, heq⟩ := Option.map_eq_some_iff.1 h
    cases heq
    rw [splitArrow?.eq_2, ih hsplit]
    · rfl
    · rintro tail rfl rfl
      exact hne _ rfl (eq_of_splitArrow? hsplit)
  | case3 => cases h

/-- The beginning of a text without an arrow has none. -/
theorem splitArrow?_of_append (h : splitArrow? (before ++ after) = none) :
    splitArrow? before = none := by
  fun_induction splitArrow? before with
  | case1 rest => cases h
  | case2 c rest hne ih =>
    rw [List.cons_append, splitArrow?.eq_2, Option.map_eq_none_iff] at h
    · rw [ih h]
      rfl
    · rintro tail rfl heq
      rw [heq] at h
      cases h
  | case3 => rfl

theorem splitArrow?_of_isName (h : isName cs = true) : splitArrow? cs = none := by
  cases hsplit : splitArrow? cs with
  | none => rfl
  | some parts =>
    have hdash : '-' ∈ cs := by
      rw [eq_of_splitArrow? hsplit]
      simp
    exact absurd ((isName_iff.1 h).2 '-' hdash) (by decide)

/-- Tightening keeps the first arrow, and drops the blanks around it. -/
theorem splitArrow?_tighten (h : splitArrow? cs = some (before, after)) :
    splitArrow? (tighten cs) = some (trimEnd before, trimStart after) := by
  obtain ⟨blanks, hblanks, -⟩ := exists_trimEnd_append before
  have hnone := splitArrow?_of_eq_some h
  rw [hblanks] at hnone
  rw [tighten, h]
  exact splitArrow?_append (splitArrow?_of_append hnone) _

/-! ## Canonical lines -/

/-- What stands behind the first arrow of a canonical line is tidy. -/
theorem tidy_of_splitArrow? {line : List Char}
    (h : splitArrow? (canonical line) = some (before, after)) : Tidy after := by
  rw [canonical] at h
  have htidy := tidy_collapse (dropComment line)
  generalize collapse (dropComment line) = text at h htidy
  cases hsplit : splitArrow? text with
  | none =>
    rw [tighten, hsplit] at h
    cases hsplit.symm.trans h
  | some parts =>
    obtain ⟨before', after'⟩ := parts
    rw [splitArrow?_tighten hsplit] at h
    cases h
    rw [eq_of_splitArrow? hsplit, List.append_cons, List.append_cons] at htidy
    exact htidy.trimStart

/-- A name, an arrow and a tidy text without a comment are a line in canonical form. -/
theorem canonical_of_tidy {name body : List Char} (hname : isName name = true) (hbody : Tidy body)
    (hcomment : '#' ∉ body) :
    canonical (name ++ '-' :: '>' :: body) = name ++ '-' :: '>' :: body := by
  have hnameChar := (isName_iff.1 hname).2
  have hnameBlank : ∀ c ∈ name, isBlank c = false := fun c hc =>
    not_isBlank_of_isNameChar (hnameChar c hc)
  have harrow : Tidy ['-', '>'] := tidy_of_not_isBlank
    (List.forall_mem_cons.2 ⟨rfl, List.forall_mem_singleton.2 rfl⟩)
  have htidy : Tidy (name ++ '-' :: '>' :: body) :=
    (tidy_of_not_isBlank hnameBlank).append (harrow.append hbody)
  have hdrop : dropComment (name ++ '-' :: '>' :: body) = name ++ '-' :: '>' :: body := by
    refine List.takeWhile_eq_self_iff.2 fun c hc => bne_iff_ne.2 ?_
    rcases List.mem_append.1 hc with hc | hc
    · exact ne_of_isNameChar (hnameChar c hc) (by decide)
    · rintro rfl
      simp [hcomment] at hc
  have hbefore : trimEnd (name ++ []) = name :=
    trimEnd_append (tidy_of_not_isBlank hnameBlank).last nofun
  have hafter : trimStart ([] ++ body) = body := trimStart_append nofun hbody.head
  rw [List.append_nil] at hbefore
  rw [List.nil_append] at hafter
  rw [canonical, hdrop, collapse_of_tidy htidy, tighten,
    splitArrow?_append (splitArrow?_of_isName hname)]
  simp only [hbefore, hafter]

end PhraseSearch.Rule
