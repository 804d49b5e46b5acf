import PhraseSearch.Proofs.Rule.Elements
import PhraseSearch.Proofs.Rule.Lines
import PhraseSearch.Proofs.Rule.Reading

/-!
# Rules are read as they are written

The reader cuts a body at its bars and an alternative at its spaces, and trims what is between bars;
the grammar of rule lines puts them together.  The texts of a rule are all in canonical form, and of
a canonical line the reader makes the rule that it is a text of.

    an alternative, element by element                                 (forall₂_readElement_iff)
    a body, alternative by alternative                    (BodyWritten.forall₂_readAlternative,
                                                                       exists_bodyWritten)
    the texts of a rule are canonical lines                            (Written.canonical_eq)
    a canonical line is read as the rule that it is a text of          (read_canonical_eq_ok_iff)
-/

namespace PhraseSearch

open Text

/-! ## Characters -/

/-- Whether a character is neither blank nor a bar, and begins no comment. -/
def Rule.isPlain (c : Char) : Bool := !isBlank c && c != '|' && c != '#'

namespace Rule

theorem isPlain_iff {c : Char} : isPlain c = true ↔ isBlank c = false ∧ c ≠ '|' ∧ c ≠ '#' := by
  simp [isPlain, and_assoc]

theorem isPlain_of_isNameChar {c : Char} (h : isNameChar c = true) : isPlain c = true :=
  isPlain_iff.2 ⟨not_isBlank_of_isNameChar h, ne_of_isNameChar h (by decide),
    ne_of_isNameChar h (by decide)⟩

theorem isNameChar_of_isDigit {c : Char} (h : c.isDigit = true) : isNameChar c = true := by
  have hlt : c.toNat < 128 := by
    have hle : c.toNat ≤ 57 := by
      simp only [Char.isDigit, Bool.and_eq_true, decide_eq_true_eq] at h
      exact h.2
    omega
  rw [isNameChar, isNumeric, if_pos hlt, h, Bool.or_true, Bool.true_or]

end Rule

open Rule

theorem Numeral.isPlain {n : Nat} {digits : List Char} (h : Numeral n digits) :
    ∀ c ∈ digits, isPlain c = true := fun c hc =>
  isPlain_of_isNameChar (isNameChar_of_isDigit (h.digit c hc))

theorem Bounds.Written.isPlain {bounds : Option Bounds} {cs : List Char}
    (h : Bounds.Written bounds cs) : ∀ c ∈ cs, isPlain c = true := by
  cases h with
  | none => exact nofun
  | optional | any | many => exact List.forall_mem_singleton.2 rfl
  | exactly hn =>
    simp only [List.cons_append, List.forall_mem_cons, List.forall_mem_append]
    exact ⟨rfl, hn.isPlain, rfl, nofun⟩
  | atLeast hn =>
    simp only [List.cons_append, List.forall_mem_cons, List.forall_mem_append]
    exact ⟨rfl, hn.isPlain, rfl, rfl, nofun⟩
  | between hn hm =>
    simp only [List.cons_append, List.append_assoc, List.forall_mem_cons, List.forall_mem_append]
    exact ⟨rfl, hn.isPlain, rfl, hm.isPlain, rfl, nofun⟩

theorem Atom.Written.isPlain {atom : Atom} {cs : List Char} (h : atom.Written cs) :
    cs ≠ [] ∧ ∀ c ∈ cs, isPlain c = true := by
  cases h with
  | list hname =>
    simp only [List.cons_append, List.forall_mem_cons, List.forall_mem_append]
    exact ⟨by simp, rfl, fun c hc => isPlain_of_isNameChar ((isName_iff.1 hname).2 c hc),
      rfl, nofun⟩
  | rule hname =>
    exact ⟨(isName_iff.1 hname).1, fun c hc => isPlain_of_isNameChar ((isName_iff.1 hname).2 c hc)⟩

theorem Element.Written.isPlain {e : Element} {cs : List Char} (h : e.Written cs) :
    cs ≠ [] ∧ ∀ c ∈ cs, isPlain c = true := by
  obtain ⟨text, quantifier, htext, hquantifier, rfl⟩ := h
  obtain ⟨hne, hplain⟩ := htext.isPlain
  exact ⟨by simp [hne], List.forall_mem_append.2 ⟨hplain, hquantifier.isPlain⟩⟩

namespace Rule

variable {cs : List Char} {elements : List Element} {alternatives : List (List Element)} {r : Rule}

/-! ## Alternatives -/

/-- The text of an alternative is tidy, and has neither bars nor comments. -/
theorem AlternativeWritten.tidy (h : AlternativeWritten elements cs) :
    Tidy cs ∧ cs ≠ [] ∧ ∀ c ∈ cs, c ≠ '|' ∧ c ≠ '#' := by
  have hword : ∀ {e : Element} {cs : List Char}, e.Written cs →
      Tidy cs ∧ cs ≠ [] ∧ ∀ c ∈ cs, c ≠ '|' ∧ c ≠ '#' := by
    intro e cs h
    obtain ⟨hne, hplain⟩ := h.isPlain
    exact ⟨tidy_of_not_isBlank fun c hc => (isPlain_iff.1 (hplain c hc)).1, hne,
      fun c hc => (isPlain_iff.1 (hplain c hc)).2⟩
  induction h with
  | last h => exact hword h
  | more h _ ih =>
    obtain ⟨htidy, hne, hchars⟩ := hword h
    obtain ⟨hrest, hrestne, hrestchars⟩ := ih
    refine ⟨htidy.glue hrest hne hrestne (.inr rfl), by simp, ?_⟩
    exact List.forall_mem_append.2 ⟨hchars, List.forall_mem_cons.2 ⟨by decide, hrestchars⟩⟩

/-- Cut at its spaces, a text is read as some elements just if they may be written so. -/
theorem forall₂_readElement_iff :
    List.Forall₂ (fun text e => readElement text = .ok e) (splitWhere (· == ' ') cs) elements ↔
      AlternativeWritten elements cs := by
  constructor
  · intro h
    induction elements generalizing cs with
    | nil => exact (splitWhere_ne_nil _ _ (List.forall₂_nil_right_iff.1 h)).elim
    | cons e elements ih =>
      rcases splitWhere_cases (· == ' ') cs with ⟨hsplit, -⟩ | ⟨piece, c, rest, rfl, hc, -, hsplit⟩
      · rw [hsplit] at h
        cases h with
        | cons he hrest =>
          cases hrest
          exact .last (readElement_eq_ok_iff.1 he)
      · obtain rfl : c = ' ' := by simpa using hc
        rw [hsplit] at h
        cases h with
        | cons he hrest => exact .more (readElement_eq_ok_iff.1 he) (ih hrest)
  · have hspace : ∀ {e : Element} {cs : List Char}, e.Written cs →
        ∀ c ∈ cs, (c == ' ') = false := by
      intro e cs h c hc
      rw [beq_eq_false_iff_ne]
      rintro rfl
      have hblank := (isPlain_iff.1 (h.isPlain.2 _ hc)).1
      rw [isBlank_space] at hblank
      cases hblank
    intro h
    induction h with
    | last h =>
      rw [splitWhere_eq_singleton (hspace h)]
      exact .cons (readElement_eq_ok_iff.2 h) .nil
    | more h _ ih =>
      rw [splitWhere_append_cons (hspace h) rfl]
      exact .cons (readElement_eq_ok_iff.2 h) ih

theorem readAlternative_append {before after : List Char} (h : AlternativeWritten elements cs)
    (hbefore : ∀ c ∈ before, isBlank c = true) (hafter : ∀ c ∈ after, isBlank c = true) :
    readAlternative (before ++ (cs ++ after)) = .ok elements := by
  obtain ⟨htidy, hne, -⟩ := h.tidy
  have htrim : trim (before ++ (cs ++ after)) = cs := by
    rw [trim, trimStart_append hbefore, trimEnd_append htidy.last hafter]
    rw [List.head?_append_of_ne_nil _ hne]
    exact htidy.head
  rw [readAlternative, htrim]
  cases cs with
  | nil => exact (hne rfl).elim
  | cons c cs => exact mapM_eq_ok_iff.2 (forall₂_readElement_iff.2 h)

theorem exists_of_readAlternative (h : readAlternative cs = .ok elements) :
    ∃ before text after, cs = before ++ (text ++ after) ∧ AlternativeWritten elements text ∧
      (∀ c ∈ before, isBlank c = true) ∧ ∀ c ∈ after, isBlank c = true := by
  obtain ⟨before, hcs, hbefore⟩ := exists_append_trimStart cs
  obtain ⟨after, hrest, hafter⟩ := exists_trimEnd_append (trimStart cs)
  rw [hrest] at hcs
  refine ⟨before, _, after, hcs, ?_, hbefore, hafter⟩
  rw [readAlternative] at h
  split at h
  · cases h
  · exact forall₂_readElement_iff.1 (mapM_eq_ok_iff.1 h)

/-! ## Bodies -/

/-- The text of a body is tidy, and has no comments. -/
theorem BodyWritten.tidy (h : BodyWritten alternatives cs) : Tidy cs ∧ cs ≠ [] ∧ '#' ∉ cs := by
  induction h with
  | last h =>
    obtain ⟨htidy, hne, hchars⟩ := h.tidy
    exact ⟨htidy, hne, fun hc => (hchars _ hc).2 rfl⟩
  | @more elements alternatives cs before after rest h hbefore hafter _ ih =>
    obtain ⟨htidy, hne, hchars⟩ := h.tidy
    obtain ⟨hrest, hrestne, hcomment⟩ := ih
    have hbar : Tidy ['|'] := tidy_of_not_isBlank (List.forall_mem_singleton.2 rfl)
    have htail : Tidy ('|' :: (after ++ rest)) := hbar.glue hrest (by simp) hrestne hafter
    rw [List.append_assoc]
    refine ⟨htidy.glue htail hne (by simp) hbefore, by simp [hne], fun hc => ?_⟩
    simp only [List.mem_append, List.mem_cons] at hc
    rcases hc with hc | hc | hc | hc | hc
    · exact (hchars _ hc).2 rfl
    · exact absurd (hbefore.isBlank _ hc) (by decide)
    · cases hc
    · exact absurd (hafter.isBlank _ hc) (by decide)
    · exact hcomment hc

/-- Cut at its bars, what has been written for some alternatives is read as these. -/
theorem BodyWritten.forall₂_readAlternative (h : BodyWritten alternatives cs) {gap : List Char}
    (hgap : Gap gap) : List.Forall₂ (fun text elements => readAlternative text = .ok elements)
      (splitWhere (· == '|') (gap ++ cs)) alternatives := by
  have hnobar : ∀ {gap : List Char}, Gap gap → ∀ c ∈ gap, (c == '|') = false := by
    rintro gap (rfl | rfl)
    · exact nofun
    · exact List.forall_mem_singleton.2 rfl
  induction h generalizing gap with
  | @last elements cs h =>
    have hbars : ∀ c ∈ gap ++ cs, (c == '|') = false := List.forall_mem_append.2
      ⟨hnobar hgap, fun c hc => beq_eq_false_iff_ne.2 (h.tidy.2.2 c hc).1⟩
    rw [splitWhere_eq_singleton hbars]
    refine .cons ?_ .nil
    have hread : readAlternative (gap ++ (cs ++ [])) = .ok elements :=
      readAlternative_append h hgap.isBlank nofun
    rwa [List.append_nil] at hread
  | @more elements alternatives cs before after rest h hbefore hafter _ ih =>
    have hbars : ∀ c ∈ gap ++ (cs ++ before), (c == '|') = false := List.forall_mem_append.2
      ⟨hnobar hgap, List.forall_mem_append.2
        ⟨fun c hc => beq_eq_false_iff_ne.2 (h.tidy.2.2 c hc).1, hnobar hbefore⟩⟩
    rw [← List.append_assoc gap, splitWhere_append_cons hbars rfl]
    exact .cons (readAlternative_append h hgap.isBlank hbefore.isBlank) (ih hafter)

/-- What is read as some alternatives may be written for them, behind a gap. -/
theorem exists_bodyWritten (hspaced : Spaced cs) (hlast : ∀ c ∈ cs.getLast?, isBlank c = false)
    (h : List.Forall₂ (fun text elements => readAlternative text = .ok elements)
      (splitWhere (· == '|') cs) alternatives) :
    ∃ gap body, Gap gap ∧ BodyWritten alternatives body ∧ cs = gap ++ body := by
  induction alternatives generalizing cs with
  | nil => exact (splitWhere_ne_nil _ _ (List.forall₂_nil_right_iff.1 h)).elim
  | cons elements alternatives ih =>
    rcases splitWhere_cases (· == '|') cs with ⟨hsplit, -⟩ | ⟨piece, c, rest, hcs, hc, -, hsplit⟩
    · rw [hsplit] at h
      cases h with
      | cons hread hrest =>
        cases hrest
        obtain ⟨before, text, after, rfl, hwritten, hbefore, hafter⟩ :=
          exists_of_readAlternative hread
        have hnone : after = [] := by
          rw [← List.getLast?_eq_none_iff, Option.eq_none_iff_forall_not_mem]
          intro c hc
          have hend := hlast c (by simp [Option.mem_def.1 hc])
          rw [hafter c (List.mem_of_mem_getLast? hc)] at hend
          cases hend
        subst hnone
        rw [List.append_nil] at hspaced ⊢
        exact ⟨before, text, (hspaced.within (List.prefix_append _ _).isInfix).gap hbefore,
          .last hwritten, rfl⟩
    · obtain rfl : c = '|' := by simpa using hc
      rw [hsplit] at h
      cases h with
      | cons hread hrest =>
        obtain ⟨before, text, after, rfl, hwritten, hbefore, hafter⟩ :=
          exists_of_readAlternative hread
        have hpiece := hspaced.within (hcs ▸ (List.prefix_append _ _).isInfix)
        have hsuffix : '|' :: rest <:+ cs := hcs ▸ List.suffix_append _ _
        have hend : ∀ c ∈ rest.getLast?, isBlank c = false := fun c hc =>
          hlast c (by simp [hcs, List.getLast?_cons, Option.mem_def.1 hc])
        obtain ⟨gap, body, hgap, hbody, rfl⟩ := ih
          (hspaced.within ((List.suffix_cons _ _).trans hsuffix).isInfix) hend hrest
        have hbeforeGap := (hpiece.within (List.prefix_append _ _).isInfix).gap hbefore
        have hafterGap := (hpiece.within
          ((List.suffix_append _ _).trans (List.suffix_append _ _)).isInfix).gap hafter
        refine ⟨before, _, hbeforeGap, .more hwritten hafterGap hgap hbody, ?_⟩
        rw [hcs]
        simp only [List.append_assoc]

/-! ## Rules -/

/-- What may be written for a rule is in canonical form. -/
theorem Written.canonical_eq (h : r.Written cs) : canonical cs = cs := by
  obtain ⟨name, body, hname, -, hbody, rfl⟩ := h
  obtain ⟨htidy, -, hcomment⟩ := hbody.tidy
  exact canonical_of_tidy hname htidy hcomment

theorem Written.read_eq (h : r.Written cs) : read cs = .ok r := by
  obtain ⟨name, body, hname, hrule, hbody, rfl⟩ := h
  have halternatives := mapM_eq_ok_iff.2 (hbody.forall₂_readAlternative (.inl rfl))
  rw [List.nil_append] at halternatives
  rw [read, splitArrow?_append (splitArrow?_of_isName hname)]
  simp only [hname, List.isEmpty_eq_false_iff.2 hbody.tidy.2.1, halternatives]
  obtain ⟨_, alternatives⟩ := r
  cases hrule
  rfl

/-- The canonical form of a line is read as the rule that it may be written for. -/
theorem read_canonical_eq_ok_iff {line : List Char} :
    read (canonical line) = .ok r ↔ r.Written (canonical line) := by
  refine ⟨fun h => ?_, Written.read_eq⟩
  obtain ⟨name, body, harrow, hname, hrule, -, hread⟩ := exists_of_read h
  have htidy := tidy_of_splitArrow? harrow
  obtain ⟨gap, rest, hgap, hbody, rfl⟩ :=
    exists_bodyWritten htidy.toSpaced htidy.last (mapM_eq_ok_iff.1 hread)
  have hnone : gap = [] := by
    rcases hgap with rfl | rfl
    · rfl
    · exact absurd (htidy.head ' ' rfl) (by decide)
  subst hnone
  exact ⟨name, rest, hname, hrule, hbody, eq_of_splitArrow? harrow⟩

end Rule

end PhraseSearch
