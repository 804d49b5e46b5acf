import PhraseSearch.Proofs.Text.Pieces
import PhraseSearch.Rule.Reader
import PhraseSearch.Rule.Written

/-!
# Reading elements

What the reader takes for an element is just what an element may be written as: an atom, whose name
ends at the first character that is not a character of a name, and a quantifier with bounds that are
not reversed.

    numbers                                                            (readNumber?_eq_some_iff)
    quantifiers                        (written_of_readQuantifier?, readQuantifier?_of_written)
    atoms                                                  (exists_of_readAtom, readAtom_append)
    elements                                                           (readElement_eq_ok_iff)
-/

namespace PhraseSearch

open Text

/-! ## Quantifiers -/

theorem Numeral.ne_comma {n : Nat} {digits : List Char} (h : Numeral n digits) {c : Char}
    (hc : c ∈ digits) : (c != ',') = true := by
  rw [bne_iff_ne]
  rintro rfl
  have := h.digit _ hc
  revert this
  decide

namespace Rule

variable {cs digits : List Char} {n : Nat} {b : Bounds} {bounds : Option Bounds}

theorem readNumber?_eq_some_iff : readNumber? cs = some n ↔ Numeral n cs := by
  have hbound : numberBound = UInt64.size := rfl
  rw [readNumber?]
  constructor
  · intro h
    split at h
    · next hdigits =>
      obtain ⟨hne, hall⟩ : cs ≠ [] ∧ ∀ c ∈ cs, c.isDigit = true := by simpa using hdigits
      simp only [hbound] at h
      split at h
      · next hlt =>
        obtain rfl := Option.some.inj h
        exact ⟨hne, hall, rfl, hlt⟩
      · cases h
    · cases h
  · rintro ⟨hne, hall, rfl, hlt⟩
    have hdigits : (!cs.isEmpty && cs.all Char.isDigit) = true := by simpa using ⟨hne, hall⟩
    rw [if_pos hdigits]
    exact if_pos (hbound ▸ hlt)

/-- Digits end at a comma. -/
theorem span_comma (h : Numeral n digits) (rest : List Char) :
    (digits ++ ',' :: rest).takeWhile (· != ',') = digits ∧
      (digits ++ ',' :: rest).dropWhile (· != ',') = ',' :: rest := by
  have hcomma : ∀ c ∈ (',' :: rest).head?, (c != ',') = false := by
    rintro c ⟨⟩
    rfl
  exact ⟨takeWhile_append_of_head (fun c => h.ne_comma) hcomma,
    dropWhile_append_of_head (fun c => h.ne_comma) hcomma⟩

theorem readBounds?_exactly (h : Numeral n digits) : readBounds? digits = some ⟨n, some n⟩ := by
  have htake := List.takeWhile_eq_self_iff.2 fun c (hc : c ∈ digits) => h.ne_comma hc
  have hdrop := List.dropWhile_eq_nil_iff.2 fun c (hc : c ∈ digits) => h.ne_comma hc
  rw [readBounds?]
  simp only [htake, hdrop, readNumber?_eq_some_iff.2 h]
  rfl

theorem readBounds?_atLeast (h : Numeral n digits) :
    readBounds? (digits ++ [',']) = some ⟨n, none⟩ := by
  rw [readBounds?]
  simp only [span_comma h, readNumber?_eq_some_iff.2 h]
  rfl

theorem readBounds?_between {m : Nat} {digits' : List Char} (h : Numeral n digits)
    (h' : Numeral m digits') : readBounds? (digits ++ ',' :: digits') = some ⟨n, some m⟩ := by
  rw [readBounds?]
  simp only [span_comma h]
  cases digits' with
  | nil => exact (h'.nonempty rfl).elim
  | cons d digits' =>
    simp only [readNumber?_eq_some_iff.2 h, readNumber?_eq_some_iff.2 h']
    rfl

/-- What is read between braces may be written there, unless it is reversed. -/
theorem written_of_readBounds? (h : readBounds? cs = some b) (hreversed : b.isReversed = false) :
    Bounds.Written (some b) ('{' :: cs ++ ['}']) := by
  have hcs := List.takeWhile_append_dropWhile (p := (· != ',')) (l := cs)
  rw [readBounds?] at h
  cases hrest : cs.dropWhile (· != ',') with
  | nil =>
    rw [hrest, List.append_nil] at hcs
    simp only [hrest, hcs, Option.bind_eq_bind, Option.bind_eq_some_iff, Option.pure_def,
      Option.some_inj] at h
    obtain ⟨n, hn, rfl⟩ := h
    exact .exactly (readNumber?_eq_some_iff.1 hn)
  | cons c high =>
    obtain rfl : c = ',' := by simpa using not_of_dropWhile_eq_cons hrest
    rw [hrest] at hcs
    rw [← hcs]
    cases high with
    | nil =>
      simp only [hrest, Option.bind_eq_bind, Option.bind_eq_some_iff, Option.pure_def,
        Option.some_inj] at h
      obtain ⟨n, hn, rfl⟩ := h
      rw [← List.cons_append, List.append_assoc]
      exact .atLeast (readNumber?_eq_some_iff.1 hn)
    | cons d high =>
      simp only [hrest, Option.bind_eq_bind, Option.bind_eq_some_iff, Option.pure_def,
        Option.some_inj] at h
      obtain ⟨n, hn, m, hm, rfl⟩ := h
      have hle : n ≤ m := by simpa [Bounds.isReversed] using hreversed
      exact .between (readNumber?_eq_some_iff.1 hn) (readNumber?_eq_some_iff.1 hm) hle

theorem written_of_readQuantifier? (h : readQuantifier? cs = some bounds)
    (hreversed : bounds.any Bounds.isReversed = false) : Bounds.Written bounds cs := by
  rw [readQuantifier?.eq_def] at h
  split at h
  · cases h
    exact .none
  · cases h
    exact .optional
  · cases h
    exact .any
  · cases h
    exact .many
  · next inner =>
    split at h
    · next hlast =>
      obtain ⟨b, hb, rfl⟩ := Option.map_eq_some_iff.1 h
      obtain ⟨text, rfl⟩ := List.getLast?_eq_some_iff.1 hlast
      rw [List.dropLast_concat] at hb
      exact written_of_readBounds? hb hreversed
    · cases h
  · cases h

theorem readQuantifier?_of_written (h : Bounds.Written bounds cs) :
    readQuantifier? cs = some bounds ∧ bounds.any Bounds.isReversed = false := by
  have hbraces : ∀ text, readQuantifier? ('{' :: text ++ ['}']) =
      (readBounds? text).map some := by
    intro text
    rw [List.cons_append, readQuantifier?, if_pos List.getLast?_concat, List.dropLast_concat]
  cases h with
  | none => exact ⟨rfl, rfl⟩
  | optional => exact ⟨rfl, rfl⟩
  | any => exact ⟨rfl, rfl⟩
  | many => exact ⟨rfl, rfl⟩
  | exactly h =>
    rw [hbraces, readBounds?_exactly h]
    exact ⟨rfl, by simp [Bounds.isReversed]⟩
  | @atLeast n digits h =>
    have htext : '{' :: digits ++ [',', '}'] = '{' :: (digits ++ [',']) ++ ['}'] := by simp
    rw [htext, hbraces, readBounds?_atLeast h]
    exact ⟨rfl, rfl⟩
  | @between n m digits digits' h h' hle =>
    have htext : '{' :: digits ++ ',' :: digits' ++ ['}'] =
        '{' :: (digits ++ ',' :: digits') ++ ['}'] := by simp
    rw [htext, hbraces, readBounds?_between h h']
    exact ⟨rfl, by simpa [Bounds.isReversed] using hle⟩

/-! ## Elements -/

/-- A quantifier does not begin with a character of a name. -/
theorem head?_of_boundsWritten (h : Bounds.Written bounds cs) {c : Char} (hc : c ∈ cs.head?) :
    isNameChar c = false := by
  cases h <;> cases hc <;> decide

theorem exists_of_readAtom {atom : Atom} {quantifier : List Char}
    (h : readAtom cs = .ok (atom, quantifier)) :
    ∃ text, atom.Written text ∧ cs = text ++ quantifier := by
  rw [readAtom.eq_def] at h
  split at h
  · next rest =>
    have hrest := List.takeWhile_append_dropWhile (p := (· != '>')) (l := rest)
    cases hdrop : rest.dropWhile (· != '>') with
    | nil =>
      simp only [hdrop] at h
      cases h
    | cons c after =>
      obtain rfl : c = '>' := by simpa using not_of_dropWhile_eq_cons hdrop
      simp only [hdrop] at h
      split at h
      · next hname =>
        cases h
        refine ⟨_, .list hname, ?_⟩
        rw [hdrop] at hrest
        simp [hrest]
      · cases h
  · simp only at h
    split at h
    · cases h
    · next hne =>
      cases h
      refine ⟨_, .rule (isName_iff.2 ⟨?_, fun c hc => List.mem_takeWhile_imp hc⟩),
        List.takeWhile_append_dropWhile.symm⟩
      simpa using hne

theorem readAtom_append {atom : Atom} {text quantifier : List Char} (h : atom.Written text)
    (hhead : ∀ c ∈ quantifier.head?, isNameChar c = false) :
    readAtom (text ++ quantifier) = .ok (atom, quantifier) := by
  cases h with
  | @list name hname =>
    have hall : ∀ c ∈ name, (c != '>') = true := fun c hc =>
      bne_iff_ne.2 (ne_of_isNameChar ((isName_iff.1 hname).2 c hc) (by decide))
    have hclose : ∀ c ∈ ('>' :: quantifier).head?, (c != '>') = false := by
      rintro c ⟨⟩
      rfl
    rw [List.cons_append, List.cons_append, List.append_assoc, List.singleton_append, readAtom]
    simp only [takeWhile_append_of_head hall hclose, dropWhile_append_of_head hall hclose, hname,
      if_true]
  | @rule name hname =>
    obtain ⟨hne, hall⟩ := isName_iff.1 hname
    have hopen : ∀ rest, text ++ quantifier ≠ '<' :: rest := by
      intro rest heq
      cases text with
      | nil => exact hne rfl
      | cons c text =>
        obtain ⟨rfl, -⟩ := List.cons.inj heq
        have := hall '<' (by simp)
        revert this
        decide
    rw [readAtom.eq_def]
    split
    · next rest heq => exact (hopen rest heq).elim
    · simp only [takeWhile_append_of_head hall hhead, dropWhile_append_of_head hall hhead,
        List.isEmpty_eq_false_iff.2 hne]
      rfl

/-- The elements that are read are those that may be written. -/
theorem readElement_eq_ok_iff {e : Element} : readElement cs = .ok e ↔ e.Written cs := by
  constructor
  · intro h
    rw [readElement] at h
    cases hatom : readAtom cs with
    | error fault =>
      rw [hatom] at h
      cases h
    | ok read =>
      obtain ⟨atom, quantifier⟩ := read
      rw [hatom] at h
      simp only [bind, Except.bind] at h
      cases hbounds : readQuantifier? quantifier with
      | none =>
        rw [hbounds] at h
        cases h
      | some bounds =>
        simp only [hbounds] at h
        split at h
        · cases h
        · next hreversed =>
          cases h
          obtain ⟨text, htext, rfl⟩ := exists_of_readAtom hatom
          have hwritten := written_of_readQuantifier? hbounds (by simpa using hreversed)
          exact ⟨text, quantifier, htext, hwritten, rfl⟩
  · rintro ⟨text, quantifier, htext, hquantifier, rfl⟩
    obtain ⟨hread, hreversed⟩ := readQuantifier?_of_written hquantifier
    have hatom := readAtom_append htext fun c => head?_of_boundsWritten hquantifier
    rw [readElement, hatom]
    simp only [bind, Except.bind, hread, hreversed]
    rfl

end Rule

end PhraseSearch
