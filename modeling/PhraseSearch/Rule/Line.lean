import PhraseSearch.Text.Blank

/-!
# Rule lines

A rule is written on one line.  `canonical` gives the line its canonical form: the comment, which
starts at the first `#`, is dropped, runs of blanks become one space, and nothing stands around
the first arrow `->`.  Two lines with one canonical form are the same rule.

    splitArrow? cs = some (a, b)  →  cs = a ++ "->" ++ b               (eq_of_splitArrow?)
-/

namespace PhraseSearch.Rule

/-! ## Definitions -/

/-- What stands before and after the first arrow. -/
def splitArrow? : List Char → Option (List Char × List Char)
  | '-' :: '>' :: rest => some ([], rest)
  | c :: rest => (splitArrow? rest).map fun (before, after) => (c :: before, after)
  | [] => none

/-- The text up to the first `#`. -/
def dropComment (cs : List Char) : List Char :=
  cs.takeWhile (· != '#')

/-- The words of the text, separated by single spaces. -/
def collapse (cs : List Char) : List Char :=
  [' '].intercalate (Text.fields cs)

/-- Removes the blanks on either side of the first arrow. -/
def tighten (cs : List Char) : List Char :=
  match splitArrow? cs with
  | some (before, after) => Text.trimEnd before ++ '-' :: '>' :: Text.trimStart after
  | none => cs

/-- The canonical form of a line. -/
def canonical (cs : List Char) : List Char :=
  tighten (collapse (dropComment cs))

/-- The canonical form of a line given as a string. -/
def canonicalLine (line : String) : String :=
  String.ofList (canonical line.toList)

/-- The lines of a grammar as they are shown: in canonical form, without the empty ones. -/
def shownLines (lines : List String) : List String :=
  (lines.map canonicalLine).filter (!·.isEmpty)

/-! ## Lemmas -/

theorem eq_of_splitArrow? {cs before after : List Char}
    (h : splitArrow? cs = some (before, after)) : cs = before ++ '-' :: '>' :: after := by
  fun_induction splitArrow? cs generalizing before after with
  | case1 rest => simp_all
  | case2 c rest _ ih =>
    obtain ⟨⟨b, a⟩, hsplit, heq⟩ := Option.map_eq_some_iff.1 h
    simp only [Prod.mk.injEq] at heq
    obtain ⟨rfl, rfl⟩ := heq
    rw [ih hsplit, List.cons_append]
  | case3 => cases h

theorem toList_canonicalLine (line : String) :
    (canonicalLine line).toList = canonical line.toList :=
  String.toList_ofList

end PhraseSearch.Rule
