import PhraseSearch.Proofs.CommandLine.Files
import PhraseSearch.Proofs.CommandLine.Hosts
import PhraseSearch.Proofs.Grammar.Lines

/-!
# The grammar that is shown

`--show-grammar` prints the lines of a grammar in canonical form, without those that are empty.  No
canonical line holds the end of a line, so the file that `--out` names reads back as these lines,
and they are canonical already: both files are compiled to the same automaton, or have the same
fault.

    what it means to show a grammar                                    (perform_showGrammar_iff)
    canonical lines are all that counts                                (compileLines_of_canonical)
-/

namespace PhraseSearch.CommandLine

open Text

variable {σ : Type} {access : Access (StateM σ)} {s s' : σ} {arguments : Arguments}

/-! ## Showing a grammar -/

theorem single_of_mem_shownLines {lines : List String} {line : String}
    (h : line ∈ Rule.shownLines lines) : Single line := by
  obtain ⟨raw, -, rfl⟩ := List.mem_map.1 (List.mem_filter.1 h).1
  have hform := Rule.inForm_canonical raw.toList
  rw [← Rule.toList_canonicalLine] at hform
  refine ⟨fun hmem => ?_, fun hlast => ?_⟩
  · exact absurd (hform.space _ hmem (by decide)) (by decide)
  · exact absurd (hform.last _ hlast) (by decide)

/-- To show a grammar is to read it, to open the output, and to put the canonical lines there. -/
theorem perform_showGrammar_iff (hshow : arguments.showGrammar = true) :
    perform access arguments s = (0, s') ↔
      ∃ lines s₁ s₂, (fileLines access arguments.grammar).run s = (.ok lines, s₁) ∧
        Opens access arguments.out s₁ s₂ ∧
        deliver access arguments.out (textOf (Rule.shownLines lines)) s₂ = (.ok (), s') := by
  have houtput : ∀ lines before, (output access arguments lines).run before =
      (.ok (Rule.shownLines lines), before) := by
    intro lines before
    rw [output, if_pos hshow]
    rfl
  rw [perform_eq_zero_iff, run_eq_ok_iff]
  constructor
  · rintro ⟨lines, s₁, s₂, shown, s₃, hread, hopen, hshown, hdeliver⟩
    rw [houtput] at hshown
    cases hshown
    exact ⟨lines, s₁, s₂, hread, hopen, hdeliver⟩
  · rintro ⟨lines, s₁, s₂, hread, hopen, hdeliver⟩
    exact ⟨lines, s₁, s₂, _, s₂, hread, hopen, houtput lines s₂, hdeliver⟩

/-- A grammar counts only for the canonical forms of its lines.  These are in canonical form once
and for all; lists of lines for which they are the same are compiled to the same automaton or have
the same fault; and so it is with a file and what a run that shows its grammar makes of it. -/
theorem compileLines_of_canonical :
    (∀ line : String, Rule.InForm (Rule.canonicalLine line).toList ∧
      Rule.canonicalLine (Rule.canonicalLine line) = Rule.canonicalLine line) ∧
    (∀ lines lines' : List String, Rule.shownLines lines = Rule.shownLines lines' →
      Grammar.SameOutcome (Grammar.compileLines lines) (Grammar.compileLines lines')) ∧
    ∀ {σ : Type} {access : Access (StateM σ)} (fs : access.FileSystem) (arguments : Arguments)
      (path : String) (s s' : σ),
      arguments.showGrammar = true → arguments.out = some path →
      (perform access arguments s = (0, s') ↔
        ∃ lines s₁ s₂, (fileLines access arguments.grammar).run s = (.ok lines, s₁) ∧
          access.create path s₁ = (.ok (), s₂) ∧
          access.write path (textOf (Rule.shownLines lines)) s₂ = (.ok (), s')) ∧
      (fs.LeadsToFile s path → perform access arguments s = (0, s') →
        ∃ lines s₁, (fileLines access arguments.grammar).run s = (.ok lines, s₁) ∧
          (fileLines access path).run s' = (.ok (Rule.shownLines lines), s') ∧
          Grammar.SameOutcome (Grammar.compileLines lines)
            (Grammar.compileLines (Rule.shownLines lines))) := by
  refine ⟨fun line => ⟨?_, Rule.canonicalLine_canonicalLine line⟩,
    fun lines lines' h => Grammar.sameOutcome_compileLines h, ?_⟩
  · rw [Rule.toList_canonicalLine]
    exact Rule.inForm_canonical _
  · intro σ access fs arguments path s s' hshow hout
    have hiff := @perform_showGrammar_iff σ access s s' arguments hshow
    rw [hout] at hiff
    refine ⟨hiff, fun hfile h => ?_⟩
    obtain ⟨lines, s₁, s₂, hread, hopen, hwrite⟩ := hiff.1 h
    have hback := fileLines_of_deliver hfile hread hopen
      (fun line => single_of_mem_shownLines) hwrite
    exact ⟨lines, s₁, hread, hback,
      Grammar.sameOutcome_compileLines (Rule.shownLines_shownLines lines).symm⟩

/-- A host with a folder, and in it a grammar file that has a comment, blank lines and ends of lines
of both kinds. -/
def grammarHost : Host where
  tree := .folder [("data", .folder [])]
  folder := []
  files := .ofList
    [("/data/rules", "# words\ntop  ->  name+ # at least one\r\n\n name-><n>\n".toUTF8)]
  output := ""
  errors := ""

/-- The grammar of that file is shown, in another file. -/
def showArguments : Arguments where
  grammar := "data/rules"
  lists := []
  sample := none
  random := false
  unique := false
  count := false
  threads := none
  dot := false
  showGrammar := true
  out := some "data/shown"
  words := []

/-- The number of the repeated line is another one in the shown grammar, and the file that is
written has the two rules without all else. -/
theorem compileLines_of_canonical_of_file :
    Grammar.compileLines ["", "a ->  <n>", "# again", "a-><n>"] =
      .error (.badLine 4 "a-><n>" (.repeated 2)) ∧
    Grammar.SameOutcome (Grammar.compileLines ["", "a ->  <n>", "# again", "a-><n>"])
      (Grammar.compileLines ["a-><n>", "a-><n>"]) ∧
    Host.fileSystem.LeadsToFile grammarHost "data/shown" ∧
    ∃ host', perform Host.access showArguments grammarHost = (0, host') ∧
      (fileLines Host.access "data/shown").run host' = (.ok ["top->name+", "name-><n>"], host') ∧
      Grammar.SameOutcome
        (Grammar.compileLines ["# words", "top  ->  name+ # at least one", "", " name-><n>"])
        (Grammar.compileLines ["top->name+", "name-><n>"]) := by
  obtain ⟨-, hsame, hfile⟩ := compileLines_of_canonical
  have hplace : grammarHost.place? "data/shown" = some (.inl "/data/shown") := by decide +kernel
  have hleads : Host.fileSystem.LeadsToFile grammarHost "data/shown" := ⟨_, hplace, rfl⟩
  have hcode : (perform Host.access showArguments grammarHost).1 = 0 := by decide +kernel
  rcases hperform : perform Host.access showArguments grammarHost with ⟨code, host'⟩
  obtain rfl : code = 0 := (congrArg Prod.fst hperform).symm.trans hcode
  obtain ⟨-, hback⟩ := hfile Host.fileSystem showArguments "data/shown" grammarHost host' rfl rfl
  obtain ⟨lines, s₁, hread, hback, halike⟩ := hback hleads hperform
  have hlines : ((fileLines Host.access "data/rules").run grammarHost).1 =
      .ok ["# words", "top  ->  name+ # at least one", "", " name-><n>"] := by
    decide +kernel
  rw [show showArguments.grammar = "data/rules" from rfl] at hread
  rw [hread] at hlines
  cases hlines
  have hshown : Rule.shownLines ["# words", "top  ->  name+ # at least one", "", " name-><n>"] =
      ["top->name+", "name-><n>"] := by
    decide +kernel
  rw [hshown] at hback halike
  exact ⟨rfl, hsame _ _ (by decide +kernel), hleads, host', rfl, hback, halike⟩

end PhraseSearch.CommandLine
