import PhraseSearch.Search.Draft
import Std.Data.HashSet

/-!
# Reports

Results are taken one draft at a time, in whatever order they come, and every phrase of a draft
makes one line: its words, separated by single spaces.  A report that is `unique` passes over a line
that it has met before; one that is a `count` prints in the end how many lines there would have
been.
-/

namespace PhraseSearch.CommandLine

/-- What has become of the results so far. -/
structure Report where
  /-- the lines met, if each is to be printed once -/
  seen : Std.HashSet String
  /-- the number of lines -/
  taken : Nat
  /-- the lines, the last one first, unless they are only counted -/
  written : List String

namespace Report

/-- The report before the first result. -/
def start : Report := ⟨∅, 0, []⟩

variable (unique count : Bool)

/-- Takes one line. -/
def add : Report → String → Report
  | ⟨seen, taken, written⟩, line =>
    if unique && seen.contains line then ⟨seen, taken, written⟩
    else
      { seen := if unique then seen.insert line else seen
        taken := taken + 1
        written := if count then written else line :: written }

/-- Takes the phrases of a draft. -/
def addDraft (report : Report) (draft : Draft) : Report :=
  draft.phrases.foldl (fun report phrase => report.add unique count (" ".intercalate phrase)) report

/-- The lines to print when there are no more results. -/
def lines (report : Report) : List String :=
  if count then [toString report.taken] else report.written.reverse

end Report

/-- The lines to print for results. -/
def reportOf (unique count : Bool) (drafts : List Draft) : List String :=
  (drafts.foldl (Report.addDraft unique count) .start).lines count

end PhraseSearch.CommandLine
