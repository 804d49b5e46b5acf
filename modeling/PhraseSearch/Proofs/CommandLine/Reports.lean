import Mathlib.Data.List.Perm.Lattice
import PhraseSearch.CommandLine.Report

/-!
# What a report prints

A report has kept some of the lines that it has met, and what it prints is told by these: they are
all lines, or each of them once, and a count is their number.  The order in which results come may
change the order of the lines, but not which lines there are and how many.

    all lines, unless each is to be printed once                       (reportOf_all)
    the same lines, each of them once              (nodup_reportOf, mem_reportOf_iff)
    the number of the lines                                            (reportOf_count)
    so all modes are about the same phrases                            (modesAgree_reportOf)
    results may come in any order                                      (reportOf_perm)
-/

namespace PhraseSearch.CommandLine

variable {unique count : Bool} {report : Report} {kept : List String}

/-! ## Kept lines -/

/-- The lines that are kept, the last one first, after one more. -/
def keep (unique : Bool) (kept : List String) (line : String) : List String :=
  if unique && kept.contains line then kept else line :: kept

/-- What a report holds that has kept some lines. -/
structure Report.Holds (unique count : Bool) (kept : List String) (report : Report) : Prop where
  seen : unique = true → ∀ line, line ∈ report.seen ↔ line ∈ kept
  taken : report.taken = kept.length
  written : report.written = if count then [] else kept

namespace Report

theorem holds_start (unique count : Bool) : Holds unique count [] .start where
  seen _ line := by simp [start]
  taken := rfl
  written := by cases count <;> rfl

theorem Holds.add (h : Holds unique count kept report) (line : String) :
    Holds unique count (keep unique kept line) (report.add unique count line) := by
  have hseen : (unique && report.seen.contains line) = (unique && kept.contains line) := by
    cases unique with
    | false => rfl
    | true =>
      rw [Bool.eq_iff_iff]
      simpa [Std.HashSet.contains_iff_mem] using h.seen rfl line
  rw [Report.add, keep, hseen]
  split
  · exact h
  · refine ⟨fun hunique other => ?_, ?_, ?_⟩
    · simp only [hunique, if_true, Std.HashSet.mem_insert, beq_iff_eq, List.mem_cons,
        h.seen hunique]
      exact or_congr_left eq_comm
    · rw [List.length_cons, h.taken]
    · rw [h.written]
      cases count <;> rfl

theorem Holds.foldl (h : Holds unique count kept report) (lines : List String) :
    Holds unique count (lines.foldl (keep unique) kept)
      (lines.foldl (Report.add unique count) report) := by
  induction lines generalizing report kept with
  | nil => exact h
  | cons line lines ih => exact ih (h.add line)

theorem Holds.lines_eq (h : Holds unique count kept report) :
    report.lines count = if count then [toString kept.length] else kept.reverse := by
  rw [lines, h.taken, h.written]
  cases count <;> rfl

end Report

/-! ## Lines of results -/

/-- The lines of results, one for each phrase. -/
def linesOfDrafts (drafts : List Draft) : List String :=
  (drafts.flatMap Draft.phrases).map (" ".intercalate ·)

variable {drafts drafts' : List Draft} {lines : List String}

theorem foldl_addDraft (drafts : List Draft) (report : Report) :
    drafts.foldl (Report.addDraft unique count) report =
      (linesOfDrafts drafts).foldl (Report.add unique count) report := by
  rw [linesOfDrafts, List.foldl_map, List.foldl_flatMap]
  rfl

/-- A report of results is told by the lines that it keeps. -/
theorem reportOf_eq (unique count : Bool) (drafts : List Draft) :
    reportOf unique count drafts =
      if count then [toString ((linesOfDrafts drafts).foldl (keep unique) []).length]
      else ((linesOfDrafts drafts).foldl (keep unique) []).reverse := by
  rw [reportOf, foldl_addDraft]
  exact ((Report.holds_start unique count).foldl _).lines_eq

theorem foldl_keep_all (lines kept : List String) :
    lines.foldl (keep false) kept = lines.reverse ++ kept := by
  induction lines generalizing kept with
  | nil => rfl
  | cons line lines ih =>
    rw [List.foldl_cons, ih, List.reverse_cons, List.append_assoc]
    rfl

theorem mem_foldl_keep {line : String} :
    line ∈ lines.foldl (keep unique) kept ↔ line ∈ kept ∨ line ∈ lines := by
  induction lines generalizing kept with
  | nil => simp
  | cons first lines ih =>
    have hkeep : line ∈ keep unique kept first ↔ line ∈ kept ∨ line = first := by
      rw [keep]
      split
      · next h =>
        have hmem : first ∈ kept := by simpa using (Bool.and_eq_true_iff.1 h).2
        exact ⟨.inl, fun h => h.elim id fun heq => heq ▸ hmem⟩
      · rw [List.mem_cons, or_comm]
    rw [List.foldl_cons, ih, hkeep, List.mem_cons, or_assoc]

theorem nodup_foldl_keep (h : kept.Nodup) : (lines.foldl (keep true) kept).Nodup := by
  induction lines generalizing kept with
  | nil => exact h
  | cons line lines ih =>
    rw [List.foldl_cons]
    refine ih ?_
    rw [keep]
    split
    · exact h
    · next hnew => exact List.nodup_cons.2 ⟨by simpa using hnew, h⟩

/-! ## What is printed -/

theorem reportOf_all (drafts : List Draft) :
    reportOf false false drafts = linesOfDrafts drafts := by
  rw [reportOf_eq, if_neg Bool.false_ne_true, foldl_keep_all, List.append_nil, List.reverse_reverse]

theorem mem_linesOfDrafts_of_mem_reportOf {line : String}
    (h : line ∈ reportOf unique false drafts) : line ∈ linesOfDrafts drafts := by
  rw [reportOf_eq, if_neg Bool.false_ne_true, List.mem_reverse, mem_foldl_keep] at h
  exact h.resolve_left List.not_mem_nil

theorem nodup_reportOf (drafts : List Draft) : (reportOf true false drafts).Nodup := by
  rw [reportOf_eq, if_neg Bool.false_ne_true]
  exact List.nodup_reverse.2 (nodup_foldl_keep List.nodup_nil)

theorem mem_reportOf_iff {line : String} :
    line ∈ reportOf true false drafts ↔ line ∈ reportOf false false drafts := by
  simp only [reportOf_eq, Bool.false_eq_true, if_false, List.mem_reverse, mem_foldl_keep]

theorem reportOf_count (unique : Bool) (drafts : List Draft) :
    reportOf unique true drafts = [toString (reportOf unique false drafts).length] := by
  rw [reportOf_eq, reportOf_eq, if_pos rfl, if_neg Bool.false_ne_true, List.length_reverse]

/-- Whether the lines for all modes of output, `unique` or not and `count` or not, are made of the
same phrases. -/
structure ModesAgree (phrases : List (List String)) (linesFor : Bool → Bool → List String) :
    Prop where
  /-- every phrase is on a line, with its words between single spaces -/
  all : (linesFor false false).Perm (phrases.map (" ".intercalate ·))
  /-- the same lines, each of them once -/
  once : (linesFor true false).Nodup
  same : ∀ line, line ∈ linesFor true false ↔ line ∈ linesFor false false
  /-- instead of lines, how many there would be -/
  counted : ∀ unique, linesFor unique true = [toString (linesFor unique false).length]

theorem modesAgree_reportOf (drafts : List Draft) :
    ModesAgree (drafts.flatMap Draft.phrases) fun unique count => reportOf unique count drafts where
  all := .of_eq (reportOf_all drafts)
  once := nodup_reportOf drafts
  same _ := mem_reportOf_iff
  counted unique := reportOf_count unique drafts

/-- The order of the results only counts for the order of the lines. -/
theorem reportOf_perm
    (h : (drafts.flatMap Draft.phrases).Perm (drafts'.flatMap Draft.phrases)) :
    (reportOf unique count drafts).Perm (reportOf unique count drafts') := by
  have hlines : (linesOfDrafts drafts).Perm (linesOfDrafts drafts') := h.map _
  have hall : (reportOf unique false drafts).Perm (reportOf unique false drafts') := by
    cases unique with
    | false => rwa [reportOf_all, reportOf_all]
    | true =>
      refine (List.perm_ext_iff_of_nodup (nodup_reportOf _) (nodup_reportOf _)).2 fun line => ?_
      rw [mem_reportOf_iff, mem_reportOf_iff, reportOf_all, reportOf_all]
      exact hlines.mem_iff
  cases count with
  | false => exact hall
  | true => rw [reportOf_count, reportOf_count, hall.length_eq]

end PhraseSearch.CommandLine
