import PhraseSearch.Proofs.CommandLine.Lines
import PhraseSearch.Proofs.CommandLine.Steps

/-!
# Files that are read

On a system with files, reading changes nothing, and to open a file for output changes no other one.
So what is read after that could have been read before, unless it is the output itself.  On any
system, the paths that are read are those that the grammar asks for.

    the lines of a file                                                (fileLines_eq_ok_iff)
    what is read after the output has been opened                      (fileLines_of_opens)
    what is kept while lists are read                                  (fileLists_eq_ok)
    the lists are those of the last files given for their names        (fromLastFile_of_fileLists)
    no other files are read                                            (fileLists_recording)
-/

namespace PhraseSearch.CommandLine

variable {σ : Type} {access : Access (StateM σ)} {fs : access.FileSystem} {s s' opened : σ}
  {path path' text : String} {lines : List String} {out : Option String}

/-! ## Lines of a file -/

theorem fileLines_eq_ok_iff : (fileLines access path).run s = (.ok lines, s') ↔
    ∃ content text, access.read path s = (.ok content, s') ∧
      String.fromUTF8? content = some text ∧ lines = linesOf text := by
  constructor
  · intro h
    obtain ⟨content, between, hread, hlines⟩ := bind_eq_ok_iff.1 h
    cases htext : String.fromUTF8? content with
    | none =>
      simp only [htext] at hlines
      cases hlines
    | some text =>
      simp only [htext] at hlines
      cases hlines
      exact ⟨content, text, onFile_eq_ok_iff.1 hread, htext, rfl⟩
  · rintro ⟨content, text, hread, htext, rfl⟩
    refine bind_eq_ok_iff.2 ⟨content, s', onFile_eq_ok_iff.2 hread, ?_⟩
    simp only [htext]
    rfl

/-- A file that a text has been read from has its lines. -/
theorem run_fileLines_of_read (h : access.read path s = (.ok text.toUTF8, s')) :
    (fileLines access path).run s = (.ok (linesOf text), s') := by
  refine fileLines_eq_ok_iff.2 ⟨_, text, h, ?_, rfl⟩
  rw [String.fromUTF8?, String.toUTF8_eq_toByteArray, dif_pos text.isValidUTF8]
  rfl

/-- The path is noted. -/
theorem fileLines_recording (h : (fileLines access path).run s = (.ok lines, s'))
    (paths : List String) :
    (fileLines access.recording path).run (s, paths) = (.ok lines, s', paths ++ [path]) := by
  obtain ⟨content, text, hread, htext, rfl⟩ := fileLines_eq_ok_iff.1 h
  refine fileLines_eq_ok_iff.2 ⟨content, text, ?_, htext, rfl⟩
  exact congrArg (fun step => (step.1, step.2, paths ++ [path])) hread

/-! ## Opening and delivering -/

/-- Neither is noted. -/
theorem opens_recording (h : Opens access out s opened) (paths : List String) :
    Opens access.recording out (s, paths) (opened, paths) := by
  cases out with
  | none => exact congrArg (·, paths) h
  | some path => exact congrArg (fun step => (step.1, step.2, paths)) h

theorem deliver_recording (h : deliver access out text s = (.ok (), s')) (paths : List String) :
    deliver access.recording out text (s, paths) = (.ok (), s', paths) := by
  cases out with
  | none => exact congrArg (fun step => (step.1, step.2, paths)) h
  | some path => exact congrArg (fun step => (step.1, step.2, paths)) h

/-! ## File systems -/

/-- Paths lead where they did when a file has been read. -/
theorem place_of_run_fileLines (h : (fileLines access path).run s = (.ok lines, s'))
    (path' : String) : fs.place? s' path' = fs.place? s path' := by
  obtain ⟨content, text, hread, -, -⟩ := fileLines_eq_ok_iff.1 h
  have hplace := fs.place_read s path path'
  rwa [hread] at hplace

/-- Paths lead where they did when the output has been opened. -/
theorem place_of_opens (hopen : Opens access out s opened) (path : String) :
    fs.place? opened path = fs.place? s path := by
  cases out with
  | none => exact congrArg (fs.place? · path) hopen
  | some path' => exact fs.place_create s opened path' path hopen

theorem eq_of_run_fileLines (hfile : fs.OnlyFile s path)
    (h : (fileLines access path).run s = (.ok lines, s')) : s' = s := by
  obtain ⟨content, text, hread, -, -⟩ := fileLines_eq_ok_iff.1 h
  have hstate := fs.read_state s path hfile
  rw [hread] at hstate
  exact hstate

/-- What is read after the output has been opened could have been read before, unless it is the
output. -/
theorem fileLines_of_opens (hopen : Opens access out s opened) (hfile : fs.OnlyFile s path)
    (hapart : ∀ path' ∈ out, fs.place? s path' ≠ fs.place? s path)
    (h : (fileLines access path).run opened = (.ok lines, opened)) :
    (fileLines access path).run s = (.ok lines, s) := by
  cases out with
  | none =>
    obtain rfl : opened = s := hopen
    exact h
  | some path' =>
    obtain ⟨content, text, hread, htext, hlines⟩ := fileLines_eq_ok_iff.1 h
    have hbefore := fs.read_create s opened path' path content hfile (hapart path' rfl) hopen
      (congrArg Prod.fst hread)
    exact fileLines_eq_ok_iff.2
      ⟨content, text, Prod.ext hbefore (fs.read_state s path hfile), htext, hlines⟩

/-- A file that lines have been written to reads back as these lines. -/
theorem fileLines_of_write (hfile : fs.LeadsToFile s path) (hsingle : ∀ line ∈ lines, Single line)
    (h : access.write path (textOf lines) s = (.ok (), s')) :
    (fileLines access path).run s' = (.ok lines, s') := by
  obtain ⟨place, hplace, hfile⟩ := hfile
  have hback := run_fileLines_of_read (fs.read_write s s' path place _ hplace hfile h)
  rwa [linesOf_textOf hsingle] at hback

/-- So does one that has been opened after another has been read. -/
theorem fileLines_of_deliver {first : List String} {between : σ} (hfile : fs.LeadsToFile s path)
    (hread : (fileLines access path').run s = (.ok first, between))
    (hopen : Opens access (some path) between opened) (hsingle : ∀ line ∈ lines, Single line)
    (h : deliver access (some path) (textOf lines) opened = (.ok (), s')) :
    (fileLines access path).run s' = (.ok lines, s') := by
  obtain ⟨place, hplace, hkind⟩ := hfile
  rw [← place_of_run_fileLines hread, ← place_of_opens hopen] at hplace
  exact fileLines_of_write ⟨place, hplace, hkind⟩ hsingle h

/-! ## Reading lists -/

/-- Whether a file is the last one that is given for a name. -/
def LastGiven (given : List (String × String)) (name path : String) : Prop :=
  ∃ before after, given = before ++ (name, path) :: after ∧ ∀ entry ∈ after, entry.1 ≠ name

variable {given : List (String × String)} {name : String} {names : List String}
  {lists : List (String × List String)}

theorem lookup_reverse_eq_some_iff :
    given.reverse.lookup name = some path ↔ LastGiven given name path := by
  rw [List.lookup_eq_some_iff]
  constructor
  · rintro ⟨after, before, hgiven, hnone⟩
    refine ⟨before.reverse, after.reverse, ?_, fun entry hentry => ?_⟩
    · rw [← List.reverse_reverse given, hgiven, List.reverse_append, List.reverse_cons,
        List.append_assoc]
      rfl
    · have hne := hnone entry (List.mem_reverse.1 hentry)
      exact fun heq => (bne_iff_ne.1 hne) heq.symm
  · rintro ⟨before, after, rfl, hnone⟩
    refine ⟨after.reverse, before.reverse, ?_, fun entry hentry => ?_⟩
    · rw [List.reverse_append, List.reverse_cons, List.append_assoc]
      rfl
    · exact bne_iff_ne.2 (Ne.symm (hnone entry (List.mem_reverse.1 hentry)))

/-- The last files that are given for names, as far as there are any. -/
def lastFiles (given : List (String × String)) (names : List String) : List String :=
  names.filterMap fun name => given.reverse.lookup name

/-- Whether a list has the words of the last file that is given for its name. -/
def FromLastFile (access : Access (StateM σ)) (s : σ) (given : List (String × String))
    (name : String) (words : List String) : Prop :=
  ∃ path lines, LastGiven given name path ∧
    (fileLines access path).run s = (.ok lines, s) ∧ HasWords lines words

theorem FromLastFile.of_opens {words : List String} (hopen : Opens access out s opened)
    (hfile : ∀ path, LastGiven given name path → fs.OnlyFile s path)
    (hapart : ∀ path' ∈ out, ∀ path, LastGiven given name path →
      fs.place? s path' ≠ fs.place? s path)
    (h : FromLastFile access opened given name words) : FromLastFile access s given name words := by
  obtain ⟨path, lines, hlast, hlines, hwords⟩ := h
  have hbefore := fileLines_of_opens hopen (hfile path hlast)
    (fun path' hpath' => hapart path' hpath' path hlast) hlines
  exact ⟨path, lines, hlast, hbefore, hwords⟩

/-- If there is a file for every name, these are the last ones. -/
theorem forall₂_lastFiles (h : ∀ name ∈ names, ∃ path, LastGiven given name path) :
    List.Forall₂ (LastGiven given) names (lastFiles given names) := by
  induction names with
  | nil => exact .nil
  | cons name names ih =>
    obtain ⟨⟨path, hpath⟩, hrest⟩ := List.forall_mem_cons.1 h
    have hfiles : lastFiles given (name :: names) = path :: lastFiles given names :=
      List.filterMap_cons_some (lookup_reverse_eq_some_iff.2 hpath)
    rw [hfiles]
    exact .cons hpath (ih hrest)

/-- What holds of a system as long as only the last files for the names are read holds when the
lists have been read, and their words are those of lines that have been read from these files. -/
theorem fileLists_eq_ok (Kept : σ → Prop)
    (hkept : ∀ name ∈ names, ∀ path lines before after, LastGiven given name path →
      Kept before → (fileLines access path).run before = (.ok lines, after) → Kept after)
    (hs : Kept s) (h : (fileLists access given names).run s = (.ok lists, s')) :
    Kept s' ∧ ∀ entry ∈ lists, ∃ path lines before after, LastGiven given entry.1 path ∧
      Kept before ∧ Kept after ∧ (fileLines access path).run before = (.ok lines, after) ∧
      HasWords lines entry.2 := by
  induction names generalizing lists s with
  | nil =>
    cases h
    exact ⟨hs, nofun⟩
  | cons name names ih =>
    obtain ⟨hname, hnames⟩ := List.forall_mem_cons.1 hkept
    rw [fileLists] at h
    cases hpath : given.reverse.lookup name with
    | none =>
      rw [hpath] at h
      exact ih hnames hs h
    | some path =>
      rw [hpath] at h
      have hlast := lookup_reverse_eq_some_iff.1 hpath
      obtain ⟨lines, s₁, hlines, hothers⟩ := bind_eq_ok_iff.1 h
      have hs₁ := hname path lines s s₁ hlast hs hlines
      obtain ⟨others, s₂, hrest, hdone⟩ := bind_eq_ok_iff.1 hothers
      cases hdone
      obtain ⟨hs₂, heach⟩ := ih hnames hs₁ hrest
      exact ⟨hs₂, List.forall_mem_cons.2
        ⟨⟨path, lines, s, s₁, hlast, hs, hs₁, hlines, hasWords_iff.2 rfl⟩, heach⟩⟩

/-- Reading lists from files changes nothing. -/
theorem fromLastFile_of_fileLists
    (hfiles : ∀ name ∈ names, ∀ path, LastGiven given name path → fs.OnlyFile s path)
    (h : (fileLists access given names).run s = (.ok lists, s')) :
    s' = s ∧ ∀ entry ∈ lists, FromLastFile access s given entry.1 entry.2 := by
  have hkept : ∀ name ∈ names, ∀ path lines before after, LastGiven given name path → before = s →
      (fileLines access path).run before = (.ok lines, after) → after = s := by
    rintro name hname path lines before after hlast rfl hlines
    exact eq_of_run_fileLines (hfiles name hname path hlast) hlines
  obtain ⟨rfl, heach⟩ := fileLists_eq_ok (· = s) hkept rfl h
  refine ⟨rfl, fun entry hentry => ?_⟩
  obtain ⟨path, lines, before, after, hlast, rfl, rfl, hlines, hwords⟩ := heach entry hentry
  exact ⟨path, lines, hlast, hlines, hwords⟩

/-- The words of lists have no ends of lines inside. -/
theorem single_of_fileLists (h : (fileLists access given names).run s = (.ok lists, s')) :
    ∀ entry ∈ lists, ∀ word ∈ entry.2, Single word := by
  obtain ⟨-, heach⟩ := fileLists_eq_ok (fun _ => True) (fun _ _ _ _ _ _ _ _ _ => trivial) trivial h
  intro entry hentry
  obtain ⟨path, lines, before, after, -, -, -, hlines, hwords⟩ := heach entry hentry
  obtain ⟨content, text, -, -, rfl⟩ := fileLines_eq_ok_iff.1 hlines
  rw [hasWords_iff.1 hwords]
  exact fun word => single_of_mem_wordsOf

/-- The files are noted, and no others. -/
theorem fileLists_recording (h : (fileLists access given names).run s = (.ok lists, s'))
    (paths : List String) :
    (fileLists access.recording given names).run (s, paths) =
      (.ok lists, s', paths ++ lastFiles given names) := by
  induction names generalizing lists s paths with
  | nil =>
    cases h
    rw [lastFiles, List.filterMap_nil, List.append_nil]
    rfl
  | cons name names ih =>
    rw [fileLists] at h ⊢
    cases hpath : given.reverse.lookup name with
    | none =>
      rw [hpath] at h
      have hfiles : lastFiles given (name :: names) = lastFiles given names :=
        List.filterMap_cons_none hpath
      rw [hfiles]
      exact ih h paths
    | some path =>
      rw [hpath] at h
      obtain ⟨lines, s₁, hlines, hothers⟩ := bind_eq_ok_iff.1 h
      obtain ⟨others, s₂, hrest, hdone⟩ := bind_eq_ok_iff.1 hothers
      cases hdone
      have hfiles : lastFiles given (name :: names) = path :: lastFiles given names :=
        List.filterMap_cons_some hpath
      rw [hfiles]
      refine bind_eq_ok_iff.2 ⟨lines, _, fileLines_recording hlines paths, ?_⟩
      refine bind_eq_ok_iff.2 ⟨others, _, ih hrest _, ?_⟩
      rw [List.append_assoc]
      rfl

end PhraseSearch.CommandLine
