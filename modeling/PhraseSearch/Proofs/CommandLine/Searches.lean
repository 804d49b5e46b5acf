import PhraseSearch.Proofs.CommandLine.Files
import PhraseSearch.Proofs.CommandLine.Hosts
import PhraseSearch.Proofs.CommandLine.Reports
import PhraseSearch.Proofs.Finder.Runs
import PhraseSearch.Proofs.Search.Findings

/-!
# Searches from the command line

Nothing depends on how the results are to be printed before they are there, so runs that differ only
in that read the same files and find the same drafts.  What each of them prints is then a report of
these drafts, in the order in which they come.

    what has been done when a search succeeds                          (exists_finds)
    how it goes on in each of the modes                                (Finds.perform_eq_zero_iff)
    the lines of all modes, and the files that are read                (perform_search_spec)
-/

namespace PhraseSearch.CommandLine

variable {σ : Type} {access : Access (StateM σ)} {fs : access.FileSystem} {s s' : σ}
  {arguments : Arguments}

/-! ## Modes of output -/

/-- Whether all results of a search are to be printed. -/
structure Arguments.SearchesAll (arguments : Arguments) : Prop where
  showGrammar : arguments.showGrammar = false
  dot : arguments.dot = false
  sample : arguments.sample = none

/-- The arguments with other switches for the output. -/
def Arguments.inMode (arguments : Arguments) (unique count : Bool) : Arguments :=
  { arguments with unique := unique, count := count }

theorem Arguments.SearchesAll.inMode (h : arguments.SearchesAll) (unique count : Bool) :
    (arguments.inMode unique count).SearchesAll := ⟨h.showGrammar, h.dot, h.sample⟩

/-- Whether a file is one that a search needs: the last one that is given for a list which the
grammar needs. -/
def NeedsFile (access : Access (StateM σ)) (arguments : Arguments) (s : σ) (path : String) :
    Prop :=
  ∃ grammar s₁ automaton, (fileLines access arguments.grammar).run s = (.ok grammar, s₁) ∧
    Grammar.compileLines grammar = .ok automaton ∧
    ∃ name ∈ automaton.neededLists, LastGiven arguments.lists name path

/-! ## What a search finds -/

/-- What comes up in a search that succeeds. -/
structure Trail (σ : Type) where
  grammar : List String
  /-- the system when the grammar has been read -/
  begun : σ
  /-- the system when the output has been opened -/
  opened : σ
  automaton : Automaton
  lists : List (String × List String)
  /-- the system when the lists have been read -/
  collected : σ
  finder : Finder
  found : Run

/-- Whether that is what comes up. -/
structure Finds (access : Access (StateM σ)) (arguments : Arguments) (s : σ) (t : Trail σ) :
    Prop where
  reads : (fileLines access arguments.grammar).run s = (.ok t.grammar, t.begun)
  opens : Opens access arguments.out t.begun t.opened
  compiles : Grammar.compileLines t.grammar = .ok t.automaton
  collects : (fileLists access arguments.lists t.automaton.neededLists).run t.opened =
    (.ok t.lists, t.collected)
  builds : Finder.ofWordLists t.automaton (NameMap.ofList t.lists) Normalizer.lettersOnly
    (arguments.config access.cores) = .ok t.finder
  runs : ∃ f', t.finder.run (" ".intercalate arguments.words) .default = .ok (t.found, f')

variable {t : Trail σ}

/-- If a search succeeds, it has found something. -/
theorem exists_finds (hall : arguments.SearchesAll) (h : perform access arguments s = (0, s')) :
    ∃ t, Finds access arguments s t := by
  obtain ⟨grammar, s₁, s₂, lines, s₃, hgrammar, hopen, hlines, -⟩ :=
    run_eq_ok_iff.1 (perform_eq_zero_iff.1 h)
  obtain ⟨automaton, drafts, hcompile, hsearch, -⟩ :=
    (output_eq_ok_iff hall.showGrammar hall.dot).1 hlines
  obtain ⟨lists, finder, r, f', hlists, hbuild, hrun, -⟩ := search_eq_ok_iff.1 hsearch
  rw [hall.sample] at hrun
  exact ⟨⟨grammar, s₁, s₂, automaton, lists, s₃, finder, r⟩, hgrammar, hopen, hcompile, hlists,
    hbuild, f', hrun⟩

namespace Finds

theorem inMode (h : Finds access arguments s t) (unique count : Bool) :
    Finds access (arguments.inMode unique count) s t :=
  ⟨h.reads, h.opens, h.compiles, h.collects, h.builds, h.runs⟩

/-- What a search has found is what it prints. -/
theorem perform_eq_zero_iff (h : Finds access arguments s t) (hall : arguments.SearchesAll) :
    perform access arguments s = (0, s') ↔ deliver access arguments.out
      (textOf (reportOf arguments.unique arguments.count t.found.completed)) t.collected =
        (.ok (), s') := by
  have hsearch : (search access arguments t.automaton).run t.opened =
      (.ok t.found.completed, t.collected) := by
    obtain ⟨f', hrun⟩ := h.runs
    refine search_eq_ok_iff.2 ⟨t.lists, t.finder, t.found, f', h.collects, h.builds, ?_, rfl⟩
    rw [hall.sample]
    exact hrun
  have houtput := (output_eq_ok_iff hall.showGrammar hall.dot).2
    ⟨t.automaton, t.found.completed, h.compiles, hsearch, rfl⟩
  rw [CommandLine.perform_eq_zero_iff, run, bind_of_ok h.reads,
    bind_of_ok (openOutput_eq_ok_iff.2 h.opens), bind_of_ok houtput]
  exact delivered_iff

/-- The paths that have been read are those of the grammar and of the last files given for the
needed lists. -/
theorem recording (h : Finds access arguments s t) : Finds access.recording arguments (s, [])
    ⟨t.grammar, (t.begun, [arguments.grammar]), (t.opened, [arguments.grammar]), t.automaton,
      t.lists,
      (t.collected, arguments.grammar :: lastFiles arguments.lists t.automaton.neededLists),
      t.finder, t.found⟩ :=
  ⟨fileLines_recording h.reads [], opens_recording h.opens _, h.compiles,
    fileLists_recording h.collects _, h.builds, h.runs⟩

theorem built (h : Finds access arguments s t) :
    t.finder.Built t.automaton (NameMap.ofList t.lists) :=
  Finder.built_of_ofWordLists h.builds

theorem rootsOpen (h : Finds access arguments s t) : t.finder.automaton.RootsOpen :=
  (h.built.indexed (Grammar.nodup_edges_of_compileLines h.compiles)).rootsOpen

/-- Nothing cuts the search short, so it finds all complete drafts for the letters of the phrase. -/
theorem exists_completed (h : Finds access arguments s t) :
    ∃ letters, t.finder.lexicon.alphabet.spell (" ".intercalate arguments.words) = .ok letters ∧
      t.found.completed = t.finder.automaton.completeDrafts (t.finder.bagFor letters) := by
  have hsample : ∀ cores, (arguments.config cores).sample = none := by
    intro cores
    rw [Arguments.config]
    cases arguments.threads <;> rfl
  have hlimits : t.finder.limits .default = ⟨none, false⟩ := by
    rw [Finder.limits, Finder.config_of_ofWordLists h.builds, hsample]
    rfl
  obtain ⟨f', hrun⟩ := h.runs
  obtain ⟨letters, hspell, hfound⟩ := Finder.exists_spell_of_run hrun
  rw [hfound]
  exact ⟨letters, hspell, Finder.completed_run_of_limits h.rootsOpen hlimits letters⟩

/-! ### Files -/

theorem needsFile (h : Finds access arguments s t) {name path : String}
    (hname : name ∈ t.automaton.neededLists) (hlast : LastGiven arguments.lists name path) :
    NeedsFile access arguments s path :=
  ⟨t.grammar, t.begun, t.automaton, h.reads, h.compiles, name, hname, hlast⟩

/-- If the lists are in files, and the output is none of them, the system is as it was when the
output had been opened, and the lists have the words of the last files that were given for them when
the grammar had been read. -/
theorem fromLastFile (h : Finds access arguments s t)
    (hfiles : ∀ path, NeedsFile access arguments s path → fs.OnlyFile s path)
    (hapart : ∀ path ∈ arguments.out, ∀ path', NeedsFile access arguments s path' →
      fs.place? s path ≠ fs.place? s path') :
    t.collected = t.opened ∧ ∀ name ∈ t.automaton.neededLists, ∃ words,
      (NameMap.ofList t.lists).get? name = some words ∧
        FromLastFile access t.begun arguments.lists name words := by
  have hbegun : ∀ name ∈ t.automaton.neededLists, ∀ path, LastGiven arguments.lists name path →
      fs.OnlyFile t.begun path := by
    intro name hname path hlast place hplace
    rw [place_of_run_fileLines h.reads] at hplace
    exact hfiles path (h.needsFile hname hlast) place hplace
  have hopened : ∀ name ∈ t.automaton.neededLists, ∀ path, LastGiven arguments.lists name path →
      fs.OnlyFile t.opened path := by
    intro name hname path hlast place hplace
    rw [place_of_opens h.opens] at hplace
    exact hbegun name hname path hlast place hplace
  obtain ⟨hsame, heach⟩ := fromLastFile_of_fileLists hopened h.collects
  refine ⟨hsame, fun name hname => ?_⟩
  obtain ⟨words, hwords⟩ :=
    Option.isSome_iff_exists.1 (Finder.isSome_get?_of_ofWordLists h.builds name hname)
  refine ⟨words, hwords, (heach _ (NameMap.mem_of_get?_ofList hwords)).of_opens h.opens
    (hbegun name hname) fun path hpath path' hlast => ?_⟩
  rw [place_of_run_fileLines h.reads, place_of_run_fileLines h.reads]
  exact hapart path hpath path' (h.needsFile hname hlast)

/-! ### Lines -/

theorem single_of_mem_reportOf (h : Finds access arguments s t) (unique count : Bool) :
    ∀ line ∈ reportOf unique count t.found.completed, Single line := by
  intro line hline
  cases count with
  | true =>
    rw [reportOf_count, List.mem_singleton] at hline
    exact hline ▸ single_toString _
  | false =>
    obtain ⟨words, hwords, rfl⟩ := List.mem_map.1 (mem_linesOfDrafts_of_mem_reportOf hline)
    obtain ⟨letters, hspell, hcompleted⟩ := h.exists_completed
    rw [hcompleted] at hwords
    refine single_intercalate fun word hword => ?_
    obtain ⟨name, list, hlist, hin⟩ :=
      Finder.listed_of_mem_phrases h.built (Grammar.nodup_edges_of_compileLines h.compiles) hspell
        hwords word hword
    exact single_of_fileLists h.collects _ (NameMap.mem_of_get?_ofList hlist) word hin

/-- Workers that go on in another order find the same, so a report of what they find has the same
lines. -/
theorem reportOf_perm_of_exhausted (h : Finds access arguments s t) {starts : List Draft}
    (hstarts : t.finder.starts (" ".intercalate arguments.words) = .ok starts) {p : Pool}
    (hp : p.Exhausted t.finder.automaton starts) (unique count : Bool) :
    (reportOf unique count p.handled.reverse).Perm
      (reportOf unique count t.found.completed) := by
  obtain ⟨letters, hspell, hcompleted⟩ := h.exists_completed
  rw [Finder.starts_eq_ok hspell] at hstarts
  cases hstarts
  have hhandled := (List.reverse_perm _).trans (hp.handled_perm h.rootsOpen)
  rw [hcompleted]
  exact reportOf_perm (hhandled.flatMap_right Draft.phrases)

end Finds

/-! ## All modes of output -/

/-- All that a run prints which searches for a phrase and does not cut the search short, if the
lists that it needs are in files where its output does not go.  It prints the phrases that it finds,
each of them on a line with its words between single spaces.  The same run with `--unique` prints
the same lines, each of them once, and with `--count` only their number.  In whatever order workers
find the phrases, the lines are the same.  Its lists have the words of the last files that are given
for the names that the grammar needs, and no other lists are read. -/
theorem perform_search_spec (fs : access.FileSystem) (hall : arguments.SearchesAll)
    (hfiles : ∀ path, NeedsFile access arguments s path → fs.OnlyFile s path)
    (hapart : ∀ path ∈ arguments.out, ∀ path', NeedsFile access arguments s path' →
      fs.place? s path ≠ fs.place? s path')
    (h : perform access arguments s = (0, s')) :
    ∃ grammar s₁ automaton s₂ finder r finder' starts, ∃ lists : WordLists,
      ∃ linesFor : Bool → Bool → List String,
      (fileLines access arguments.grammar).run s = (.ok grammar, s₁) ∧
      Grammar.compileLines grammar = .ok automaton ∧
      (∀ name ∈ automaton.neededLists, ∃ words, lists.get? name = some words ∧
        FromLastFile access s₁ arguments.lists name words) ∧
      Opens access arguments.out s₁ s₂ ∧
      Finder.ofWordLists automaton lists .lettersOnly (arguments.config access.cores) =
        .ok finder ∧
      finder.run (" ".intercalate arguments.words) .default = .ok (r, finder') ∧
      finder.starts (" ".intercalate arguments.words) = .ok starts ∧
      ModesAgree (r.completed.flatMap Draft.phrases) linesFor ∧
      (∀ unique count, linesOf (textOf (linesFor unique count)) = linesFor unique count) ∧
      (∀ p : Pool, p.Exhausted finder.automaton starts → ∀ unique count,
        (reportOf unique count p.handled.reverse).Perm (linesFor unique count)) ∧
      ∀ unique count,
        (∀ s'', perform access (arguments.inMode unique count) s = (0, s'') ↔
          deliver access arguments.out (textOf (linesFor unique count)) s₂ = (.ok (), s'')) ∧
        ∀ s'', perform access (arguments.inMode unique count) s = (0, s'') →
          (∀ path ∈ arguments.out, fs.LeadsToFile s path →
            (fileLines access path).run s'' = (.ok (linesFor unique count), s'')) ∧
          ∃ files, List.Forall₂ (LastGiven arguments.lists) automaton.neededLists files ∧
            perform access.recording (arguments.inMode unique count) (s, []) =
              (0, s'', arguments.grammar :: files) := by
  obtain ⟨t, ht⟩ := exists_finds hall h
  obtain ⟨finder', hrun⟩ := ht.runs
  obtain ⟨letters, hspell, -⟩ := ht.exists_completed
  obtain ⟨hsame, hneeded⟩ := ht.fromLastFile hfiles hapart
  refine ⟨t.grammar, t.begun, t.automaton, t.opened, t.finder, t.found, finder', _,
    NameMap.ofList t.lists, fun unique count => reportOf unique count t.found.completed, ht.reads,
    ht.compiles, hneeded, ht.opens, ht.builds, hrun, Finder.starts_eq_ok hspell,
    modesAgree_reportOf _,
    fun unique count => linesOf_textOf (ht.single_of_mem_reportOf unique count),
    fun p hp => ht.reportOf_perm_of_exhausted (Finder.starts_eq_ok hspell) hp, ?_⟩
  intro unique count
  have hmode := ht.inMode unique count
  have hall' := hall.inMode unique count
  have hiff : ∀ s'', perform access (arguments.inMode unique count) s = (0, s'') ↔
      deliver access arguments.out (textOf (reportOf unique count t.found.completed)) t.opened =
        (.ok (), s'') := by
    intro s''
    rw [← hsame]
    exact hmode.perform_eq_zero_iff hall'
  refine ⟨hiff, fun s'' hperform => ⟨fun path hout hfile => ?_, ?_⟩⟩
  · have hopen := ht.opens
    have hdeliver := (hiff s'').1 hperform
    rw [hout] at hopen hdeliver
    exact fileLines_of_deliver hfile ht.reads hopen (ht.single_of_mem_reportOf unique count)
      hdeliver
  · refine ⟨lastFiles arguments.lists t.automaton.neededLists,
      forall₂_lastFiles fun name hname => ?_, ?_⟩
    · obtain ⟨words, -, path, lines, hlast, -⟩ := hneeded name hname
      exact ⟨path, hlast⟩
    · exact (hmode.recording.perform_eq_zero_iff hall').2
        (deliver_recording ((hmode.perform_eq_zero_iff hall').1 hperform) _)

/-- A host with a folder, and in it a grammar and a list of words, one of them with a space
inside. -/
def spacedHost : Host where
  tree := .folder [("data", .folder [])]
  folder := []
  files := .ofList [("/data/rules", "phrase -> <word>+\n".toUTF8),
    ("/data/words", " a b \r\n\n\ta\nb\n".toUTF8)]
  output := ""
  errors := ""

/-- Two files are given that are not there: one for the list before the file that counts, and one
for a list that the grammar does not need. -/
def spacedArguments : Arguments where
  grammar := "data/rules"
  lists := [("word", "missing"), ("word", "data/words"), ("name", "missing")]
  sample := none
  random := false
  unique := false
  count := false
  threads := none
  dot := false
  showGrammar := false
  out := some "data/found"
  words := ["ab"]

/-- That host when the output has been opened. -/
def openedHost : Host := spacedHost.put ["data"] "found" ""

/-- What comes up there. -/
def spacedTrail : Trail Host where
  grammar := ["phrase -> <word>+"]
  begun := spacedHost
  opened := openedHost
  automaton := Finder.wordsAutomaton
  lists := [("word", ["a b", "a", "b"])]
  collected := openedHost
  finder := Finder.wordsFinder
  found := Finder.wordsFinder.automaton.run
    (Finder.wordsFinder.automaton.starts (Finder.wordsFinder.bagFor [0, 1])) ⟨none, false⟩

theorem finds_spacedTrail : Finds Host.access spacedArguments spacedHost spacedTrail where
  reads := by
    have hlines : ((fileLines Host.access "data/rules").run spacedHost).1 =
        .ok ["phrase -> <word>+"] := by
      decide +kernel
    exact Prod.ext hlines rfl
  opens := rfl
  compiles := Finder.compileLines_eq_wordsAutomaton
  collects := by
    have hlists : ((fileLists Host.access spacedArguments.lists ["word"]).run openedHost).1 =
        .ok [("word", ["a b", "a", "b"])] := by
      decide +kernel
    exact Prod.ext hlists rfl
  builds := Finder.ofWordLists_eq_wordsFinder
  runs := Finder.run_eq_ok (by rfl) .default

theorem eq_wordsAutomaton {grammar : List String} {host : Host} {automaton : Automaton}
    (hread : (fileLines Host.access spacedArguments.grammar).run spacedHost = (.ok grammar, host))
    (hcompile : Grammar.compileLines grammar = .ok automaton) :
    automaton = Finder.wordsAutomaton := by
  rw [finds_spacedTrail.reads] at hread
  cases hread
  rw [finds_spacedTrail.compiles] at hcompile
  cases hcompile
  rfl

/-- The last file given for the list that the grammar needs. -/
theorem eq_of_lastGiven {name path : String} (hname : name ∈ Finder.wordsAutomaton.neededLists)
    (h : LastGiven spacedArguments.lists name path) : path = "data/words" := by
  obtain rfl : name = "word" := List.mem_singleton.1 hname
  have hlookup := lookup_reverse_eq_some_iff.2 h
  cases hlookup
  rfl

theorem eq_of_needsFile {path : String}
    (h : NeedsFile Host.access spacedArguments spacedHost path) : path = "data/words" := by
  obtain ⟨grammar, host, automaton, hread, hcompile, name, hname, hlast⟩ := h
  obtain rfl := eq_wordsAutomaton hread hcompile
  exact eq_of_lastGiven hname hlast

theorem deliver_openedHost (text : String) :
    deliver Host.access (some "data/found") text openedHost =
      (.ok (), openedHost.put ["data"] "found" text) := by
  have hlocate : openedHost.locate "data/found" = .ok (.file ["data"] "found" false) := by
    decide +kernel
  refine Host.access_write_iff.2 ?_
  rw [Host.write, hlocate]
  rfl

/-- The phrase with a space inside is printed like one of two words, so that there are three lines,
but two if each is to be printed once.  Only the two files that are there have been read. -/
theorem perform_search_spec_of_spaced_word :
    ∃ plain once counted lines,
      perform Host.access spacedArguments spacedHost = (0, plain) ∧
      (fileLines Host.access "data/found").run plain = (.ok ["b a", "a b", "a b"], plain) ∧
      perform Host.access.recording spacedArguments (spacedHost, []) =
        (0, plain, ["data/rules", "data/words"]) ∧
      perform Host.access (spacedArguments.inMode true false) spacedHost = (0, once) ∧
      (fileLines Host.access "data/found").run once = (.ok lines, once) ∧
      lines.Perm ["b a", "a b"] ∧
      perform Host.access (spacedArguments.inMode true true) spacedHost = (0, counted) ∧
      (fileLines Host.access "data/found").run counted = (.ok ["2"], counted) := by
  have hall : spacedArguments.SearchesAll := ⟨rfl, rfl, rfl⟩
  have hfound : spacedHost.place? "data/found" = some (.inl "/data/found") := by decide +kernel
  have hwords : spacedHost.place? "data/words" = some (.inl "/data/words") := by decide +kernel
  have hleads : Host.fileSystem.LeadsToFile spacedHost "data/found" := ⟨_, hfound, rfl⟩
  have hfiles : ∀ path, NeedsFile Host.access spacedArguments spacedHost path →
      Host.fileSystem.OnlyFile spacedHost path := by
    intro path hpath place hplace
    obtain rfl := eq_of_needsFile hpath
    cases hwords.symm.trans hplace
    rfl
  have hapart : ∀ path ∈ spacedArguments.out, ∀ path',
      NeedsFile Host.access spacedArguments spacedHost path' →
      Host.fileSystem.place? spacedHost path ≠ Host.fileSystem.place? spacedHost path' := by
    rintro _ ⟨⟩ path' hpath' hsame
    obtain rfl := eq_of_needsFile hpath'
    exact absurd ((hfound.symm.trans hsame).trans hwords) (by decide)
  have hperform : ∀ unique count, perform Host.access (spacedArguments.inMode unique count)
      spacedHost = (0, openedHost.put ["data"] "found"
        (textOf (reportOf unique count spacedTrail.found.completed))) := fun unique count =>
    ((finds_spacedTrail.inMode unique count).perform_eq_zero_iff (hall.inMode unique count)).2
      (deliver_openedHost _)
  obtain ⟨grammar, host, automaton, _, _, r, _, _, _, linesFor, hread, hcompile, -, -, -, -, -,
    hagree, -, -, hmodes⟩ :=
      perform_search_spec Host.fileSystem hall hfiles hapart (hperform false false)
  have hback : ∀ unique count, (fileLines Host.access "data/found").run
      (openedHost.put ["data"] "found"
        (textOf (reportOf unique count spacedTrail.found.completed))) =
          (.ok (linesFor unique count), _) := fun unique count =>
    ((hmodes unique count).2 _ (hperform unique count)).1 _ rfl hleads
  obtain ⟨-, files, hlast, hrecorded⟩ := (hmodes false false).2 _ (hperform false false)
  obtain rfl : files = ["data/words"] := by
    obtain rfl := eq_wordsAutomaton hread hcompile
    cases hlast with
    | cons hword hrest =>
      cases hrest
      rw [eq_of_lastGiven (List.mem_singleton_self _) hword]
  have hplain : linesFor false false = ["b a", "a b", "a b"] := by
    have hlines : ((fileLines Host.access "data/found").run (openedHost.put ["data"] "found"
        (textOf (reportOf false false spacedTrail.found.completed)))).1 =
          .ok ["b a", "a b", "a b"] := by
      decide +kernel
    rw [hback false false] at hlines
    exact Except.ok.inj hlines
  have honce : (linesFor true false).Perm ["b a", "a b"] := by
    refine (List.perm_ext_iff_of_nodup hagree.once (by decide)).2 fun line => ?_
    rw [hagree.same, hplain]
    simp
  have hcounted : linesFor true true = ["2"] := by
    rw [hagree.counted, honce.length_eq]
    rfl
  refine ⟨_, _, _, linesFor true false, hperform false false, ?_, hrecorded, hperform true false,
    hback true false, honce, hperform true true, ?_⟩
  · rw [← hplain]
    exact hback false false
  · rw [← hcounted]
    exact hback true true

end PhraseSearch.CommandLine
