import PhraseSearch.CommandLine.Program

/-!
# Steps of the program

A step that may fail changes some state: that of a system, or also the paths that have been read on
it.

    a compound step succeeds if both its parts do                      (bind_eq_ok_iff)
    a run is done step by step                                         (run_eq_ok_iff)
    so is a search                                                     (search_eq_ok_iff)
-/

namespace PhraseSearch.CommandLine

variable {arguments : Arguments} {path text : String}

/-! ## Compound steps -/

theorem mapError_eq_ok_iff {ε ε' α : Type} {f : ε → ε'} {e : Except ε α} {a : α} :
    e.mapError f = .ok a ↔ e = .ok a := by
  cases e with
  | error fault => exact iff_of_false nofun nofun
  | ok b => constructor <;> (intro h; cases h; rfl)

section

variable {σ α β : Type} {s s' : σ}

theorem bind_apply (x : StateM σ α) (f : α → StateM σ β) : (x >>= f) s = f (x s).1 (x s).2 := rfl

variable {x : ExceptT Error (StateM σ) α} {f : α → ExceptT Error (StateM σ) β}

theorem run_bind : (x >>= f).run s = ExceptT.bindCont f (x.run s).1 (x.run s).2 := rfl

theorem bind_of_ok {a : α} (h : x.run s = (.ok a, s')) : (x >>= f).run s = (f a).run s' := by
  rw [run_bind, h]
  rfl

/-- A compound step succeeds if both its parts do. -/
theorem bind_eq_ok_iff {b : β} : (x >>= f).run s = (.ok b, s') ↔
    ∃ a between, x.run s = (.ok a, between) ∧ (f a).run between = (.ok b, s') := by
  constructor
  · intro h
    rw [run_bind] at h
    rcases hx : x.run s with ⟨e | a, between⟩
    · rw [hx] at h
      cases h
    · rw [hx] at h
      exact ⟨a, between, rfl, h⟩
  · rintro ⟨a, between, hx, hf⟩
    rw [bind_of_ok hx, hf]

theorem ofExcept_eq_ok_iff {e : Except Error α} {a : α} :
    (MonadExcept.ofExcept e : ExceptT Error (StateM σ) α).run s = (.ok a, s') ↔
      e = .ok a ∧ s' = s := by
  cases e with
  | error fault => exact iff_of_false nofun nofun
  | ok b =>
    constructor
    · intro h
      cases h
      exact ⟨rfl, rfl⟩
    · rintro ⟨h, rfl⟩
      cases h
      rfl

theorem run_onFile (step : StateM σ (Except FileFault α)) :
    (onFile path step).run s = ((step s).1.mapError (Error.file path), (step s).2) := by
  rw [onFile, ExceptT.run_mk, bind_apply]
  rcases step s with ⟨fault | a, after⟩
  · rfl
  · rfl

theorem onFile_eq_ok_iff {step : StateM σ (Except FileFault α)} {a : α} :
    (onFile path step).run s = (.ok a, s') ↔ step s = (.ok a, s') := by
  rw [run_onFile]
  rcases step s with ⟨fault | b, after⟩
  · exact iff_of_false nofun nofun
  · constructor <;> (intro h; cases h; rfl)

end

/-! ## A run -/

section

variable {σ : Type} {access : Access (StateM σ)} {s s' : σ}

/-- Whether what the output goes to has been opened. -/
def Opens (access : Access (StateM σ)) (out : Option String) (s s' : σ) : Prop :=
  match out with
  | none => s' = s
  | some path => access.create path s = (.ok (), s')

theorem openOutput_eq_ok_iff {out : Option String} :
    (openOutput access out).run s = (.ok (), s') ↔ Opens access out s s' := by
  cases out with
  | none => exact ⟨fun h => (Prod.mk.inj h).2.symm, fun h => Prod.ext rfl (Eq.symm h)⟩
  | some path => exact onFile_eq_ok_iff

/-- A text has been delivered if that is what the step says. -/
theorem delivered_iff {step : StateM σ (Except FileFault Unit)} : (do
    match ← step with
    | .ok () => return ()
    | .error fault => throw (.writing fault) : ExceptT Error (StateM σ) Unit).run s = (.ok (), s') ↔
      step s = (.ok (), s') := by
  have hlift : (liftM step : ExceptT Error (StateM σ) (Except FileFault Unit)).run s =
      (.ok (step s).1, (step s).2) := rfl
  rw [bind_of_ok hlift]
  rcases step s with ⟨fault | ⟨⟩, after⟩
  · exact iff_of_false nofun nofun
  · constructor <;> (intro h; cases h; rfl)

/-- A run succeeds if the grammar can be read, the output opened, the lines found and the output
delivered, one after the other. -/
theorem run_eq_ok_iff : (run access arguments).run s = (.ok (), s') ↔
    ∃ grammar s₁ s₂ lines s₃, (fileLines access arguments.grammar).run s = (.ok grammar, s₁) ∧
      Opens access arguments.out s₁ s₂ ∧
      (output access arguments grammar).run s₂ = (.ok lines, s₃) ∧
      deliver access arguments.out (textOf lines) s₃ = (.ok (), s') := by
  constructor
  · intro h
    obtain ⟨grammar, s₁, hgrammar, h⟩ := bind_eq_ok_iff.1 h
    obtain ⟨_, s₂, hopen, h⟩ := bind_eq_ok_iff.1 h
    obtain ⟨lines, s₃, hlines, hdeliver⟩ := bind_eq_ok_iff.1 h
    exact ⟨grammar, s₁, s₂, lines, s₃, hgrammar, openOutput_eq_ok_iff.1 hopen, hlines,
      delivered_iff.1 hdeliver⟩
  · rintro ⟨grammar, s₁, s₂, lines, s₃, hgrammar, hopen, hlines, hdeliver⟩
    rw [run, bind_of_ok hgrammar, bind_of_ok (openOutput_eq_ok_iff.2 hopen), bind_of_ok hlines]
    exact delivered_iff.2 hdeliver

/-- The exit code tells whether the run has succeeded. -/
theorem perform_eq_zero_iff :
    perform access arguments s = (0, s') ↔ (run access arguments).run s = (.ok (), s') := by
  rw [perform]
  simp only [bind_apply]
  rcases (run access arguments).run s with ⟨e | ⟨⟩, after⟩
  · exact iff_of_false nofun nofun
  · constructor <;> (intro h; cases h; rfl)

/-! ## A search -/

/-- A search succeeds if the lists can be read, the finder built and the words looked for. -/
theorem search_eq_ok_iff {automaton : Automaton} {drafts : List Draft} :
    (search access arguments automaton).run s = (.ok drafts, s') ↔
      ∃ lists finder run f',
        (fileLists access arguments.lists automaton.neededLists).run s = (.ok lists, s') ∧
        Finder.ofWordLists automaton (NameMap.ofList lists) Normalizer.lettersOnly
          (arguments.config access.cores) = .ok finder ∧
        finder.run (" ".intercalate arguments.words) ⟨arguments.sample, false⟩ = .ok (run, f') ∧
        drafts = run.completed := by
  constructor
  · intro h
    obtain ⟨lists, s₁, hlists, hbuild⟩ := bind_eq_ok_iff.1 h
    obtain ⟨finder, s₂, hfinder, hlook⟩ := bind_eq_ok_iff.1 hbuild
    obtain ⟨⟨run, f'⟩, s₃, hrun, hdone⟩ := bind_eq_ok_iff.1 hlook
    obtain ⟨hfinder', rfl⟩ := ofExcept_eq_ok_iff.1 hfinder
    obtain ⟨hrun', rfl⟩ := ofExcept_eq_ok_iff.1 hrun
    cases hdone
    exact ⟨lists, finder, run, f', hlists, hfinder', mapError_eq_ok_iff.1 hrun', rfl⟩
  · rintro ⟨lists, finder, run, f', hlists, hfinder, hrun, rfl⟩
    rw [search, bind_of_ok hlists]
    refine bind_eq_ok_iff.2 ⟨finder, s', ofExcept_eq_ok_iff.2 ⟨hfinder, rfl⟩, ?_⟩
    refine bind_eq_ok_iff.2 ⟨(run, f'), s', ofExcept_eq_ok_iff.2 ⟨?_, rfl⟩, rfl⟩
    exact mapError_eq_ok_iff.2 hrun

theorem output_eq_ok_iff {grammar lines : List String} (hshow : arguments.showGrammar = false)
    (hdot : arguments.dot = false) :
    (output access arguments grammar).run s = (.ok lines, s') ↔
      ∃ automaton drafts, Grammar.compileLines grammar = .ok automaton ∧
        (search access arguments automaton).run s = (.ok drafts, s') ∧
        lines = reportOf arguments.unique arguments.count drafts := by
  simp only [output, hshow, hdot, Bool.false_eq_true, if_false]
  constructor
  · intro h
    obtain ⟨automaton, s₁, hcompile, hfind⟩ := bind_eq_ok_iff.1 h
    obtain ⟨drafts, s₂, hsearch, hdone⟩ := bind_eq_ok_iff.1 hfind
    obtain ⟨hcompile', rfl⟩ := ofExcept_eq_ok_iff.1 hcompile
    cases hdone
    exact ⟨automaton, drafts, mapError_eq_ok_iff.1 hcompile', hsearch, rfl⟩
  · rintro ⟨automaton, drafts, hcompile, hsearch, rfl⟩
    refine bind_eq_ok_iff.2 ⟨automaton, s, ofExcept_eq_ok_iff.2 ⟨?_, rfl⟩, ?_⟩
    · exact mapError_eq_ok_iff.2 hcompile
    · exact bind_eq_ok_iff.2 ⟨drafts, s', hsearch, rfl⟩

end

end PhraseSearch.CommandLine
