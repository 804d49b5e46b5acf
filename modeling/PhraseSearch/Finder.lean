import PhraseSearch.Error
import PhraseSearch.Grammar.Compile
import PhraseSearch.Letter.Cells
import PhraseSearch.Lexicon
import PhraseSearch.Search.Run

/-!
# Finding phrases

A `Finder` holds an automaton whose states are bound to the tries of a lexicon.  A run counts the
letters of a phrase, begins one draft for every edge from the start, and hands over every draft
that is complete.  A finder is used for any number of runs; it remembers how many drafts the last
one handed over.

`findPhrases` does it all at once: it compiles a grammar, builds the lexicon of the lists that the
grammar needs, and collects the phrases.
-/

namespace PhraseSearch

/-! ## Configuration -/

/-- The defaults of a finder's runs.  What is found does not depend on `threads`, `random` and
`pollMillis`, which tell when and in which order drafts are expanded; `Finder.run` keeps to one
order and asks for none of them. -/
structure FinderConfig where
  /-- the number of workers, at least one -/
  threads : Nat
  /-- stop after so many results -/
  sample : Option Nat
  /-- expand in random order -/
  random : Bool
  /-- how often a run looks whether it has been cancelled, in milliseconds -/
  pollMillis : Nat
deriving DecidableEq

namespace FinderConfig

/-- The defaults on a machine that runs so many threads at once: a worker for each of them, all
results, in order. -/
def forMachine (cores : Nat) : FinderConfig := ⟨max cores 1, none, false, 100⟩

/-- The defaults where nothing is known of the machine. -/
def default : FinderConfig := forMachine 1

/-- The configuration with another number of workers; there is always one. -/
def withThreads (c : FinderConfig) (threads : Nat) : FinderConfig :=
  { c with threads := max threads 1 }

end FinderConfig

/-- What a run does otherwise than the configuration says. -/
structure RunOptions where
  /-- stop after so many results -/
  sample : Option Nat
  /-- give up at the first result -/
  cancelOnResult : Bool
deriving DecidableEq

/-- Nothing otherwise. -/
def RunOptions.default : RunOptions := ⟨none, false⟩

/-! ## Building -/

/-- A bound automaton, the lexicon it is bound to, and the number of results of the last run. -/
structure Finder where
  automaton : Automaton
  lexicon : Lexicon
  config : FinderConfig
  found : Nat

/-- The lists of the given names; the first name without a list is reported. -/
def WordLists.select (lists : WordLists) :
    List String → Except Automaton.MissingList (List (String × List String))
  | [] => .ok []
  | name :: names =>
    match lists.get? name with
    | none => .error ⟨name⟩
    | some words => (select lists names).map ((name, words) :: ·)

namespace Finder

/-- The finder over a lexicon. -/
def ofLexicon (a : Automaton) (lexicon : Lexicon) (config : FinderConfig) :
    Except Automaton.MissingList Finder := do
  return ⟨← a.bind lexicon.tries, lexicon, config, 0⟩

/-- The finder over those of the lists that the automaton needs. -/
def ofWordLists (a : Automaton) (lists : WordLists) (normalize : Normalizer)
    (config : FinderConfig) : Except Error Finder := do
  let needed ← (lists.select a.neededLists).mapError .missingList
  let lexicon ← (Lexicon.ofLists normalize needed).mapError .unknownLetter
  (ofLexicon a lexicon config).mapError .missingList

/-! ## Running -/

/-- What cuts a run short. -/
def limits (f : Finder) (options : RunOptions) : RunLimits :=
  ⟨options.sample.or f.config.sample, options.cancelOnResult⟩

/-- The drafts at which the search for a phrase begins.  Its letters are counted in cells. -/
def starts (f : Finder) (phrase : String) : Except UnknownLetter (List Draft) := do
  return f.automaton.starts (← f.lexicon.alphabet.bagOf phrase).inCells

/-- Searches for a phrase. -/
def run (f : Finder) (phrase : String) (options : RunOptions) :
    Except UnknownLetter (Run × Finder) := do
  let run := f.automaton.run (← f.starts phrase) (f.limits options)
  return (run, { f with found := run.found })

/-- The phrases that a run finds, as lists of words. -/
def phrases (f : Finder) (phrase : String) (options : RunOptions) :
    Except UnknownLetter (List (List String) × Finder) := do
  let (run, f) ← f.run phrase options
  return (run.completed.flatMap Draft.phrases, f)

/-- The number of drafts that a run hands over. -/
def count (f : Finder) (phrase : String) (options : RunOptions) :
    Except UnknownLetter (Nat × Finder) := do
  let (run, f) ← f.run phrase options
  return (run.found, f)

end Finder

/-! ## All at once -/

/-- All phrases of a grammar over word lists that use exactly the letters of a phrase. -/
def findPhrases (grammar : List String) (lists : WordLists) (phrase : String) :
    Except Error (List (List String)) := do
  let a ← (Grammar.compileLines grammar).mapError .grammar
  let f ← Finder.ofWordLists a lists Normalizer.lettersOnly .default
  let (phrases, _) ← (f.phrases phrase .default).mapError .unknownLetter
  return phrases

end PhraseSearch
