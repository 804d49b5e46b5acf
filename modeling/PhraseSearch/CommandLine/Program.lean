import PhraseSearch.Automaton.Drawing
import PhraseSearch.CommandLine.Access
import PhraseSearch.CommandLine.Arguments
import PhraseSearch.CommandLine.Report
import PhraseSearch.Finder

/-!
# The program

`perform` does what the arguments ask for.  The grammar is read first; then the output file is
opened, so that it exists even if a later step fails.  Lists are read only if the grammar needs
them, the last file given for a name counts.  The output is written in the end.

The results of a search are printed as a `Report`, with `--unique` each line once, with `--count`
only the number of lines.
-/

namespace PhraseSearch.CommandLine

/-! ## Texts -/

/-- The lines of a text without their ends, `\n` or `\r\n`; what follows the last end is a line
unless it is empty. -/
def linesOf (text : String) : List String :=
  match (Text.splitWhere (· == '\n') text.toList).reverse with
  | [] => []
  | last :: ended =>
    let ended := ended.map fun cs => if cs.getLast? = some '\r' then cs.dropLast else cs
    ((if last.isEmpty then ended else last :: ended).reverse).map String.ofList

/-- Lines as a text; every line is ended. -/
def textOf (lines : List String) : String :=
  String.join (lines.map (· ++ "\n"))

/-- The words of a list file: its lines, trimmed, without the blank ones. -/
def wordsOf (lines : List String) : List String :=
  (lines.map fun line => String.ofList (Text.trim line.toList)).filter (!·.isEmpty)

/-- The configuration that the arguments ask for, on a machine that runs so many threads at once. -/
def Arguments.config (args : Arguments) (cores : Nat) : FinderConfig :=
  let config := FinderConfig.forMachine cores
  { (match args.threads with
      | some threads => config.withThreads threads
      | none => config) with random := args.random }

/-! ## Running -/

section

variable {m : Type → Type} [Monad m]

/-- A step on a file, with the path in the error. -/
def onFile {α : Type} (path : String) (step : m (Except FileFault α)) : ExceptT Error m α :=
  ExceptT.mk do
    match ← step with
    | .ok a => return .ok a
    | .error fault => return .error (.file path fault)

/-- The lines of a file. -/
def fileLines (access : Access m) (path : String) : ExceptT Error m (List String) := do
  let content ← onFile path (access.read path)
  match String.fromUTF8? content with
  | some text => return linesOf text
  | none => throw (.file path .notUtf8)

/-- Reads the files of the lists that are needed and given. -/
def fileLists (access : Access m) (given : List (String × String)) :
    List String → ExceptT Error m (List (String × List String))
  | [] => return []
  | name :: names => do
    match given.reverse.lookup name with
    | none => fileLists access given names
    | some path =>
      let lines ← fileLines access path
      return (name, wordsOf lines) :: (← fileLists access given names)

/-- The results of the search for the words. -/
def search (access : Access m) (args : Arguments) (automaton : Automaton) :
    ExceptT Error m (List Draft) := do
  let lists ← fileLists access args.lists automaton.neededLists
  let finder ← MonadExcept.ofExcept
    (Finder.ofWordLists automaton (NameMap.ofList lists) Normalizer.lettersOnly
      (args.config access.cores))
  let (run, _) ← MonadExcept.ofExcept
    ((finder.run (" ".intercalate args.words) ⟨args.sample, false⟩).mapError .unknownLetter)
  return run.completed

/-- The lines to print. -/
def output (access : Access m) (args : Arguments) (grammar : List String) :
    ExceptT Error m (List String) := do
  if args.showGrammar then
    return Rule.shownLines grammar
  let automaton ← MonadExcept.ofExcept ((Grammar.compileLines grammar).mapError .grammar)
  if args.dot then
    return automaton.drawingLines "grammar"
  let drafts ← search access args automaton
  return reportOf args.unique args.count drafts

/-- Opens what the output goes to. -/
def openOutput (access : Access m) : Option String → ExceptT Error m Unit
  | none => return ()
  | some path => onFile path (access.create path)

/-- Puts a text where the output goes. -/
def deliver (access : Access m) (out : Option String) (text : String) :
    m (Except FileFault Unit) :=
  match out with
  | none => access.print .output text
  | some path => access.write path text

/-- Does what the arguments ask for. -/
def run (access : Access m) (args : Arguments) : ExceptT Error m Unit := do
  let grammar ← fileLines access args.grammar
  openOutput access args.out
  let lines ← output access args grammar
  match ← (deliver access args.out (textOf lines) : m (Except FileFault Unit)) with
  | .ok () => return ()
  | .error fault => throw (.writing fault)

/-- Does what the arguments ask for, and prints what goes wrong; the answer is the exit code. -/
def perform (access : Access m) (args : Arguments) : m Nat := do
  match ← (run access args).run with
  | .ok () => return 0
  | .error e =>
    let _ ← access.print .error ("Error: " ++ e.message ++ "\n")
    return 1

end

end PhraseSearch.CommandLine
