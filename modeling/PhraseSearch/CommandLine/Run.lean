import PhraseSearch.CommandLine.ArgumentReader
import PhraseSearch.CommandLine.Host
import PhraseSearch.CommandLine.Program

/-!
# Running from the command line

`execute` reads the arguments of the command line and performs what they ask for.
-/

namespace PhraseSearch.CommandLine

variable {m : Type → Type} [Monad m]

/-- What is printed when the arguments are refused. -/
def usage : String :=
  "usage: phrase-search --grammar FILE [--list NAME=FILE]... [option]... WORD...\n"

/-- Runs the program on the arguments of the command line; the answer is its exit code. -/
def execute (access : Access m) (args : List String) : m Nat := do
  match Arguments.read? args with
  | none =>
    let _ ← access.print .error usage
    return 2
  | some args => perform access args

end PhraseSearch.CommandLine
