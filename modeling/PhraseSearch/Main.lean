import PhraseSearch.CommandLine.Run

/-!
# The executable

Connects the program to the file system and the terminal.
-/

namespace PhraseSearch.CommandLine

/-- What the system says about a file. -/
def faultOf : IO.Error → FileFault
  | .noFileOrDirectory _ _ _ => .notFound
  | .inappropriateType _ 21 _ => .isADirectory
  | .inappropriateType _ _ _ => .notADirectory
  | .invalidArgument _ 36 _ => .nameTooLong
  | .resourceExhausted _ 28 _ => .noSpaceLeft
  | .permissionDenied _ _ _ => .permissionDenied
  | e => .system 5 (toString e)

/-- Runs an action on the system, with its error as a value. -/
def attempt {α : Type} (action : IO α) : IO (Except FileFault α) := do
  match ← action.toBaseIO with
  | .ok a => return .ok a
  | .error e => return .error (faultOf e)

/-- The system that the program runs on; how many threads it runs at once is not known. -/
def systemAccess : Access IO where
  cores := 1
  read path := attempt (IO.FS.readBinFile path)
  create path := attempt (IO.FS.writeFile path "")
  write path text := attempt do
    let file ← IO.FS.Handle.mk path .write
    file.putStr text
    file.flush
  print
    | .output, text => attempt do (← IO.getStdout).putStr text
    | .error, text => attempt do (← IO.getStderr).putStr text

end PhraseSearch.CommandLine

def main (args : List String) : IO UInt32 := do
  let code ← PhraseSearch.CommandLine.execute PhraseSearch.CommandLine.systemAccess args
  return code.toUInt32
