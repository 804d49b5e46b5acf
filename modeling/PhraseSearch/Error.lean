import PhraseSearch.Automaton.Basic
import PhraseSearch.Grammar.Lines

/-!
# Errors

All that can go wrong between a grammar and its phrases.
-/

namespace PhraseSearch

/-- Why a file cannot be used. -/
inductive FileFault where
  /-- the system refuses, with a number and a text -/
  | system (code : Nat) (text : String)
  | notUtf8
deriving DecidableEq

namespace FileFault

def notFound : FileFault := .system 2 "No such file or directory"

def noSuchDevice : FileFault := .system 6 "No such device or address"

def outOfMemory : FileFault := .system 12 "Cannot allocate memory"

def permissionDenied : FileFault := .system 13 "Permission denied"

def notADirectory : FileFault := .system 20 "Not a directory"

def isADirectory : FileFault := .system 21 "Is a directory"

def programRuns : FileFault := .system 26 "Text file busy"

def noSpaceLeft : FileFault := .system 28 "No space left on device"

def nameTooLong : FileFault := .system 36 "File name too long"

def tooManyLinks : FileFault := .system 40 "Too many levels of symbolic links"

def message : FileFault → String
  | .system code text => s!"{text} (os error {code})"
  | .notUtf8 => "stream did not contain valid UTF-8"

end FileFault

/-- What keeps a search from being run, or its results from being written. -/
inductive Error where
  | grammar (fault : Grammar.Fault)
  | missingList (fault : Automaton.MissingList)
  | unknownLetter (fault : UnknownLetter)
  /-- a file cannot be read, or not be opened -/
  | file (path : String) (fault : FileFault)
  /-- the output file was opened, but does not take the output -/
  | writing (fault : FileFault)
deriving DecidableEq

def Error.message : Error → String
  | .grammar fault => fault.message
  | .missingList fault => fault.message
  | .unknownLetter fault => fault.message
  | .file path fault => s!"{path}: {fault.message}"
  | .writing fault => fault.message

end PhraseSearch
