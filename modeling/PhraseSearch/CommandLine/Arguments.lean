/-!
# Arguments of the program

What the program is asked to do, once the command line has been read.
-/

namespace PhraseSearch.CommandLine

/-- What the program is asked to do. -/
structure Arguments where
  /-- the file of the grammar -/
  grammar : String
  /-- names of lists with their files; the last file that is given for a name counts -/
  lists : List (String × String)
  /-- stop after so many results -/
  sample : Option Nat
  /-- expand in random order -/
  random : Bool
  /-- print each line once -/
  unique : Bool
  /-- print only the number of lines -/
  count : Bool
  /-- the number of workers; as many as the machine runs at once if it is not given -/
  threads : Option Nat
  /-- print the automaton and search for nothing -/
  dot : Bool
  /-- print the canonical form of the grammar and do nothing else -/
  showGrammar : Bool
  /-- the file that the output goes to, unless it is printed -/
  out : Option String
  /-- the phrase, word by word -/
  words : List String

end PhraseSearch.CommandLine
