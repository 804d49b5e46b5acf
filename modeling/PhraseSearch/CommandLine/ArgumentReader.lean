import PhraseSearch.CommandLine.Arguments
import PhraseSearch.Rule.Reader

/-!
# Reading the command line

    phrase-search --grammar FILE [--list NAME=FILE]... [option]... WORD...

    -g, --grammar FILE     the grammar, one rule per line
    -l, --list NAME=FILE   the words of a list, one per line
        --sample N         stop after N results
        --random           expand in random order
        --unique           print each distinct phrase once
        --count            print only the number of phrases
    -j, --threads N        number of workers
        --dot              print the automaton for Graphviz
        --show-grammar     print the canonical form of the grammar
    -o, --out FILE         write to a file

A value follows its option as the next argument, or in the same one: `--out=FILE`, `-oFILE` or
`-o=FILE`.  A value that is an argument of its own does not start with a dash, unless it is nothing
else.  After `--` every argument is a word.  Only `--list` may be given more than once.  Words may
be missing only where no phrase is searched for.

Properties of the program are stated for `Arguments`, however they have been read.
-/

namespace PhraseSearch.CommandLine

/-! ## Options -/

/-- The options with a value. -/
inductive Setting where
  | grammar | list | sample | threads | out
deriving DecidableEq

/-- The options without a value. -/
inductive Switch where
  | random | unique | count | dot | showGrammar
deriving DecidableEq

/-- What one argument says by itself. -/
inductive Token where
  | word
  /-- everything after it is a word -/
  | terminator
  | switch (switch : Switch)
  /-- an option with its value, unless the value is the next argument -/
  | setting (setting : Setting) (value : Option String)
  | unknown
deriving DecidableEq

/-- The setting of a long name. -/
def Setting.ofLong? : String → Option Setting
  | "grammar" => some .grammar
  | "list" => some .list
  | "sample" => some .sample
  | "threads" => some .threads
  | "out" => some .out
  | _ => none

/-- The setting of a letter. -/
def Setting.ofShort? : Char → Option Setting
  | 'g' => some .grammar
  | 'l' => some .list
  | 'j' => some .threads
  | 'o' => some .out
  | _ => none

/-- The switch of a long name. -/
def Switch.ofLong? : String → Option Switch
  | "random" => some .random
  | "unique" => some .unique
  | "count" => some .count
  | "dot" => some .dot
  | "show-grammar" => some .showGrammar
  | _ => none

/-- What a long option says, given the text after its two dashes. -/
def Token.ofLong (cs : List Char) : Token :=
  let name := String.ofList (cs.takeWhile (· != '='))
  match cs.dropWhile (· != '='), Setting.ofLong? name, Switch.ofLong? name with
  | [], some s, _ => .setting s none
  | _ :: value, some s, _ => .setting s (some (String.ofList value))
  | [], none, some s => .switch s
  | _, _, _ => .unknown

/-- What a short option says, given its letter and the text after it. -/
def Token.ofShort (letter : Char) (cs : List Char) : Token :=
  match Setting.ofShort? letter, cs with
  | some s, [] => .setting s none
  | some s, '=' :: value => .setting s (some (String.ofList value))
  | some s, value => .setting s (some (String.ofList value))
  | none, _ => .unknown

/-- What an argument says. -/
def Token.ofArgument (arg : String) : Token :=
  match arg.toList with
  | ['-', '-'] => .terminator
  | '-' :: '-' :: cs => .ofLong cs
  | ['-'] => .word
  | '-' :: letter :: cs => .ofShort letter cs
  | _ => .word

/-! ## Reading -/

/-- What has been given, in order. -/
structure Given where
  settings : List (Setting × String)
  switches : List Switch
  words : List String

/-- Reads the arguments one by one; nothing if they make no sense. -/
def Given.read? : List String → Option Given
  | [] => some ⟨[], [], []⟩
  | arg :: args =>
    match Token.ofArgument arg with
    | .word => (read? args).map fun g => { g with words := arg :: g.words }
    | .terminator => some ⟨[], [], args⟩
    | .switch switch => (read? args).map fun g => { g with switches := switch :: g.switches }
    | .setting setting (some value) =>
      (read? args).map fun g => { g with settings := (setting, value) :: g.settings }
    | .setting setting none =>
      match args with
      | [] => none
      | value :: args =>
        if Token.ofArgument value = .word then
          (read? args).map fun g => { g with settings := (setting, value) :: g.settings }
        else none
    | .unknown => none

/-- The values of a setting, in order. -/
def Given.values (g : Given) (setting : Setting) : List String :=
  g.settings.filterMap fun (s, value) => if s = setting then some value else none

/-- Whether a switch is on; nothing if it is given twice. -/
def Given.switch? (g : Given) (switch : Switch) : Option Bool :=
  match g.switches.filter (· = switch) with
  | [] => some false
  | [_] => some true
  | _ => none

/-- The value of a setting, checked; nothing if it is given twice or is refused. -/
def Given.value? {α : Type} (g : Given) (setting : Setting) (check : String → Option α) :
    Option (Option α) :=
  match g.values setting with
  | [] => some none
  | [value] => (check value).map some
  | _ => none

/-! ## Values -/

/-- A path is any text that is not empty. -/
def checkPath (value : String) : Option String :=
  if value.isEmpty then none else some value

/-- A number may have a plus sign. -/
def checkNumber (value : String) : Option Nat :=
  match value.toList with
  | '+' :: cs => Rule.readNumber? cs
  | cs => Rule.readNumber? cs

/-- A list is a name, an equals sign and a path; neither is empty. -/
def checkList (value : String) : Option (String × String) :=
  let cs := value.toList
  match cs.takeWhile (· != '='), cs.dropWhile (· != '=') with
  | c :: name, _ :: d :: path => some (String.ofList (c :: name), String.ofList (d :: path))
  | _, _ => none

/-- The arguments of the command line; nothing if they are refused. -/
def Arguments.read? (args : List String) : Option Arguments := do
  let given ← Given.read? args
  let grammar ← (← given.value? .grammar checkPath)
  let lists ← (given.values .list).mapM checkList
  let sample ← given.value? .sample checkNumber
  let random ← given.switch? .random
  let unique ← given.switch? .unique
  let count ← given.switch? .count
  let threads ← given.value? .threads checkNumber
  let dot ← given.switch? .dot
  let showGrammar ← given.switch? .showGrammar
  let out ← given.value? .out checkPath
  if given.words.isEmpty && !dot && !showGrammar then none
  else some ⟨grammar, lists, sample, random, unique, count, threads, dot, showGrammar, out,
    given.words⟩

end PhraseSearch.CommandLine
