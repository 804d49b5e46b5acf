import PhraseSearch.Automaton.Basic

/-!
# Drawings

`drawing` describes an automaton in the language of Graphviz: a header, one line per state in the
order of the numbers, and then one line per edge.
-/

namespace PhraseSearch.Automaton

/-- A text in which double quotes are escaped by a backslash. -/
def escapeQuotes (text : String) : String :=
  String.ofList (text.toList.flatMap fun c => if c = '"' then ['\\', '"'] else [c])

/-- The attributes of a state. -/
def Label.attributes : Label → String
  | .start => "[shape=doublecircle;label=\"IN\"]"
  | .finish => "[shape=doublecircle;label=\"OUT\"]"
  | .word list _ => "[label=\"" ++ escapeQuotes list ++ "\"]"

/-- The lines before those of the states. -/
def headerLines (name : String) : List String :=
  ["digraph " ++ name ++ " \x7b",
   "  label=\"" ++ name ++ "\";",
   "  fontsize=20;",
   "  rankdir=LR;",
   "  node [shape=circle,fontsize=10];"]

/-- The line of a state. -/
def stateLine (id : Nat) (state : State) : String :=
  "  n" ++ toString id ++ " " ++ state.label.attributes ++ ";"

/-- The lines of a state's edges. -/
def edgeLines (id : Nat) (state : State) : List String :=
  state.edges.map fun target => "  n" ++ toString id ++ " -> n" ++ toString target ++ ";"

/-- The lines of the drawing. -/
def drawingLines (a : Automaton) (name : String) : List String :=
  let numbered := a.states.toList.zipIdx
  headerLines name
    ++ numbered.map (fun (state, id) => stateLine id state)
    ++ numbered.flatMap (fun (state, id) => edgeLines id state)
    ++ ["\x7d"]

/-- The drawing of an automaton, under a name; every line is ended. -/
def drawing (a : Automaton) (name : String) : String :=
  String.join ((a.drawingLines name).map (· ++ "\n"))

end PhraseSearch.Automaton
