import LexGen.Dfa.Basic
import LexGen.Text.Quoted

/-!
# Diagrams

A diagram of an automaton has a labelled node for each state and a labelled edge for each move.
The label of a node shows the number of the state, an arrow at the start, and the token type of
an accepting state, or `accept` if it has none. `Diagram.dot` writes a diagram in the graph
language DOT: a label is quoted as a text and then once more as a DOT string.
-/

namespace LexGen

structure Diagram where
  nodes : List String
  edges : List (Nat × Nat × Char)
  deriving DecidableEq, Repr

/-- The label of the state with a given number. -/
def Dfa.nodeLabel (dfa : Dfa) (number : Nat) (state : DfaState) : String :=
  (if number = dfa.start then "-> " ++ number.repr else number.repr) ++
    if state.accepting then
      " [" ++ (state.tokenType.elim "accept" TokenType.name) ++ "]"
    else ""

def Dfa.diagram (dfa : Dfa) : Diagram where
  nodes := dfa.states.toList.zipIdx.map fun (state, number) => dfa.nodeLabel number state
  edges := dfa.states.toList.zipIdx.flatMap fun (state, number) =>
    state.moves.entries.map fun (c, target) => (number, target, c)

namespace Diagram

/-- The text in the form it has inside a DOT string. -/
def dotEscaped (text : String) : String :=
  String.ofList (text.toList.flatMap fun c => if c = '"' ∨ c = '\\' then ['\\', c] else [c])

/-- The attribute that gives a node or an edge its label. -/
def dotLabel (label : String) : String := "[ label = \"" ++ dotEscaped label ++ "\" ]\n"

def dot (diagram : Diagram) : String :=
  "digraph \x7b\n" ++
    String.join (diagram.nodes.zipIdx.map fun (label, number) =>
      "    " ++ number.repr ++ " " ++ dotLabel (Text.quoted label)) ++
    String.join (diagram.edges.map fun (source, target, c) =>
      "    " ++ source.repr ++ " -> " ++ target.repr ++ " " ++ dotLabel (Text.quotedChar c)) ++
    "\x7d\n"

end Diagram

end LexGen
