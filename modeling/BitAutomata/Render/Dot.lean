import BitAutomata.Automaton.Basic
import BitAutomata.Render.Listing
import BitAutomata.Text.Quote
import BitAutomata.Writer

/-!
# Digraphs and printing

An automaton is drawn as a left-to-right digraph: an invisible node points at each initial
state; each state is a circle, doubled when final and filled green when current; each arc
target gets an edge labelled with the move's text. The digraph is written one line at a
time, the listing in a single write.
-/

namespace BitAutomata

namespace Automaton

/-- The node name of a state. -/
def nodeName (s : State) : String :=
  "state_" ++ toString s.toInt

/-- The lines that draw the arrow into an initial state. -/
def initialLines (s : State) : List String :=
  let n := "initial_" ++ toString s.toInt
  ["\t" ++ n ++ " [label=\"\", style=invis];\n", "\t" ++ n ++ " -> " ++ nodeName s ++ ";\n"]

/-- The line that draws one state. -/
def stateLine (a : Automaton) (s : State) : String :=
  let shape := if a.final.contains s then "doublecircle" else "circle"
  let fill := if a.current.contains s then "green" else "white"
  "\t" ++ nodeName s ++ " [label=\"" ++ toString s.toInt ++ "\", shape=" ++ shape ++
    ", style=filled, fillcolor=" ++ fill ++ "];\n"

/-- The line that draws one edge. -/
def edgeLine (s : State) (m : Move) (t : State) : String :=
  "\t" ++ nodeName s ++ " -> " ++ nodeName t ++ " [label=" ++ Text.quote m.text ++ "];\n"

/-- The lines of one state: the state, then its edges by move in key order and by target. -/
def stateLines (a : Automaton) (s : State) : List String :=
  a.stateLine s :: (a.arcs s).toList.flatMap fun e => e.2.toList.map (edgeLine s e.1)

/-- The digraph of an automaton, one line per write. -/
def dotLines (a : Automaton) : List String :=
  ("digraph " ++ Text.quote a.options.graphName ++ " \x7b\n\trankdir=LR;\n") ::
    (a.initial.toList.flatMap initialLines ++ a.states.toList.flatMap a.stateLines ++ ["\x7d\n"])

/-- Writes the digraph line by line; a refused line ends the drawing. -/
def writeDot (a : Automaton) (w : Writer) : Writer × Option WriteError :=
  w.writeAll a.dotLines

/-- The text that reports a refused print. -/
def printErrorMessage (e : WriteError) : String :=
  "writing automaton: " ++ e.message

/-- Writes the listing in one write. -/
def print (a : Automaton) (w : Writer) : Writer × Option WriteError :=
  w.writeAll [a.listing]

end Automaton

end BitAutomata
