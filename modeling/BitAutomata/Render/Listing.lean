import BitAutomata.Automaton.Basic

/-!
# The listing of an automaton

The listing is a plain text: a line with the alphabet, a line with the states (each marked
initial and/or final), then for each state its arcs in key order with their targets. Arcs
whose source is not a state are not listed.
-/

namespace BitAutomata

/-- A set of states written between braces, separated by a comma and a space. -/
def StateSet.text (s : StateSet) : String :=
  "\x7b" ++ ", ".intercalate s.texts ++ "\x7d"

namespace Automaton

/-- How the state line marks a state: initial, final, both or neither. -/
def markText (a : Automaton) (s : State) : String :=
  match a.initial.contains s, a.final.contains s with
  | true, true => " (initial, final)"
  | true, false => " (initial)"
  | false, true => " (final)"
  | false, false => ""

/-- The entry of one state on the state line. -/
def stateEntry (a : Automaton) (s : State) : String :=
  " " ++ toString s.toInt ++ a.markText s

/-- The line of one arc: a tab, the move, an arrow and the targets. -/
def arcLine (m : Move) (ts : StateSet) : String :=
  "\t" ++ m.text ++ " -> " ++ ts.text ++ "\n"

/-- The block of one state: its number and colon, then one line per arc in key order. -/
def stateBlock (a : Automaton) (s : State) : String :=
  toString s.toInt ++ ":\n" ++ String.join ((a.arcs s).toList.map fun e => arcLine e.1 e.2)

/-- The listing of an automaton. -/
def listing (a : Automaton) : String :=
  "alphabet: " ++ a.alphabet.text ++ "\n" ++
    "states:" ++ ",".intercalate (a.states.toList.map a.stateEntry) ++ "\n" ++
    String.join (a.states.toList.map a.stateBlock)

end Automaton

end BitAutomata
