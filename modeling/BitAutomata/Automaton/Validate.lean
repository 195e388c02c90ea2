import BitAutomata.Automaton.Basic

/-!
# Validation

An automaton is well formed when its initial, final and current states are states, every
source and target of an arc is a state, and every label assigns exactly the alphabet.
`Automaton.validate` reports the first violation in a fixed order: initial, final and current
states in ascending order, then the table by ascending source, each source's arcs in key
order, a label before its targets, targets ascending.
-/

namespace BitAutomata

/-- The three marked sets of states that must consist of states. -/
inductive Mark where
  | initial
  | final
  | current
  deriving DecidableEq, Inhabited

/-- The word naming a marked set. -/
def Mark.name : Mark → String
  | initial => "initial"
  | final => "final"
  | current => "current"

/-- The first way in which an automaton is not well formed. -/
inductive Violation where
  /-- A marked state that is not a state. -/
  | strayMark (m : Mark) (s : State)
  /-- A source with arcs that is not a state. -/
  | straySource (s : State)
  /-- A label, read from the given state, that does not assign exactly the alphabet. -/
  | labelMismatch (l : Label) (s : State) (alphabet : VarSet)
  /-- A target, reached from the given state, that is not a state. -/
  | strayTarget (t s : State)
  deriving Inhabited

/-- The text that reports a violation. -/
def Violation.message : Violation → String
  | strayMark m s =>
    m.name ++ " state " ++ toString s.toInt ++ " is not a state of the automaton"
  | straySource s =>
    "transition source " ++ toString s.toInt ++ " is not a state of the automaton"
  | labelMismatch l s vs =>
    "label " ++ l.text ++ " from state " ++ toString s.toInt ++
      " does not match alphabet " ++ vs.text
  | strayTarget t s =>
    "transition target " ++ toString t.toInt ++ " (from " ++ toString s.toInt ++
      ") is not a state of the automaton"

namespace Automaton

/-- The marked sets in the order they are checked. -/
def marks (a : Automaton) : List (Mark × StateSet) :=
  [(.initial, a.initial), (.final, a.final), (.current, a.current)]

/-- The first member of a set that is not a state, if any. -/
def firstStray (a : Automaton) (set : StateSet) : Option State :=
  set.toList.find? fun s => !a.contains s

/-- The first marked state that is not a state. -/
def markViolation (a : Automaton) : Option Violation :=
  a.marks.findSome? fun e => (a.firstStray e.2).map (Violation.strayMark e.1)

/-- The first fault of one arc from `s`: its label, then its targets. -/
def arcViolation (a : Automaton) (s : State) (m : Move) (ts : StateSet) : Option Violation :=
  let target := (a.firstStray ts).map fun t => Violation.strayTarget t s
  match m.label? with
  | none => target
  | some l => if l.hasDomain a.alphabet then target else some (.labelMismatch l s a.alphabet)

/-- The first fault of the arcs that leave `s`; a source without arcs has none. -/
def sourceViolation (a : Automaton) (s : State) (arcs : Arcs) : Option Violation :=
  if arcs.isEmpty then none
  else if !a.contains s then some (.straySource s)
  else arcs.toList.findSome? fun e => a.arcViolation s e.1 e.2

/-- The first violation of well-formedness, or `none` for a well-formed automaton. -/
def validate (a : Automaton) : Option Violation :=
  a.markViolation <|> a.table.toList.findSome? fun e => a.sourceViolation e.1 e.2

end Automaton

end BitAutomata
