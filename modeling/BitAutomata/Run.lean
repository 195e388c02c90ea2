import BitAutomata.Automaton.Basic

/-!
# Simulation

A run starts from the silent closure of the initial states; each letter moves every current
state along the arcs that read exactly that label, and the silent closure of the result
becomes the new current set. The silent closure follows silent arcs from any member of the
set, whether or not it is a state of the automaton. A word is accepted when the states it
reaches meet the final states.
-/

namespace BitAutomata

/-- Widens a set by a step, one round at a time, for at most `fuel` rounds; it stops as soon
as every state the step gives is already in the set. -/
def StateSet.saturate (step : StateSet → StateSet) : Nat → StateSet → StateSet
  | 0, s => s
  | fuel + 1, s =>
    let next := step s
    if next.all fun x => s.contains x then s else saturate step fuel (s ∪ next)

namespace Table

/-- The targets of one move from any member of a set. -/
def image (t : Table) (m : Move) (s : StateSet) : StateSet :=
  s.foldl (fun acc q => acc ∪ t.targets q m) ∅

/-- The silent closure of a set: everything reachable from it by silent moves. Every round of
widening that adds something adds a silent target, so one round more than there are silent
pairs reaches the fixed point. -/
def closure (t : Table) (s : StateSet) : StateSet :=
  StateSet.saturate (t.image .epsilon) (t.silentCount + 1) s

/-- One letter: the closure of the targets of the label from a set. -/
def read (t : Table) (s : StateSet) (l : Label) : StateSet :=
  t.closure (t.image (.label l) s)

end Table

namespace Automaton

/-- The states reached by reading a word from the closure of the initial states. -/
def reach (a : Automaton) (w : List Label) : StateSet :=
  w.foldl a.table.read (a.table.closure a.initial)

/-- Simulates a word from the initial states; the states reached become current. -/
def run (a : Automaton) (w : List Label) : Automaton :=
  { a with current := a.reach w }

/-- Reads one letter from the current states. -/
def step (a : Automaton) (l : Label) : Automaton :=
  { a with current := a.table.read a.current l }

/-- Whether a word is accepted. -/
def acceptsWord (a : Automaton) (w : List Label) : Bool :=
  (a.reach w).meets a.final

end Automaton

end BitAutomata
