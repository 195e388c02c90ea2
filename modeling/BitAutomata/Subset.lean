import BitAutomata.Epsilon
import BitAutomata.Explore

/-!
# The subset construction

Determinizing first removes silent arcs, then builds the automaton whose states are the
reachable sets of states, numbered breadth first from the set of initial states. From a set,
each move leads to the union of its members' targets, moves taken in key order; a set is
final when it meets the final states. Without initial states the result has no states.
-/

namespace BitAutomata

namespace Automaton

/-- The arcs of a set of states: each move with the union of the members' targets. -/
def subsetArcs (a : Automaton) (members : List State) : Arcs :=
  members.foldl (fun acc s => acc.join (a.arcs s)) ∅

/-- The successors of a set given as its ascending list, by move in key order. -/
def subsetSuccessors (a : Automaton) (members : List State) : List (Move × List State) :=
  (a.subsetArcs members).toList.filterMap fun e =>
    if e.2.isEmpty then none else some (e.1, e.2.toList)

/-- Whether a set given as a list meets the final states. -/
def subsetFinal (a : Automaton) (members : List State) : Bool :=
  members.any fun s => a.final.contains s

/-- The construction of the reachable sets of an automaton without silent arcs, built on a
cleared `recv`. -/
def subsetConstruction (recv nfa : Automaton) : Construction :=
  let c0 : Construction := { auto := { recv.clear with alphabet := nfa.alphabet } }
  if nfa.initial.isEmpty then c0
  else
    Construction.exploreWithin nfa.subsetFinal nfa.subsetSuccessors
      (Nat.pow 2 nfa.reachBound.size + 1) (c0.start nfa.subsetFinal nfa.initial.toList) 0

/-- The subset automaton of `src`, built in place of `recv` and keeping its options. -/
def determinize (recv src : Automaton) : Automaton :=
  (subsetConstruction recv src.eliminateEpsilon).auto

end Automaton

end BitAutomata
