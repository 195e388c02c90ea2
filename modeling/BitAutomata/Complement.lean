import BitAutomata.Subset

/-!
# Completion and complement

A complete automaton has, from every state, an arc for every total label over its alphabet.
Completing adds a sink state (the state after the largest) with an arc to itself for every
label, and sends every missing arc there; an automaton without initial states starts at the
sink. The complement of an automaton reads exactly the words over its alphabet that the
automaton does not: determinize unless already deterministic, complete, and swap final and
non-final states.
-/

namespace BitAutomata

namespace Automaton

/-- The missing arcs: each state, ascending, with each total label it has no arc for. -/
def holes (a : Automaton) : List (State × Label) :=
  a.states.toList.flatMap fun s =>
    (Label.all a.alphabet.toList).filterMap fun l =>
      if (a.arcs s).contains (.label l) then none else some (s, l)

/-- Whether completing changes anything: some arc is missing or no state is initial. -/
def needsSink (a : Automaton) : Bool :=
  !a.holes.isEmpty || a.initial.isEmpty

/-- Adds a sink state that every missing arc leads to. -/
def complete (a : Automaton) : Automaton :=
  if a.needsSink then
    let sink := a.freshState
    let b := (Label.all a.alphabet.toList).foldl (fun b l => b.addArc sink (.label l) sink)
      (a.addState sink)
    let b := a.holes.foldl (fun b h => b.addArc h.1 (.label h.2) sink) b
    if b.initial.isEmpty then { b with initial := {sink}, current := {sink} } else b
  else a

/-- The deterministic automaton that a complement starts from, with the options of `recv`. -/
def complementBase (recv src : Automaton) : Automaton :=
  if src.isDeterministic then { src with options := recv.options }
  else determinize (empty recv.options) src

/-- Swaps final and non-final states and resets the current states to the initial ones. -/
def swapFinal (a : Automaton) : Automaton :=
  { a with final := a.states.filter (fun s => !a.final.contains s), current := a.initial }

/-- The complement of `src`, built in place of `recv` and keeping its options. -/
def complement (recv src : Automaton) : Automaton :=
  (complementBase recv src).complete.swapFinal

end Automaton

end BitAutomata
