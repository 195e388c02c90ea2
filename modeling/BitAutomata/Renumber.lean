import BitAutomata.Automaton.Basic

/-!
# Renumbering states

Renumbering maps the states, in ascending order, to `0, 1, 2, …`; anything that is not a
state maps to `0`. Every set of states and every source and target of the table is mapped.
Where sources that are not states map to a state's number, the table keeps the arcs of the
source written last, in the order the pass visits the table.
-/

namespace BitAutomata

/-- The image of a set of states under a map. -/
def StateSet.image (f : State → State) (s : StateSet) : StateSet :=
  s.foldl (fun acc x => acc.insert (f x)) ∅

namespace Automaton

/-- The position of each state in ascending order. -/
def ranks (a : Automaton) : Std.ExtTreeMap State State :=
  Std.ExtTreeMap.ofList (a.states.toList.zipIdx.map fun e => (e.1, Int64.ofNat e.2))

/-- Renames every state by a map: the state sets, and the sources and targets of the table. The
sources are visited in the order `o` gives, and where the map sends two sources to one state
the arcs of the one visited later win. -/
def renumberIn (a : Automaton) (o : MapOrder) (f : State → State) : Automaton :=
  { a with
    states := a.states.image f
    initial := a.initial.image f
    final := a.final.image f
    current := a.current.image f
    table := (o.sourcesOf a.table).foldl
      (fun t e => t.insert (f e.1) (e.2.map fun _ ts => ts.image f)) ∅ }

/-- Renames every state by a map, visiting the sources in ascending order. -/
def renumberBy (a : Automaton) (f : State → State) : Automaton :=
  a.renumberIn .byKey f

/-- Renumbers the states densely from `0`, in ascending order; anything that is not a state
becomes `0`. The sources of the table are visited in the order `o` gives. -/
def restateIn (a : Automaton) (o : MapOrder) : Automaton :=
  let r := a.ranks
  a.renumberIn o fun s => r.getD s 0

/-- Renumbers the states densely from `0`, visiting the sources in ascending order. -/
def restate (a : Automaton) : Automaton :=
  a.restateIn .byKey

end Automaton

end BitAutomata
