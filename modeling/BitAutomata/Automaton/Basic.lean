import BitAutomata.Move

/-!
# Automata over labels

An automaton has a set of states (signed 64-bit integers), initial, final and current
states, a transition table and an alphabet of variables. The table maps a source state and a
move to a set of target states. Nothing here requires the initial, final or current states,
or the table's sources and targets, to be states of the automaton: validation reports the
first place where they are not.
-/

namespace BitAutomata

/-- A state of an automaton: a signed 64-bit integer. -/
abbrev State := Int64

/-- A finite set of states, iterated in ascending order. -/
abbrev StateSet := Std.ExtTreeSet State

/-- The arcs that leave one state: each move with its set of targets. -/
abbrev Arcs := Std.ExtTreeMap Move StateSet

/-- A transition table: the arcs that leave each source state. -/
abbrev Table := Std.ExtTreeMap State Arcs

/-- Whether two sets of states share a member. -/
def StateSet.meets (s t : StateSet) : Bool :=
  s.any fun x => t.contains x

/-- The states of a set written in decimal, in ascending order. -/
def StateSet.texts (s : StateSet) : List String :=
  s.toList.map fun x => toString x.toInt

namespace Arcs

/-- The targets of a move, empty when the move has no arc. -/
def targets (arcs : Arcs) (m : Move) : StateSet :=
  arcs.getD m ∅

/-- Adds a target to the arc of a move, creating the arc if needed. -/
def add (arcs : Arcs) (m : Move) (t : State) : Arcs :=
  arcs.alter m fun ts => some ((ts.getD ∅).insert t)

/-- Adds a set of targets to the arc of a move; an empty set adds nothing. -/
def addAll (arcs : Arcs) (m : Move) (ts : StateSet) : Arcs :=
  if ts.isEmpty then arcs else arcs.alter m fun us => some ((us.getD ∅) ∪ ts)

/-- Joins two arc maps: each move gets the targets it has in either. -/
def join (arcs other : Arcs) : Arcs :=
  other.foldl (fun acc m ts => acc.addAll m ts) arcs

/-- The number of (move, target) pairs. -/
def count (arcs : Arcs) : Nat :=
  arcs.foldl (fun n _ ts => n + ts.size) 0

end Arcs

namespace Table

/-- The arcs that leave a state, empty when it has none. -/
def arcs (t : Table) (s : State) : Arcs :=
  t.getD s ∅

/-- The targets of a move from a state. -/
def targets (t : Table) (s : State) (m : Move) : StateSet :=
  (t.arcs s).targets m

/-- Adds the arc `s --m--> u`. -/
def addArc (t : Table) (s : State) (m : Move) (u : State) : Table :=
  t.insert s ((t.arcs s).add m u)

/-- The number of (source, move, target) triples. -/
def count (t : Table) : Nat :=
  t.foldl (fun n _ arcs => n + arcs.count) 0

/-- The number of silent (source, target) pairs. -/
def silentCount (t : Table) : Nat :=
  t.foldl (fun n _ arcs => n + (arcs.targets .epsilon).size) 0

/-- Every target of every arc. -/
def targetSet (t : Table) : StateSet :=
  t.foldl (fun acc _ arcs => arcs.foldl (fun acc _ ts => acc ∪ ts) acc) ∅

end Table

/-- The order in which one pass over a table visits its entries. The table and the arcs of
each source are hash maps, whose iteration order is left open and may change from one pass
to the next; an operation whose writes can collide takes the order as an argument, and every
order lists each entry exactly once. -/
structure MapOrder where
  /-- The arcs of a source, in the order the pass visits them. -/
  arcsOf : State → Arcs → List (Move × StateSet)
  arcsOf_perm : ∀ s arcs, (arcsOf s arcs).Perm arcs.toList
  /-- The sources of a table with their arcs, in the order the pass visits them. -/
  sourcesOf : Table → List (State × Arcs)
  sourcesOf_perm : ∀ t, (sourcesOf t).Perm t.toList

/-- The pass that visits every map in ascending key order. -/
def MapOrder.byKey : MapOrder where
  arcsOf _ arcs := arcs.toList
  arcsOf_perm _ _ := List.Perm.refl _
  sourcesOf t := t.toList
  sourcesOf_perm _ := List.Perm.refl _

/-- The pass that visits every map in descending key order. -/
def MapOrder.byKeyDesc : MapOrder where
  arcsOf _ arcs := arcs.toList.reverse
  arcsOf_perm _ arcs := List.reverse_perm arcs.toList
  sourcesOf t := t.toList.reverse
  sourcesOf_perm t := List.reverse_perm t.toList

/-- Options fixed when an automaton is created: the tag of its trace log, if it keeps one,
and the name of its digraph. -/
structure Options where
  /-- The tag written before every trace line; `none` keeps no trace. -/
  trace : Option String := none
  /-- The name given to the digraph of the automaton. -/
  graphName : String := "bvfa"
  deriving Inhabited

/-- A finite automaton whose arcs read labels or move silently. -/
structure Automaton where
  /-- Trace tag and digraph name. -/
  options : Options := {}
  /-- The states of the automaton. -/
  states : StateSet := ∅
  /-- The initial states. -/
  initial : StateSet := ∅
  /-- The final (accepting) states. -/
  final : StateSet := ∅
  /-- The states reached by the last simulation. -/
  current : StateSet := ∅
  /-- The transition table. -/
  table : Table := ∅
  /-- The variables every label should assign. -/
  alphabet : VarSet := ∅
  deriving Inhabited

namespace Automaton

/-- A new automaton with the given options and nothing else. -/
def empty (o : Options) : Automaton := { options := o }

/-- Forgets everything but the options. -/
def clear (a : Automaton) : Automaton := empty a.options

/-- Adds a state. -/
def addState (a : Automaton) (s : State) : Automaton :=
  { a with states := a.states.insert s }

/-- Adds the arc `s --m--> u`. -/
def addArc (a : Automaton) (s : State) (m : Move) (u : State) : Automaton :=
  { a with table := a.table.addArc s m u }

/-- Adds an arc that reads a label. An automaton with an empty alphabet takes the label's
variables as its alphabet. -/
def addTransition (a : Automaton) (s : State) (l : Label) (u : State) : Automaton :=
  let a := if a.alphabet.isEmpty then { a with alphabet := l.domain } else a
  a.addArc s (.label l) u

/-- Adds a silent arc. -/
def addEpsilon (a : Automaton) (s u : State) : Automaton :=
  a.addArc s .epsilon u

/-- Makes a state initial; it also becomes current. -/
def markInitial (a : Automaton) (s : State) : Automaton :=
  { a with initial := a.initial.insert s, current := a.current.insert s }

/-- Makes a state final. -/
def markFinal (a : Automaton) (s : State) : Automaton :=
  { a with final := a.final.insert s }

/-- Whether a state belongs to the automaton. -/
def contains (a : Automaton) (s : State) : Bool :=
  a.states.contains s

/-- The arcs that leave a state. -/
def arcs (a : Automaton) (s : State) : Arcs :=
  a.table.arcs s

/-- The targets of a move from a state. -/
def targets (a : Automaton) (s : State) (m : Move) : StateSet :=
  a.table.targets s m

/-- The labels read by the arcs that leave a state, in key order. -/
def labels (a : Automaton) (s : State) : List Label :=
  (a.arcs s).keys.filterMap (·.label?)

/-- The number of (source, move, target) triples, silent ones included. -/
def numTransitions (a : Automaton) : Nat :=
  a.table.count

/-- Whether some silent arc has a target. -/
def hasEpsilon (a : Automaton) : Bool :=
  a.table.any fun _ arcs => !(arcs.targets .epsilon).isEmpty

/-- Deterministic: at most one initial state, no silent arc, and at most one target per arc. -/
def isDeterministic (a : Automaton) : Bool :=
  a.initial.size ≤ 1 && !a.hasEpsilon &&
    a.table.all fun _ arcs => arcs.all fun _ ts => ts.size ≤ 1

/-- Whether some current state is final. -/
def accepts (a : Automaton) : Bool :=
  a.current.meets a.final

/-- The state after the largest one (wrapping around at the top of the 64-bit range), or
`0` for an automaton without states. -/
def freshState (a : Automaton) : State :=
  match a.states.max? with
  | none => 0
  | some m => m + 1

end Automaton

end BitAutomata
