import BitAutomata.Alphabet
import BitAutomata.Complement
import BitAutomata.Product
import BitAutomata.Renumber

/-!
# Trace logs

Operations that reshape an automaton report what they did to the trace log of the automaton
that does the work, when it keeps one. Each report is one line: the log's tag, a colon and a
space, then the message. The functions here pair an operation's result with the lines it
reports, in order.
-/

namespace BitAutomata

/-- What an operation reports. -/
inductive Event where
  /-- A product of automata with the given numbers of states reached so many pairs. -/
  | intersected (left right pairs : Nat)
  /-- A subset construction found no initial state. -/
  | noInitialStates
  /-- A subset construction over so many states built so many subsets. -/
  | determinized (states subsets : Nat)
  /-- So many silent pairs were removed from an automaton with so many states. -/
  | epsilonsRemoved (removed states : Nat)
  /-- Completion added the given sink for so many missing arcs. -/
  | sinkAdded (sink : State) (missing : Nat)
  /-- A complement has so many states, so many of them final. -/
  | complemented (states finals : Nat)
  /-- A projection removed a variable and merged so many arcs. -/
  | projected (v : Var) (merged : Nat)
  /-- So many states were renumbered. -/
  | renumbered (states : Nat)
  deriving Inhabited

/-- The message of an event, ending in a line feed. -/
def Event.message : Event → String
  | intersected x y n =>
    "intersect: " ++ toString x ++ " x " ++ toString y ++ " states -> " ++ toString n ++
      " reachable pairs\n"
  | noInitialStates => "determinize: no initial states\n"
  | determinized n m =>
    "determinize: " ++ toString n ++ " states -> " ++ toString m ++ " subset states\n"
  | epsilonsRemoved r n =>
    "eliminate epsilon: removed " ++ toString r ++ " epsilon transitions from " ++ toString n ++
      " states\n"
  | sinkAdded s n =>
    "complete: added sink " ++ toString s.toInt ++ " for " ++ toString n ++ " missing transitions\n"
  | complemented n f => "complement: " ++ toString n ++ " states, " ++ toString f ++ " final\n"
  | projected v n =>
    "project: removed variable " ++ toString v.toNat ++ ", merged " ++ toString n ++ " transitions\n"
  | renumbered n => "restate: renumbered " ++ toString n ++ " states\n"

/-- The lines an event adds to the log of the given options: none without a log. -/
def Options.report (o : Options) (e : Event) : List String :=
  match o.trace with
  | none => []
  | some tag => [tag ++ ": " ++ e.message]

namespace Automaton

/-- Silent-arc removal with its report, made only when there was a silent arc. -/
def eliminateEpsilonLogged (a : Automaton) : Automaton × List String :=
  (a.eliminateEpsilon,
    if a.hasEpsilon then a.options.report (.epsilonsRemoved a.table.silentCount a.states.size)
    else [])

/-- The subset construction with its reports: the silent-arc removal on `src`'s log, then
the construction on `recv`'s. -/
def determinizeLogged (recv src : Automaton) : Automaton × List String :=
  let (nfa, pre) := src.eliminateEpsilonLogged
  let b := (subsetConstruction recv nfa).auto
  (b, pre ++ recv.options.report
    (if nfa.initial.isEmpty then .noInitialStates else .determinized nfa.states.size b.states.size))

/-- The product with its report. -/
def intersectLogged (recv x y : Automaton) : Automaton × List String :=
  let c := productConstruction recv x y
  (c.auto, recv.options.report (.intersected x.states.size y.states.size c.numbering.size))

/-- Completion with its report, made only when a sink was added. -/
def completeLogged (a : Automaton) : Automaton × List String :=
  (a.complete,
    if a.needsSink then a.options.report (.sinkAdded a.freshState a.holes.length) else [])

/-- The complement with its reports: those of the subset construction when `src` is not
deterministic, of completion, and the final count, all on `recv`'s log but for the silent-arc
removal, which is on `src`'s. -/
def complementLogged (recv src : Automaton) : Automaton × List String :=
  let (d, pre) :=
    if src.isDeterministic then ({ src with options := recv.options }, [])
    else determinizeLogged (empty recv.options) src
  let (c, mid) := d.completeLogged
  let b := c.swapFinal
  (b, pre ++ mid ++ recv.options.report (.complemented b.states.size b.final.size))

/-- Projection with its report, made only when the variable was in the alphabet. -/
def projectLogged (a : Automaton) (v : Var) : Automaton × List String :=
  (a.project v,
    if a.alphabet.contains v then a.options.report (.projected v (a.projectMerges v)) else [])

/-- Renumbering with its report. -/
def restateLogged (a : Automaton) : Automaton × List String :=
  (a.restate, a.options.report (.renumbered a.states.size))

end Automaton

end BitAutomata
