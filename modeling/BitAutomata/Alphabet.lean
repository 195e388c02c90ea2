import BitAutomata.Automaton.Basic

/-!
# Growing and shrinking the alphabet

Adding a variable to the alphabet splits every label arc in two: one arc reads the label
extended by the variable set to `false`, the other by the variable set to `true`, both with
the same targets; silent arcs stay. When the variable already occurs in some label, two arcs
can split into the same move; the arcs are then written one after the other in the order the
pass visits them, and the last one wins. Projecting a variable away drops it from every label;
arcs whose labels then coincide merge their targets. Both leave an automaton unchanged when
the variable is already in, or not in, the alphabet.
-/

namespace BitAutomata

namespace Arcs

/-- What one arc splits into on a new variable: a silent arc stays as it is; a label arc gives
two, reading its label with the variable set to `false` and then to `true`, both with the arc's
targets. -/
def splitEntry (v : Var) (e : Move × StateSet) : List (Move × StateSet) :=
  match e.1.label? with
  | none => [e]
  | some l => [(.label (l.insert v false), e.2), (.label (l.insert v true), e.2)]

/-- Splits arcs, visited in the order listed, on a new variable. Each arc written replaces
whatever was written under its move before, so where two arcs split into the same move the one
visited later wins. -/
def splitIn (v : Var) (es : List (Move × StateSet)) : Arcs :=
  Std.ExtTreeMap.ofList (es.flatMap (splitEntry v))

/-- Splits every arc on a new variable, visiting the arcs in key order. -/
def extend (arcs : Arcs) (v : Var) : Arcs :=
  splitIn v arcs.toList

/-- Drops a variable from every label; arcs whose labels then agree are merged. -/
def forget (arcs : Arcs) (v : Var) : Arcs :=
  arcs.foldl (fun acc m ts =>
    match m.label? with
    | none => acc.addAll m ts
    | some l => acc.addAll (.label (l.erase v)) ts)
    ∅

/-- The number of label arcs, silent arcs not counted. -/
def labelCount (arcs : Arcs) : Nat :=
  (arcs.keys.filter fun m => !m.isEpsilon).length

end Arcs

/-- The number of label arcs over all sources. -/
def Table.labelCount (t : Table) : Nat :=
  t.foldl (fun n _ arcs => n + arcs.labelCount) 0

namespace Automaton

/-- Adds a variable to the alphabet, splitting every label arc on it; the arcs of each source
are visited in the order `o` gives. -/
def addVarIn (a : Automaton) (o : MapOrder) (v : Var) : Automaton :=
  if a.alphabet.contains v then a
  else
    { a with
      table := a.table.map fun s arcs => Arcs.splitIn v (o.arcsOf s arcs)
      alphabet := a.alphabet.insert v }

/-- Adds a variable to the alphabet, visiting the arcs of each source in key order. -/
def addVar (a : Automaton) (v : Var) : Automaton :=
  a.addVarIn .byKey v

/-- Adds every variable of another automaton's alphabet, in ascending order; the pass that adds
`v` visits arcs in the order `o v`. -/
def addVarsOfIn (a other : Automaton) (o : Var → MapOrder) : Automaton :=
  other.alphabet.toList.foldl (fun b v => b.addVarIn (o v) v) a

/-- Adds every variable of another automaton's alphabet, in ascending order, each pass visiting
arcs in key order. -/
def addVarsOf (a other : Automaton) : Automaton :=
  other.alphabet.toList.foldl addVar a

/-- Removes a variable from the alphabet and from every label. -/
def project (a : Automaton) (v : Var) : Automaton :=
  if a.alphabet.contains v then
    { a with table := a.table.map fun _ arcs => arcs.forget v, alphabet := a.alphabet.erase v }
  else a

/-- How many label arcs a projection folded into another arc. -/
def projectMerges (a : Automaton) (v : Var) : Nat :=
  a.table.labelCount - (a.project v).table.labelCount

end Automaton

end BitAutomata
