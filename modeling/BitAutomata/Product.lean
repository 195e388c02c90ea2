import BitAutomata.Explore

/-!
# Products

The product of two automata reads a word exactly when both do. Its states are the reachable
pairs of states, numbered breadth first from the initial pairs (first automaton's initial
states outer, second's inner, both ascending). From a pair, a label both automata read leads
to every pair of targets; a silent move of either automaton moves that component alone. A
pair is final when both components are. The product takes the first automaton's alphabet.
-/

namespace BitAutomata

namespace Automaton

/-- The successors of the pair `(p, q)`: first the label arcs that both automata have, by key,
with targets of the first automaton outer; then the first automaton's silent targets, then
the second's. -/
def pairMoves (x y : Automaton) (p q : State) : List (Move × List State) :=
  let xa := x.arcs p
  let ya := y.arcs q
  let shared := xa.toList.flatMap fun e =>
    match e.1.isEpsilon, ya.get? e.1 with
    | false, some us => e.2.toList.flatMap fun t => us.toList.map fun u => (e.1, [t, u])
    | _, _ => []
  shared ++ (xa.targets .epsilon).toList.map (fun t => (.epsilon, [t, q])) ++
    (ya.targets .epsilon).toList.map (fun u => (.epsilon, [p, u]))

/-- The successors of a pair given as a tuple. -/
def pairSuccessors (x y : Automaton) : List State → List (Move × List State)
  | [p, q] => x.pairMoves y p q
  | _ => []

/-- Whether a pair is final: both components are. -/
def pairFinal (x y : Automaton) : List State → Bool
  | [p, q] => x.final.contains p && y.final.contains q
  | _ => false

/-- The construction of the product's reachable pairs, built on a cleared `recv`. -/
def productConstruction (recv x y : Automaton) : Construction :=
  let c0 : Construction := { auto := { recv.clear with alphabet := x.alphabet } }
  let c1 := x.initial.toList.foldl (fun c p =>
    y.initial.toList.foldl (fun c q => c.start (x.pairFinal y) [p, q]) c) c0
  Construction.exploreWithin (x.pairFinal y) (x.pairSuccessors y)
    (x.reachBound.size * y.reachBound.size + 1) c1 0

/-- The product of `x` and `y`, built in place of `recv` and keeping its options. -/
def intersect (recv x y : Automaton) : Automaton :=
  (productConstruction recv x y).auto

end Automaton

end BitAutomata
