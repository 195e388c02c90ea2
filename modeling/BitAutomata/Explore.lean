import BitAutomata.Numbering

/-!
# Building the reachable part of a tuple automaton

A product or a subset construction has tuples of old states as its states. Only the tuples
reachable from the start are built: each tuple gets the next number when it is first met,
becomes a state (final when the construction says so), and is expanded in turn, in order of
its number, so that tuples are numbered breadth first. Expanding a tuple adds an arc for each
of its successors, in the order the construction lists them.
-/

namespace BitAutomata

/-- A tuple automaton under construction: the numbering so far and the automaton built. -/
structure Construction where
  /-- The tuples met so far. -/
  numbering : Numbering := {}
  /-- The automaton built so far; its states are the numbers of the tuples. -/
  auto : Automaton
  deriving Inhabited

namespace Construction

/-- Meets a tuple: a new tuple gets the next number and becomes a state, final when
`isFinal` says so; a tuple met before keeps its number. -/
def visit (isFinal : List State → Bool) (c : Construction) (t : List State) :
    State × Construction :=
  let (i, n) := c.numbering.encode t
  let s := Numbering.state i
  if i < c.numbering.size then (s, c)
  else
    let auto := c.auto.addState s
    (s, { numbering := n, auto := if isFinal t then auto.markFinal s else auto })

/-- Meets a tuple and makes its state initial. -/
def start (isFinal : List State → Bool) (c : Construction) (t : List State) : Construction :=
  let (s, c) := c.visit isFinal t
  { c with auto := c.auto.markInitial s }

/-- Expands the tuple numbered `i`: an arc to each successor, in the order listed. -/
def expand (isFinal : List State → Bool) (next : List State → List (Move × List State))
    (c : Construction) (i : Nat) : Construction :=
  (next (c.numbering.tuple i)).foldl (fun c e =>
    let (s, c) := c.visit isFinal e.2
    { c with auto := c.auto.addArc (Numbering.state i) e.1 s }) c

/-- Expands tuples in order of their numbers from `i` on, until every tuple met is expanded,
for at most `fuel` tuples. -/
def exploreWithin (isFinal : List State → Bool) (next : List State → List (Move × List State)) :
    Nat → Construction → Nat → Construction
  | 0, c, _ => c
  | fuel + 1, c, i =>
    if i < c.numbering.size then
      exploreWithin isFinal next fuel (c.expand isFinal next i) (i + 1)
    else c

end Construction

/-- The states that a run can reach: the initial states and every target. The components of
the tuples a construction meets lie in it. -/
def Automaton.reachBound (a : Automaton) : StateSet :=
  a.initial ∪ a.table.targetSet

end BitAutomata
