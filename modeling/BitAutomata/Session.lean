import BitAutomata.Alphabet
import BitAutomata.Complement
import BitAutomata.Product
import BitAutomata.Renumber

/-!
# Sessions of calls

A session holds automata under names. Every call of the interface that changes an automaton
is a `Call`: it reads the automata under the names it is given and writes one automaton under
one name, that of its receiver (for `clone`, that of the copy). A call naming an automaton the
session does not hold changes nothing. Queries, printing and validation change no automaton
and are not calls here; building an automaton from lists is `new` followed by the calls that
add its states, arcs and marks. A pass over a hash map visits it in an order the program
leaves open; a call whose result can depend on that order carries the order its passes take,
so that a session may take any.
-/

namespace BitAutomata

/-- Automata under names. -/
abbrev Session := String → Option Automaton

namespace Session

/-- The session that holds no automaton. -/
def empty : Session := fun _ => none

/-- Puts an automaton under a name, replacing what was there. -/
def set (σ : Session) (n : String) (a : Automaton) : Session :=
  fun n' => if n' = n then some a else σ n'

/-- The receiver's name with what `f` makes of its automaton, if the session holds one. -/
def update (σ : Session) (n : String) (f : Automaton → Automaton) :
    Option (String × Automaton) :=
  (σ n).map fun a => (n, f a)

/-- The receiver's name with what `f` makes of its automaton and the one under `m`, if the
session holds both. -/
def update₂ (σ : Session) (n m : String) (f : Automaton → Automaton → Automaton) :
    Option (String × Automaton) :=
  (σ m).bind fun b => σ.update n fun a => f a b

end Session

/-- A call that changes an automaton, with the names of the automata it reads. -/
inductive Call where
  /-- A new automaton with the given options. -/
  | new (name : String) (o : Options)
  | addState (a : String) (s : State)
  | addTransition (a : String) (source : State) (l : Label) (target : State)
  | addEpsilon (a : String) (source target : State)
  | markInitial (a : String) (s : State)
  | markFinal (a : String) (s : State)
  /-- A copy of `a` stored under `name`. -/
  | clone (a name : String)
  /-- Adds `v` to `a`'s alphabet, the pass visiting arcs in the order `o` gives. -/
  | addToAlphabet (a : String) (v : Var) (o : MapOrder)
  /-- Adds to `a`'s alphabet every variable of `other`'s, the pass that adds `v` visiting arcs in
  the order `o v`. -/
  | insertFreeVars (a other : String) (o : Var → MapOrder)
  /-- The product of `x` and `y`, built in place of `a`. -/
  | intersect (a x y : String)
  | eliminateEpsilon (a : String)
  /-- The subset automaton of `src`, built in place of `a`. -/
  | determinize (a src : String)
  | complete (a : String)
  /-- The complement of `src`, built in place of `a`. -/
  | complement (a src : String)
  | project (a : String) (v : Var)
  /-- Renumbers `a`'s states, the pass visiting sources in the order `o` gives. -/
  | restate (a : String) (o : MapOrder)
  /-- Simulates a word from the initial states. -/
  | run (a : String) (w : List Label)
  /-- Reads one letter from the current states. -/
  | step (a : String) (l : Label)

namespace Call

/-- The name a call writes and the automaton it writes there, or `none` when a name it reads
holds no automaton. -/
def result (σ : Session) : Call → Option (String × Automaton)
  | new n o => some (n, Automaton.empty o)
  | addState n s => σ.update n (·.addState s)
  | addTransition n s l u => σ.update n (·.addTransition s l u)
  | addEpsilon n s u => σ.update n (·.addEpsilon s u)
  | markInitial n s => σ.update n (·.markInitial s)
  | markFinal n s => σ.update n (·.markFinal s)
  | clone n n' => (σ n).map fun a => (n', a)
  | addToAlphabet n v o => σ.update n (·.addVarIn o v)
  | insertFreeVars n m o => σ.update₂ n m fun a b => a.addVarsOfIn b o
  | intersect n x y => (σ x).bind fun b => σ.update₂ n y fun a c => a.intersect b c
  | eliminateEpsilon n => σ.update n Automaton.eliminateEpsilon
  | determinize n m => σ.update₂ n m Automaton.determinize
  | complete n => σ.update n Automaton.complete
  | complement n m => σ.update₂ n m Automaton.complement
  | project n v => σ.update n (·.project v)
  | restate n o => σ.update n (·.restateIn o)
  | run n w => σ.update n (·.run w)
  | step n l => σ.update n (·.step l)

/-- The session after a call; a call naming an automaton the session does not hold leaves it as
it is. -/
def apply (c : Call) (σ : Session) : Session :=
  match c.result σ with
  | some r => σ.set r.1 r.2
  | none => σ

end Call

end BitAutomata
