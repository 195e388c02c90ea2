import BitAutomata.Automaton.Basic

/-!
# Numbering tuples of states

Constructions that build new states from tuples of old ones (pairs for a product, sorted
subsets for the subset construction) number the tuples `0, 1, 2, …` in the order they first
arrive. A numbering remembers each tuple's number, filed under the tuple's key, and each number's
tuple. The key of a tuple is its states written in decimal and joined by commas.
-/

namespace BitAutomata

/-- The key of a tuple: its states in decimal, joined by commas; the empty tuple has key `""`. -/
def Numbering.key (t : List State) : String :=
  ",".intercalate (t.map fun s => toString s.toInt)

/-- Tuples of states numbered in order of first arrival. -/
structure Numbering where
  /-- The number of each tuple seen so far, under the tuple's key. -/
  index : Std.ExtTreeMap String Nat := ∅
  /-- The tuples seen so far, the tuple numbered `i` at position `i`. -/
  tuples : Array (List State) := #[]
  deriving Inhabited

/-- The state that stands for the tuple with a given number. -/
def Numbering.state (i : Nat) : State :=
  Int64.ofNat i

namespace Numbering

/-- How many tuples have a number. -/
def size (n : Numbering) : Nat :=
  n.tuples.size

/-- The number of a tuple, if it has one. -/
def find? (n : Numbering) (t : List State) : Option Nat :=
  n.index.get? (key t)

/-- The tuple with a given number; the empty tuple for a number not given out. -/
def tuple (n : Numbering) (i : Nat) : List State :=
  n.tuples.getD i []

/-- Gives the next number to a tuple that has none. -/
def push (n : Numbering) (t : List State) : Numbering :=
  { index := n.index.insert (key t) n.size, tuples := n.tuples.push t }

/-- The number of a tuple: the one it already has, or else the next one, which it then keeps. -/
def encode (n : Numbering) (t : List State) : Nat × Numbering :=
  match n.find? t with
  | some i => (i, n)
  | none => (n.size, n.push t)

/-- The tuple a state stands for, if the state is a number given out. -/
def decode? (n : Numbering) (s : State) : Option (List State) :=
  if 0 ≤ s.toInt then n.tuples[s.toInt.toNat]? else none

end Numbering

end BitAutomata
