import BitAutomata.Run

/-!
# Enumerating accepted words

Over a list of `k` variables there are `2^k` letters: letter `i` sets the `j`-th variable to
bit `j` of `i` (a variable listed twice takes its last bit). Words are enumerated by length,
from `0` up to a maximum, and within one length in lexicographic order of letter indices,
the first position most significant. Enumeration up to a length `n ≥ 0` is refused when there
are more than twelve variables or more than `100000` words. Before any word is read the letters
are laid out in a table of `2^k` entries whose length is a signed 64-bit integer; a table whose
length is negative or whose bytes exceed `2^48` cannot be laid out, and enumeration is refused
then too, whatever the length.
-/

namespace BitAutomata

namespace Language

/-- Why an enumeration of words is refused. -/
inductive Refusal where
  /-- More than twelve variables, or more words than the most allowed. -/
  | tooManyWords
  /-- The table of letters cannot be laid out. -/
  | tableTooLarge
  deriving DecidableEq, Inhabited

/-- The most variables an enumeration may range over. -/
def maxVars : Nat := 12

/-- The most words an enumeration may visit. -/
def maxWords : Nat := 100000

/-- The letter with index `i`: the `j`-th variable gets bit `j` of `i`. -/
def letter (vs : List Var) (i : Nat) : Label :=
  vs.zipIdx.foldl (fun l e => l.insert e.1 (i.testBit e.2)) ∅

/-- Whether the number of words of length at most `n` over `p` letters, counted from
`total` words already seen and `p ^ k` words of the next length `k`, exceeds the most
allowed. -/
def countExceeds (p : Nat) : Nat → Nat → Nat → Bool
  | 0, total, pw => total + pw > maxWords
  | n + 1, total, pw => total + pw > maxWords || countExceeds p n (total + pw) (pw * p)

/-- Whether enumerating words over `k` variables up to length `n` is refused. A negative
length enumerates nothing and is never refused, whatever the number of variables. -/
def tooMany (k : Nat) (n : Int) : Bool :=
  decide (0 ≤ n) && (k > maxVars || countExceeds (Nat.pow 2 k) n.toNat 0 1)

/-- The length of the letter table over `k` variables as a signed 64-bit integer: `2 ^ k`
wrapped into the 64-bit range, so the least 64-bit integer at `k = 63` and `0` from `k = 64`
on. -/
def tableLength (k : Nat) : Int :=
  Int.bmod (Int.pow 2 k) (Nat.pow 2 64)

/-- The bytes one entry of the letter table takes. -/
def entryBytes : Nat := 8

/-- The most bytes one table may take. -/
def maxTableBytes : Nat := Nat.pow 2 48

/-- Whether the letter table over `k` variables can be laid out: its length is not negative
and its entries take at most the bytes one table may take. -/
def tableFits (k : Nat) : Bool :=
  decide (0 ≤ tableLength k) && decide (tableLength k * entryBytes ≤ maxTableBytes)

/-- Why enumerating words over `k` variables up to length `n` is refused, if it is: the count
of words is checked first, then the letter table. -/
def refusal? (k : Nat) (n : Int) : Option Refusal :=
  if tooMany k n then some .tooManyWords
  else if tableFits k then none
  else some .tableTooLarge

/-- The words of a length over `p` letters, in lexicographic order. -/
def words (p : Nat) : Nat → List (List Nat)
  | 0 => [[]]
  | n + 1 => (List.range p).flatMap fun i => (words p n).map (i :: ·)

end Language

namespace Automaton

/-- The words of one length with the states each reaches, extended by one letter: every word
followed by each letter in turn, so the lexicographic order is kept. -/
def extendLayer (a : Automaton) (letters : List (Nat × Label))
    (layer : List (List Nat × StateSet)) : List (List Nat × StateSet) :=
  layer.flatMap fun e => letters.map fun l => (e.1 ++ [l.1], a.table.read e.2 l.2)

/-- The given layer and the `n` layers that follow it, each extended from the one before. -/
def layersFrom (a : Automaton) (letters : List (Nat × Label)) :
    Nat → List (List Nat × StateSet) → List (List (List Nat × StateSet))
  | 0, layer => [layer]
  | n + 1, layer => layer :: a.layersFrom letters n (a.extendLayer letters layer)

/-- The words of each length from `0` to `n` over the given letters, with the states they
reach, shortest first. -/
def layers (a : Automaton) (letters : List (Nat × Label)) (n : Nat) :
    List (List (List Nat × StateSet)) :=
  a.layersFrom letters n [([], a.table.closure a.initial)]

/-- The accepted words of length at most `n` over the letters of the variables, in
enumeration order, together with the automaton left by running the last word; a negative
length enumerates nothing. -/
def wordsAccepted (a : Automaton) (vs : List Var) (n : Int) : List (List Nat) × Automaton :=
  let all := if n < 0 then []
    else (a.layers ((List.range (Nat.pow 2 vs.length)).map fun i => (i, Language.letter vs i)) n.toNat).flatten
  let accepted := all.filterMap fun e => if e.2.meets a.final then some e.1 else none
  match all.getLast? with
  | some e => (accepted, { a with current := e.2 })
  | none => (accepted, a)

/-- The accepted words of length at most `n` over the letters of the variables, with the
automaton left by running the last word, unless the enumeration is refused. -/
def language (a : Automaton) (vs : List Var) (n : Int) :
    Except Language.Refusal (List (List Nat) × Automaton) :=
  match Language.refusal? vs.length n with
  | some r => .error r
  | none => .ok (a.wordsAccepted vs n)

end Automaton

end BitAutomata
