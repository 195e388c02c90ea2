import Std.Data.ExtTreeMap
import Std.Data.ExtTreeSet

/-!
# Labels

A label is a finite assignment of booleans to variables; an automaton reads one label per
letter. Variables are unsigned 64-bit indices. Labels are compared through their key: the
variables in ascending order, each written as `v:1` or `v:0`, joined by commas. Two labels
are the same letter exactly when their keys agree.
-/

namespace BitAutomata

/-- A variable of a label: an unsigned 64-bit index. -/
abbrev Var := UInt64

/-- A finite set of variables, iterated in ascending order. -/
abbrev VarSet := Std.ExtTreeSet Var

/-- A label assigns a boolean to every variable of its domain. -/
abbrev Label := Std.ExtTreeMap Var Bool

namespace Label

/-- One assignment written as the variable in decimal, a colon and `1` or `0`. -/
def entryKey (v : Var) (b : Bool) : String :=
  toString v.toNat ++ ":" ++ (if b then "1" else "0")

/-- The assignments of a label in ascending variable order, each as its text. -/
def entryKeys (l : Label) : List String :=
  l.toList.map fun e => entryKey e.1 e.2

/-- The key of a label: its assignments joined by commas; the empty label has key `""`. -/
def key (l : Label) : String :=
  ",".intercalate l.entryKeys

/-- The display form of a label: its assignments between brackets, separated by spaces. -/
def text (l : Label) : String :=
  "[" ++ " ".intercalate l.entryKeys ++ "]"

/-- The variables that a label assigns. -/
def domain (l : Label) : VarSet :=
  Std.ExtTreeSet.ofList l.keys

/-- A label matches an alphabet when it assigns exactly the alphabet's variables: it assigns as
many variables as the alphabet has, and each of them is in the alphabet. -/
def hasDomain (l : Label) (vs : VarSet) : Bool :=
  l.size == vs.size && l.keys.all fun v => vs.contains v

/-- Every total label over the given variables. Each variable in turn doubles the list:
every label so far is followed first by its extension with `false`, then with `true`. -/
def all (vs : List Var) : List Label :=
  vs.foldl (fun out v => out.flatMap fun l => [l.insert v false, l.insert v true]) [∅]

end Label

/-- The text of a set of variables: decimal numbers between brackets, separated by spaces. -/
def VarSet.text (vs : VarSet) : String :=
  "[" ++ " ".intercalate (vs.toList.map fun v => toString v.toNat) ++ "]"

end BitAutomata
