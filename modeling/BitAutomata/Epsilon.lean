import BitAutomata.Run

/-!
# Removing silent arcs

Silent arcs are removed without changing the language read from any state: each state takes
over the label arcs of every state it reaches by silent moves, and becomes final when one of
them is final. Only moves between states count here: a silent target that is not a state is
neither entered nor followed. The silent reach of every state is taken first, by a depth-first
search that numbers the states densely and marks the numbers of the states it meets; the states
then absorb their reach one after another, in ascending order and in place, so a state may take
over arcs and final marks that an earlier state has just absorbed. Afterwards no source keeps a
silent arc.
-/

namespace BitAutomata

/-- The dense numbering of a set of states: each member's position in ascending order. -/
def StateSet.denseIndex (S : StateSet) : Std.ExtTreeMap State Nat :=
  Std.ExtTreeMap.ofList S.toList.zipIdx

/-- A depth-first search along silent arcs, part way through. -/
structure SilentSearch where
  /-- The numbers of the states met so far. -/
  visited : Std.ExtTreeSet Nat
  /-- The states met and not yet expanded, the top of the stack first. -/
  stack : List State
  /-- The states expanded so far, in the order they were. -/
  out : List State

namespace SilentSearch

variable {index : Std.ExtTreeMap State Nat}

/-- How many numbered states have a number not yet marked. -/
def unmarked (index : Std.ExtTreeMap State Nat) (visited : Std.ExtTreeSet Nat) : Nat :=
  index.toList.countP fun e => !visited.contains e.2

/-- Meets a silent target: a state whose number is not yet marked is marked and pushed; a target
without a number, or whose number is marked, is passed over. -/
def push (index : Std.ExtTreeMap State Nat) (σ : SilentSearch) (t : State) : SilentSearch :=
  match index[t]? with
  | none => σ
  | some i =>
    if σ.visited.contains i then σ
    else { σ with visited := σ.visited.insert i, stack := t :: σ.stack }

/-- Expands a state taken off the stack: the state is output, then its silent targets are met in
ascending order. -/
def expand (a : Automaton) (index : Std.ExtTreeMap State Nat) (σ : SilentSearch) (n : State) :
    SilentSearch :=
  (a.targets n .epsilon).toList.foldl (push index) { σ with out := σ.out ++ [n] }

/-- Marking the number of a state that was not marked leaves fewer numbered states unmarked. -/
theorem unmarked_insert_lt {visited : Std.ExtTreeSet Nat} {t : State} {i : Nat}
    (ht : index[t]? = some i) (hi : visited.contains i = false) :
    unmarked index (visited.insert i) < unmarked index visited := by
  obtain ⟨l₁, l₂, hSplit⟩ :=
    List.append_of_mem (Std.ExtTreeMap.mem_toList_iff_getElem?_eq_some.mpr ht)
  have hMono : ∀ l : List (State × Nat), l.countP (fun e => !(visited.insert i).contains e.2) ≤
      l.countP fun e => !visited.contains e.2 :=
    fun l => List.countP_mono_left fun e _ => by simp_all
  have hp : (!(visited.insert i).contains (t, i).2) = false := by simp
  have hq : (!visited.contains (t, i).2) = true := by simp [hi]
  have h₁ := hMono l₁
  have h₂ := hMono l₂
  rw [unmarked, unmarked, hSplit, List.countP_append, List.countP_append, List.countP_cons,
    List.countP_cons, hp, hq]
  simp only [Bool.false_eq_true, if_false, if_true]
  omega

/-- A push marks a new number for each state it puts on the stack. -/
theorem push_pending_le (σ : SilentSearch) (t : State) :
    unmarked index (σ.push index t).visited + (σ.push index t).stack.length ≤
      unmarked index σ.visited + σ.stack.length := by
  unfold push
  split
  · exact Nat.le_refl _
  · rename_i i ht
    split
    · exact Nat.le_refl _
    · rename_i hi
      have hLess := unmarked_insert_lt ht (Bool.eq_false_iff.mpr hi)
      simp only [List.length_cons]
      omega

/-- Expanding a state adds no more to the stack than it marks. -/
theorem expand_pending_le (a : Automaton) (σ : SilentSearch) (n : State) :
    unmarked index (σ.expand a index n).visited + (σ.expand a index n).stack.length ≤
      unmarked index σ.visited + σ.stack.length := by
  unfold expand
  generalize (a.targets n .epsilon).toList = ts
  suffices h : ∀ τ : SilentSearch, unmarked index (ts.foldl (push index) τ).visited +
      (ts.foldl (push index) τ).stack.length ≤ unmarked index τ.visited + τ.stack.length from h _
  induction ts with
  | nil => exact fun _ => Nat.le_refl _
  | cons t ts ih => exact fun τ => Nat.le_trans (ih _) (push_pending_le τ t)

end SilentSearch

namespace Automaton

/-- Runs a search until its stack is empty, and gives the states in the order they were expanded.
Each state pushed has a number that was not marked, so the unmarked numbers and the states on the
stack together drop with every state expanded. -/
def searchSilent (a : Automaton) (index : Std.ExtTreeMap State Nat) : SilentSearch → List State
  | ⟨_, [], out⟩ => out
  | ⟨visited, n :: rest, out⟩ =>
    a.searchSilent index (SilentSearch.expand a index ⟨visited, rest, out⟩ n)
termination_by σ => SilentSearch.unmarked index σ.visited + σ.stack.length
decreasing_by
  have hLe := @SilentSearch.expand_pending_le index a ⟨visited, rest, out⟩ n
  dsimp only at hLe ⊢
  simp only [List.length_cons]
  omega

/-- The states reached from `s` by silent moves, `s` first, found depth first over the numbering
`index`: a silent target without a number is not entered, and a state whose number is marked is
not pushed again. A start without a number marks number `0`, the number a missing key reads. -/
def epsilonReach (a : Automaton) (s : State) (index : Std.ExtTreeMap State Nat) : List State :=
  a.searchSilent index { visited := {index.getD s 0}, stack := [s], out := [] }

/-- `s` takes over the label arcs of `t` as they stand, and becomes final when `t` is. -/
def absorb (a : Automaton) (s t : State) : Automaton :=
  { a with
    final := if a.final.contains t then a.final.insert s else a.final
    table := a.table.insert s ((a.arcs s).join ((a.arcs t).erase .epsilon)) }

/-- The table without silent arcs; a source left without arcs keeps its empty map. -/
def labelTable (a : Automaton) : Table :=
  a.table.map fun _ arcs => arcs.erase .epsilon

/-- Removes silent arcs, keeping the language read from every state. The states are numbered
densely; each state in ascending order absorbs every other state of its silent reach in `a`, in
the order the search found them; the silent arcs go last. An automaton without silent arcs is
left as it is. -/
def eliminateEpsilon (a : Automaton) : Automaton :=
  if a.hasEpsilon then
    let index := a.states.denseIndex
    let b := a.states.foldl (fun b s =>
      (a.epsilonReach s index).foldl (fun b t => if t = s then b else b.absorb s t) b) a
    { b with table := b.labelTable }
  else a

end Automaton

end BitAutomata
