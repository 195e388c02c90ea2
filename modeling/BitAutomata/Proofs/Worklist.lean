import BitAutomata.Proofs.Product
import BitAutomata.Proofs.Subset

/-!
# The worklist drains

A construction keeps its queue of tuples to expand implicitly: the numbers from the one being
expanded up to the numbering's size. `Worklist` makes the queue explicit, with no fuel: the head
is dequeued and its tuple expanded, and the numbers given to tuples first met meanwhile go to the
back. A run records the numbers dequeued and the numbers enqueued, and since the queue is first
in, first out, the numbers dequeued are the starting queue followed by those enqueued
(`Worklist.taken_eq`).

While the tuples met lie in a family with at most `B` distinct members, exploring with fuel
beyond `B` is such a run that ends with the queue empty (`worklist_exploreWithin`): every number
is dequeued once, in order. So the product and the subset constructions drain their queues,
with every number given out enqueued once and dequeued once (`Construction.Drains`), and have at
most as many states as there are pairs, or sets, of states that runs can reach
(`worklists_drain_within_bounds`).
-/

namespace BitAutomata

namespace Numbering

variable {n n' : Numbering}

/-- A numbering that extends a consistent one numbers at least as many tuples. -/
theorem Extends.size_le (hn : n.Consistent) (h : n.Extends n') : n.size ≤ n'.size := by
  cases hSize : n.size with
  | zero => exact Nat.zero_le _
  | succ k =>
    -- The last tuple keeps its number `k`, which the new numbering must hold.
    have hk : k < n.size := by omega
    have hFind := h.2 _ _ (find?_tuple hn hk)
    exact lt_size_of_find?_eq_some h.1 hFind

end Numbering

namespace Construction

open BitAutomata.Numbering

variable {isFinal : List State → Bool} {next : List State → List (Move × List State)}
  {P : List State → Prop} {c c' : Construction} {i : Nat}

/-- The worklist loop with its queue made explicit, run until the queue is empty:
`Worklist isFinal next c q taken added c'` says that from `c` with queue `q` the loop ends at
`c'`, dequeuing the numbers `taken` in turn and enqueuing the numbers `added` in turn. -/
inductive Worklist (isFinal : List State → Bool) (next : List State → List (Move × List State)) :
    Construction → List Nat → List Nat → List Nat → Construction → Prop
  /-- An empty queue ends the loop. -/
  | done (c : Construction) : Worklist isFinal next c [] [] [] c
  /-- The head is dequeued and its tuple expanded; the tuples first met while expanding it get
  the next numbers, which go to the back of the queue. -/
  | step {c : Construction} {i : Nat} {q taken added : List Nat} {c' : Construction} :
      Worklist isFinal next (c.expand isFinal next i)
        (q ++ List.range' c.numbering.size
          ((c.expand isFinal next i).numbering.size - c.numbering.size)) taken added c' →
      Worklist isFinal next c (i :: q) (i :: taken)
        (List.range' c.numbering.size
          ((c.expand isFinal next i).numbering.size - c.numbering.size) ++ added) c'

/-- First in, first out: the numbers dequeued are the starting queue, then those enqueued. -/
theorem Worklist.taken_eq {q taken added : List Nat}
    (h : Worklist isFinal next c q taken added c') : taken = q ++ added := by
  induction h with
  | done => rfl
  | step _ ih => simp [ih]

/-- From `c`, with every tuple numbered so far in the queue, the loop runs to `c'`: it dequeues
every number of `c'` once, in order, and enqueues every number given out on the way once, in
order. -/
def Drains (isFinal : List State → Bool) (next : List State → List (Move × List State))
    (c c' : Construction) : Prop :=
  Worklist isFinal next c (List.range c.numbering.size) (List.range c'.numbering.size)
    (List.range' c.numbering.size (c'.numbering.size - c.numbering.size)) c'

theorem size_le_size_expand (hn : c.numbering.Consistent) :
    c.numbering.size ≤ (c.expand isFinal next i).numbering.size :=
  Extends.size_le hn (extends_expand hn)

theorem size_le_size_exploreWithin (hn : c.numbering.Consistent) (fuel : Nat) :
    c.numbering.size ≤ (exploreWithin isFinal next fuel c i).numbering.size :=
  Extends.size_le hn (extends_exploreWithin fuel c i hn)

/-- The numbers from `a` below `d`, split at `b`. -/
theorem range'_split {a b d : Nat} (hab : a ≤ b) (hbd : b ≤ d) :
    List.range' a (d - a) = List.range' a (b - a) ++ List.range' b (d - b) := by
  have hSum : d - a = (b - a) + (d - b) := by omega
  rw [hSum, ← List.range'_append]
  congr 2
  omega

theorem range'_eq_cons {a d : Nat} (had : a < d) :
    List.range' a (d - a) = a :: List.range' (a + 1) (d - (a + 1)) :=
  List.range'_eq_cons_iff.mpr ⟨rfl, by omega, by rw [Nat.sub_sub]⟩

/-- One dequeue, on queues of consecutive numbers: a run from `c` expanded at `i`, with the
numbers from `i + 1` up to its size queued, is a run from `c` with the numbers from `i` queued. -/
theorem Worklist.expand_step {N : Nat} (hi : i < c.numbering.size)
    (hGrow : c.numbering.size ≤ (c.expand isFinal next i).numbering.size)
    (hEnd : (c.expand isFinal next i).numbering.size ≤ N)
    (h : Worklist isFinal next (c.expand isFinal next i)
      (List.range' (i + 1) ((c.expand isFinal next i).numbering.size - (i + 1)))
      (List.range' (i + 1) (N - (i + 1)))
      (List.range' (c.expand isFinal next i).numbering.size
        (N - (c.expand isFinal next i).numbering.size)) c') :
    Worklist isFinal next c (List.range' i (c.numbering.size - i)) (List.range' i (N - i))
      (List.range' c.numbering.size (N - c.numbering.size)) c' := by
  -- The rest of the old queue and the numbers given out make the queue after the dequeue.
  rw [range'_eq_cons hi, range'_eq_cons (show i < N by omega), range'_split hGrow hEnd]
  refine Worklist.step ?_
  rw [← range'_split (by omega) hGrow]
  exact h

/-- With fuel beyond the number of distinct tuples of the family, exploring from `i` is a run of
the worklist loop from the queue of the numbers from `i` up, which dequeues every number from `i`
up to the final size once, in order, and enqueues every number given out on the way. -/
theorem worklist_exploreWithin (hClosed : ∀ t, P t → ∀ e ∈ next t, P e.2) {B : Nat}
    (hBound : ∀ L : List (List State), L.Nodup → (∀ t ∈ L, P t) → L.length ≤ B) :
    ∀ fuel c i, B < fuel + i → Explored isFinal next P c i [] →
      Worklist isFinal next c (List.range' i (c.numbering.size - i))
        (List.range' i ((exploreWithin isFinal next fuel c i).numbering.size - i))
        (List.range' c.numbering.size
          ((exploreWithin isFinal next fuel c i).numbering.size - c.numbering.size))
        (exploreWithin isFinal next fuel c i) := by
  intro fuel
  induction fuel with
  | zero =>
    intro c i hFuel h
    -- Out of fuel, the expanded count would exceed the bound on the numbered count.
    have hSize := size_le_of_forall h.consistent hBound h.family
    have := h.le_size
    omega
  | succ fuel ih =>
    intro c i hFuel h
    rw [exploreWithin]
    split
    · rename_i hi
      have hExpand := explored_expand hClosed h hi
      exact Worklist.expand_step hi (size_le_size_expand h.consistent)
        (size_le_size_exploreWithin hExpand.consistent fuel) (ih _ _ (by omega) hExpand)
    · rename_i hi
      have hEq : i = c.numbering.size := by
        have := h.le_size
        omega
      subst hEq
      simpa using Worklist.done c

/-- The states of a construction are at most as many as the tuples it numbered. -/
theorem Explored.size_states_le {done : List (Move × List State)}
    (h : Explored isFinal next P c i done) : c.auto.states.size ≤ c.numbering.size := by
  rw [h.states_eq]
  calc _ ≤ ((List.range c.numbering.size).map Int64.ofNat).length := Std.ExtTreeSet.size_ofList_le
    _ = c.numbering.size := by rw [List.length_map, List.length_range]

/-- Exploring from a start with fuel beyond the number `B` of distinct tuples of the family
drains the queue, and builds at most `B` states. -/
theorem drains_exploreWithin (hClosed : ∀ t, P t → ∀ e ∈ next t, P e.2) {B : Nat}
    (hBound : ∀ L : List (List State), L.Nodup → (∀ t ∈ L, P t) → L.length ≤ B)
    (hStart : Explored isFinal next P c 0 []) :
    Drains isFinal next c (exploreWithin isFinal next (B + 1) c 0) ∧
      (exploreWithin isFinal next (B + 1) c 0).auto.states.size ≤ B := by
  have hRun := worklist_exploreWithin hClosed hBound (B + 1) c 0 (by omega) hStart
  have hEnd := explored_exploreWithin hClosed hBound (B + 1) c 0 (by omega) hStart
  refine ⟨?_, hEnd.size_states_le.trans (size_le_of_forall hEnd.consistent hBound hEnd.family)⟩
  rw [Drains, List.range_eq_range', List.range_eq_range']
  simpa only [Nat.sub_zero] using hRun

end Construction

namespace Automaton

open Construction

/-- The product construction once the initial pairs are met, before any is expanded. -/
def productStart (recv x y : Automaton) : Construction :=
  (x.initialPairs y).foldl (fun c t => c.start (x.pairFinal y) t)
    { auto := { recv.clear with alphabet := x.alphabet } }

/-- The subset construction once the set of initial states is met, before it is expanded; with
no initial state nothing is met. -/
def subsetStart (recv nfa : Automaton) : Construction :=
  if nfa.initial.isEmpty then { auto := { recv.clear with alphabet := nfa.alphabet } }
  else ({ auto := { recv.clear with alphabet := nfa.alphabet } } : Construction).start
    nfa.subsetFinal nfa.initial.toList

variable (recv : Automaton) {x y a : Automaton}

theorem productConstruction_eq_exploreWithin : productConstruction recv x y =
    exploreWithin (x.pairFinal y) (x.pairSuccessors y) (x.reachBound.size * y.reachBound.size + 1)
      (productStart recv x y) 0 :=
  productConstruction_eq recv x y

/-- The product construction drains its queue from the initial pairs, and builds at most as many
states as there are pairs of states that runs can reach. -/
theorem productConstruction_drains :
    Drains (x.pairFinal y) (x.pairSuccessors y) (productStart recv x y)
        (productConstruction recv x y) ∧
      (productConstruction recv x y).auto.states.size ≤ x.reachBound.size * y.reachBound.size := by
  rw [productConstruction_eq_exploreWithin]
  exact drains_exploreWithin pairRun_closed (fun _ => length_le_of_forall_pairRun)
    (startedFrom_initialPairs recv x y).1

theorem subsetConstruction_eq_exploreWithin : subsetConstruction recv a =
    exploreWithin a.subsetFinal a.subsetSuccessors (2 ^ a.reachBound.size + 1)
      (subsetStart recv a) 0 := by
  by_cases hInit : a.initial = ∅
  · -- Nothing is met, so there is nothing to explore.
    rw [subsetConstruction_of_eq_empty recv hInit, exploreWithin]
    simp [subsetStart, hInit, Numbering.size]
  · rw [subsetConstruction_of_ne_empty recv hInit]
    simp [subsetStart, Std.ExtTreeSet.isEmpty_iff, hInit]

theorem explored_subsetStart (h : a.hasEpsilon = false) :
    Explored a.subsetFinal a.subsetSuccessors a.RunList (subsetStart recv a) 0 [] := by
  by_cases hInit : a.initial = ∅
  · simpa [subsetStart, hInit] using explored_empty rfl rfl rfl
  · simpa [subsetStart, Std.ExtTreeSet.isEmpty_iff, hInit] using
      (explored_start (explored_empty rfl rfl rfl) (runList_initial h hInit)).1

/-- Without silent arcs, the subset construction drains its queue from the set of initial
states, and builds at most as many states as there are sets of states that runs can reach. -/
theorem subsetConstruction_drains (h : a.hasEpsilon = false) :
    Drains a.subsetFinal a.subsetSuccessors (subsetStart recv a) (subsetConstruction recv a) ∧
      (subsetConstruction recv a).auto.states.size ≤ 2 ^ a.reachBound.size := by
  rw [subsetConstruction_eq_exploreWithin]
  exact drains_exploreWithin (runList_closed h) (fun _ => length_le_of_runList)
    (explored_subsetStart recv h)

/-- The worklist loops of the product and of determinizing end for all automata: each drains its
queue, every number given out being enqueued once and dequeued once. The product has at most as
many states as there are pairs of initial states and targets of the two automata, and the
determinized automaton at most as many as there are sets of initial states and targets of the
automaton with its silent arcs removed. -/
theorem worklists_drain_within_bounds (recv x y src : Automaton) :
    Drains (x.pairFinal y) (x.pairSuccessors y) (productStart recv x y)
        (productConstruction recv x y) ∧
      (recv.intersect x y).states.size ≤ x.reachBound.size * y.reachBound.size ∧
      Drains src.eliminateEpsilon.subsetFinal src.eliminateEpsilon.subsetSuccessors
        (subsetStart recv src.eliminateEpsilon) (subsetConstruction recv src.eliminateEpsilon) ∧
      (recv.determinize src).states.size ≤ 2 ^ src.eliminateEpsilon.reachBound.size := by
  have hProduct := productConstruction_drains recv (x := x) (y := y)
  have hSubset := subsetConstruction_drains recv (hasEpsilon_eliminateEpsilon (a := src))
  exact ⟨hProduct.1, hProduct.2, hSubset.1, hSubset.2⟩

end Automaton

end BitAutomata
