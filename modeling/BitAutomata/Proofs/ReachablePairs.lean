import BitAutomata.Proofs.Product

/-!
# The states of a product are its reachable pairs

The product graph of two automata has the pairs of their states as nodes. From `(p, q)` a label
that both automata read leads to every pair of targets, and a silent arc of either automaton
moves that component alone (`ProductArc`). The product numbers exactly the pairs reachable in
this graph from the pairs of initial states (`productReach`): a numbered pair is reachable,
since reachable pairs are closed under moves, and a reachable pair is numbered, since every
numbered pair is expanded.

While at most `2 ^ 63` pairs are reachable, the states of the product are `0` to `n - 1` and
decoding maps them one to one onto the reachable pairs. Read through decoding, the initial
states are the pairs of initial states, the final states the pairs of final states, and the arcs
the arcs of the product graph (`intersect_states_are_reachable_pairs`).
-/

namespace BitAutomata

namespace Automaton

open Construction BitAutomata.Numbering Relation Std

variable {x y : Automaton} {p q : State} {m : Move} {t : List State}

section Graph

/-- An arc of the product graph from `(p, q)` to `(p', q')`: a label both automata read, with `p'`
and `q'` targets under it, or a silent arc of one automaton while the other stays put. -/
def ProductArc (x y : Automaton) (p q : State) (m : Move) (p' q' : State) : Prop :=
  (∃ l, m = .label l ∧ p' ∈ x.targets p m ∧ q' ∈ y.targets q m) ∨
    (m = .epsilon ∧ p' ∈ x.targets p .epsilon ∧ q' = q) ∨
    (m = .epsilon ∧ p' = p ∧ q' ∈ y.targets q .epsilon)

/-- A step of the product graph, along an arc of any move. -/
def ProductStep (x y : Automaton) (st st' : State × State) : Prop :=
  ∃ m, x.ProductArc y st.1 st.2 m st'.1 st'.2

/-- The pairs reachable in the product graph from a pair of initial states. -/
def productReach (x y : Automaton) : Set (State × State) :=
  {st | ∃ p ∈ x.initial, ∃ q ∈ y.initial, ReflTransGen (x.ProductStep y) (p, q) st}

/-- The tuples of the reachable pairs. -/
def ReachPair (x y : Automaton) (t : List State) : Prop :=
  ∃ st ∈ x.productReach y, [st.1, st.2] = t

/-- The successors the product lists for a pair are the arcs of the product graph. -/
theorem mem_pairMoves_iff_productArc :
    (m, t) ∈ x.pairMoves y p q ↔ ∃ p' q', t = [p', q'] ∧ x.ProductArc y p q m p' q' :=
  mem_pairMoves

theorem mem_pairSuccessors_of_productStep {st st' : State × State} (h : x.ProductStep y st st') :
    ∃ m, (m, [st'.1, st'.2]) ∈ x.pairSuccessors y [st.1, st.2] := by
  obtain ⟨m, hArc⟩ := h
  exact ⟨m, mem_pairMoves_iff_productArc.mpr ⟨_, _, rfl, hArc⟩⟩

/-- A pair reachable in the product graph is reached by the two automata on a common word. -/
theorem productReach_subset_pairRuns : x.productReach y ⊆ x.pairRuns y := by
  rintro st ⟨p, hp, q, hq, hReach⟩
  -- Each step moves along a letter both read, or along a silent arc of one of them.
  induction hReach with
  | refl => exact ⟨[], Table.mem_closure_of_mem hp, Table.mem_closure_of_mem hq⟩
  | @tail b c _ hStep ih =>
    obtain ⟨m, hMove⟩ := mem_pairSuccessors_of_productStep hStep
    obtain ⟨st', hst', hEq⟩ := pairRun_closed _ ⟨b, ih, rfl⟩ _ hMove
    simp only [List.cons.injEq, and_true] at hEq
    rwa [show c = st' from Prod.ext hEq.1.symm hEq.2.symm]

theorem encard_productReach_le :
    (x.productReach y).encard ≤ (x.reachBound.size * y.reachBound.size : ℕ) :=
  (Set.encard_le_encard productReach_subset_pairRuns).trans encard_pairRuns_le

theorem reachPair_closed : ∀ t, x.ReachPair y t → ∀ e ∈ x.pairSuccessors y t, x.ReachPair y e.2 := by
  rintro _ ⟨st, ⟨p, hp, q, hq, hReach⟩, rfl⟩ ⟨m, t'⟩ he
  obtain ⟨p', q', rfl, hArc⟩ := mem_pairMoves_iff_productArc.mp he
  exact ⟨(p', q'), ⟨p, hp, q, hq, hReach.tail ⟨m, hArc⟩⟩, rfl⟩

end Graph

section Construction

variable (recv : Automaton)

/-- The product numbers only reachable pairs, and expands all it numbers. -/
theorem explored_productConstruction_reach :
    Explored (x.pairFinal y) (x.pairSuccessors y) (x.ReachPair y) (productConstruction recv x y)
      (productConstruction recv x y).numbering.size [] := by
  refine explored_productConstruction_of recv x y ?_ reachPair_closed ?_
  · intro t ht
    obtain ⟨p, hp, q, hq, rfl⟩ := mem_initialPairs.mp ht
    exact ⟨(p, q), ⟨p, hp, q, hq, ReflTransGen.refl⟩, rfl⟩
  · rintro _ ⟨st, hst, rfl⟩
    exact ⟨st, productReach_subset_pairRuns hst, rfl⟩

/-- Every reachable pair is numbered: the path to it starts at a numbered initial pair and
follows successors. -/
theorem numbered_of_mem_productReach {st : State × State} (hst : st ∈ x.productReach y) :
    ∃ k, (productConstruction recv x y).numbering.find? [st.1, st.2] = some k := by
  obtain ⟨p, hp, q, hq, hReach⟩ := hst
  refine (explored_productConstruction_reach recv).numbered_of_reflTransGen
    (numbered_initial_productConstruction recv x y hp hq) ?_
  exact ReflTransGen.lift (p := fun t t' => ∃ m, (m, t') ∈ x.pairSuccessors y t)
    (fun st : State × State => [st.1, st.2])
    (fun _ _ hStep => mem_pairSuccessors_of_productStep hStep) _ _ hReach

/-- The numbered tuples are exactly the reachable pairs. -/
theorem image_tuple_productConstruction :
    (fun j => some ((productConstruction recv x y).numbering.tuple j)) ''
        Set.Iio (productConstruction recv x y).numbering.size =
      (fun st : State × State => some [st.1, st.2]) '' x.productReach y := by
  have hExp := explored_productConstruction_reach (x := x) (y := y) recv
  ext o
  constructor
  · rintro ⟨j, hj, rfl⟩
    obtain ⟨st, hst, hTuple⟩ := hExp.family j hj
    exact ⟨st, hst, congrArg some hTuple⟩
  · rintro ⟨st, hst, rfl⟩
    obtain ⟨k, hk⟩ := numbered_of_mem_productReach recv hst
    exact ⟨k, lt_size_of_find?_eq_some hExp.consistent hk,
      congrArg some (tuple_of_find?_eq_some hExp.consistent hk)⟩

/-- The product numbers at most as many pairs as are reachable. -/
theorem size_productConstruction_le_encard {B : ℕ} (hCap : (x.productReach y).encard ≤ B) :
    (productConstruction recv x y).numbering.size ≤ B := by
  have hExp := explored_productConstruction_reach (x := x) (y := y) recv
  refine size_le_of_forall hExp.consistent (fun L hL hP => ?_) hExp.family
  have hInj : Function.Injective fun st : State × State => [st.1, st.2] := by
    rintro ⟨p, q⟩ ⟨p', q'⟩ hEq
    simp only [List.cons.injEq, and_true] at hEq
    rw [hEq.1, hEq.2]
  have hLength := (length_le_encard_of_injective hInj hL hP).trans hCap
  exact_mod_cast hLength

end Construction

section Decoding

variable (recv : Automaton) {s u : State}
  (hSize : (productConstruction recv x y).numbering.size ≤ 2 ^ 63)
include hSize

/-- A state decodes to a pair exactly when it is the state of that numbered pair. -/
theorem decode?_productConstruction_eq_some_iff {a b : State} :
    (productConstruction recv x y).numbering.decode? s = some [a, b] ↔
      ∃ k, (productConstruction recv x y).numbering.find? [a, b] = some k ∧ state k = s := by
  have hConsistent := (explored_productConstruction_reach (x := x) (y := y) recv).consistent
  rw [decode?_eq_some_iff hSize]
  constructor
  · rintro ⟨k, hk, hs, hTuple⟩
    exact ⟨k, hTuple ▸ find?_tuple hConsistent hk, hs⟩
  · rintro ⟨k, hk, hs⟩
    exact ⟨k, lt_size_of_find?_eq_some hConsistent hk, hs, tuple_of_find?_eq_some hConsistent hk⟩

/-- Through decoding, the initial states of the product are the pairs of initial states. -/
theorem mem_initial_intersect_iff :
    s ∈ (recv.intersect x y).initial ↔ ∃ p ∈ x.initial, ∃ q ∈ y.initial,
      (productConstruction recv x y).numbering.decode? s = some [p, q] := by
  rw [intersect, mem_initial_productConstruction]
  simp only [decode?_productConstruction_eq_some_iff recv hSize]

/-- Through decoding, the final states of the product are the numbered pairs of final states. -/
theorem mem_final_intersect_iff :
    s ∈ (recv.intersect x y).final ↔ ∃ p ∈ x.final, ∃ q ∈ y.final,
      (productConstruction recv x y).numbering.decode? s = some [p, q] := by
  have hExp := explored_productConstruction_reach (x := x) (y := y) recv
  rw [intersect, hExp.mem_final_iff_decode? hSize]
  constructor
  · rintro ⟨t, hs, hFinal⟩
    -- A decoded tuple is a pair.
    obtain ⟨⟨p, q⟩, -, rfl⟩ := hExp.family_of_decode? hSize hs
    rw [pairFinal_pair] at hFinal
    exact ⟨p, hFinal.1, q, hFinal.2, hs⟩
  · rintro ⟨p, hp, q, hq, hs⟩
    exact ⟨[p, q], hs, by rw [pairFinal_pair]; exact ⟨hp, hq⟩⟩

/-- Through decoding, the arcs of the product are the arcs of the product graph between
numbered pairs. -/
theorem mem_targets_intersect_iff :
    u ∈ (recv.intersect x y).targets s m ↔ ∃ p q p' q',
      (productConstruction recv x y).numbering.decode? s = some [p, q] ∧
        (productConstruction recv x y).numbering.decode? u = some [p', q'] ∧
        x.ProductArc y p q m p' q' := by
  have hExp := explored_productConstruction_reach (x := x) (y := y) recv
  rw [intersect, hExp.mem_targets_iff_decode? hSize]
  constructor
  · rintro ⟨t, t', hs, hu, hMove⟩
    obtain ⟨⟨p, q⟩, -, rfl⟩ := hExp.family_of_decode? hSize hs
    obtain ⟨p', q', rfl, hArc⟩ := mem_pairMoves_iff_productArc.mp hMove
    exact ⟨p, q, p', q', hs, hu, hArc⟩
  · rintro ⟨p, q, p', q', hs, hu, hArc⟩
    exact ⟨[p, q], [p', q'], hs, hu, mem_pairMoves_iff_productArc.mpr ⟨p', q', rfl, hArc⟩⟩

end Decoding

/-- The product of `x` and `y` numbers the pairs reachable in the product graph: while at most
`2 ^ 63` pairs are reachable, its states are `0` to `n - 1`, decoding is a bijection from them
onto the reachable pairs, and through decoding the initial states are the pairs of initial
states (all current), the final states the pairs of final states, and the arcs exactly the arcs
of the product graph, each with a target. -/
theorem intersect_states_are_reachable_pairs (hCap : (x.productReach y).encard ≤ 2 ^ 63)
    (recv : Automaton) :
    (recv.intersect x y).states = ExtTreeSet.ofList
        ((List.range (productConstruction recv x y).numbering.size).map Int64.ofNat) ∧
      Set.BijOn (productConstruction recv x y).numbering.decode?
        {s | s ∈ (recv.intersect x y).states}
        ((fun st : State × State => some [st.1, st.2]) '' x.productReach y) ∧
      (∀ s, s ∈ (recv.intersect x y).initial ↔ ∃ p ∈ x.initial, ∃ q ∈ y.initial,
        (productConstruction recv x y).numbering.decode? s = some [p, q]) ∧
      (∀ s, s ∈ (recv.intersect x y).final ↔ ∃ p ∈ x.final, ∃ q ∈ y.final,
        (productConstruction recv x y).numbering.decode? s = some [p, q]) ∧
      (recv.intersect x y).current = (recv.intersect x y).initial ∧
      (∀ s m u, u ∈ (recv.intersect x y).targets s m ↔ ∃ p q p' q',
        (productConstruction recv x y).numbering.decode? s = some [p, q] ∧
          (productConstruction recv x y).numbering.decode? u = some [p', q'] ∧
          x.ProductArc y p q m p' q') ∧
      ∀ s m, m ∈ (recv.intersect x y).arcs s → ∃ u, u ∈ (recv.intersect x y).targets s m := by
  have hExp := explored_productConstruction_reach (x := x) (y := y) recv
  have hSize := size_productConstruction_le_encard recv (B := 2 ^ 63) (by exact_mod_cast hCap)
  have hBij := hExp.bijOn_decode? hSize
  rw [image_tuple_productConstruction] at hBij
  exact ⟨hExp.states_eq, hBij, fun _ => mem_initial_intersect_iff recv hSize,
    fun _ => mem_final_intersect_iff recv hSize, current_productConstruction recv x y,
    fun _ _ _ => mem_targets_intersect_iff recv hSize, hExp.arcs_nonempty⟩

/-- The theorem for a product built into its first operand, which moves silently before the
letter both automata read. -/
theorem intersect_states_are_reachable_pairs_through_silent_arc :
    let x := (((((Automaton.empty {}).addState 0).addState 1).addState 2).addEpsilon 0 1
      ).addTransition 1 ((∅ : Label).insert 0 true) 2 |>.markInitial 0 |>.markFinal 2
    let y := ((Automaton.empty {}).addState 0).addTransition 0 ((∅ : Label).insert 0 true) 0
      |>.markInitial 0 |>.markFinal 0
    (x.productReach y).encard ≤ 2 ^ 63 ∧
      (x.intersect x y).states = ExtTreeSet.ofList
        ((List.range (productConstruction x x y).numbering.size).map Int64.ofNat) ∧
      Set.BijOn (productConstruction x x y).numbering.decode?
        {s | s ∈ (x.intersect x y).states}
        ((fun st : State × State => some [st.1, st.2]) '' x.productReach y) ∧
      (∀ s, s ∈ (x.intersect x y).initial ↔ ∃ p ∈ x.initial, ∃ q ∈ y.initial,
        (productConstruction x x y).numbering.decode? s = some [p, q]) ∧
      (∀ s, s ∈ (x.intersect x y).final ↔ ∃ p ∈ x.final, ∃ q ∈ y.final,
        (productConstruction x x y).numbering.decode? s = some [p, q]) ∧
      (x.intersect x y).current = (x.intersect x y).initial ∧
      (∀ s m u, u ∈ (x.intersect x y).targets s m ↔ ∃ p q p' q',
        (productConstruction x x y).numbering.decode? s = some [p, q] ∧
          (productConstruction x x y).numbering.decode? u = some [p', q'] ∧
          x.ProductArc y p q m p' q') ∧
      ∀ s m, m ∈ (x.intersect x y).arcs s → ∃ u, u ∈ (x.intersect x y).targets s m := by
  intro x y
  have hSize : x.reachBound.size * y.reachBound.size ≤ 2 ^ 63 := by decide
  have hCap : (x.productReach y).encard ≤ 2 ^ 63 :=
    encard_productReach_le.trans (by exact_mod_cast hSize)
  exact ⟨hCap, intersect_states_are_reachable_pairs hCap x⟩

/-- There the initial pair `(0, 0)` is state `0`, the silent arc of the first automaton leads to
the pair `(1, 0)`, state `1`, and the letter from there to the final pair `(2, 0)`, state `2`. -/
example :
    let x := (((((Automaton.empty {}).addState 0).addState 1).addState 2).addEpsilon 0 1
      ).addTransition 1 ((∅ : Label).insert 0 true) 2 |>.markInitial 0 |>.markFinal 2
    let y := ((Automaton.empty {}).addState 0).addTransition 0 ((∅ : Label).insert 0 true) 0
      |>.markInitial 0 |>.markFinal 0
    (productConstruction x x y).numbering.decode? 1 = some [1, 0] ∧
      (productConstruction x x y).numbering.decode? 2 = some [2, 0] ∧
      (2 : State) ∈ (x.intersect x y).final := by
  decide +kernel

end Automaton

end BitAutomata
