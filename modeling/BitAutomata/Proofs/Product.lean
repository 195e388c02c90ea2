import BitAutomata.Product
import BitAutomata.Proofs.Closure
import BitAutomata.Proofs.Construction
import BitAutomata.Proofs.WellFormed

/-!
# The product of two automata

From a pair of states the product moves on a label that both automata read, to every pair of
targets, and on a silent arc of either automaton, which moves that component alone
(`mem_pairMoves`). The pairs it numbers are therefore pairs of states the two automata reach on
a common word (`pairRuns`), at most as many as the pairs of states runs can reach at all, so the
fuel of the construction suffices.

While at most `2 ^ 64` pairs are reached on common words, pair states are distinct, and a set of
pair states that stands for all pairs of two sets of states (`Pairs`) keeps doing so through the
silent closure and through a letter: the closure of a product of sets is the product of the
closures. Hence a run of the product stands for all pairs of states the two runs reach
(`pairs_reach`), and the product accepts exactly the words both automata accept.
-/

namespace BitAutomata

namespace Move

@[simp]
theorem isEpsilon_label (l : Label) : (Move.label l).isEpsilon = false := rfl

@[simp]
theorem isEpsilon_epsilon : Move.epsilon.isEpsilon = true := rfl

end Move

namespace Automaton

open Construction BitAutomata.Numbering Relation Std

variable {x y : Automaton} {p q : State} {m : Move} {t : List State} {w : List Label}

section PairMoves

/-- The targets a move of an automaton has, through a lookup of its arcs. -/
theorem targets_of_getElem?_eq_some {us : StateSet} (h : (y.arcs q)[m]? = some us) :
    y.targets q m = us := by
  change (y.arcs q).targets m = us
  rw [Arcs.targets_eq_getD_getElem?, h]
  rfl

/-- From `(p, q)` the product reads a label both automata read, to every pair of their targets;
a silent arc of either automaton moves that component alone. -/
theorem mem_pairMoves : (m, t) ∈ x.pairMoves y p q ↔ ∃ a b, t = [a, b] ∧
    ((∃ l, m = .label l ∧ a ∈ x.targets p m ∧ b ∈ y.targets q m) ∨
      (m = .epsilon ∧ a ∈ x.targets p .epsilon ∧ b = q) ∨
      (m = .epsilon ∧ a = p ∧ b ∈ y.targets q .epsilon)) := by
  unfold pairMoves
  simp only [List.mem_append, List.mem_map, ExtTreeSet.mem_toList, Prod.mk.injEq,
    ExtTreeMap.get?_eq_getElem?]
  constructor
  · rintro ((hShared | ⟨a, ha, rfl, rfl⟩) | ⟨b, hb, rfl, rfl⟩)
    · -- A shared arc: the move is not silent and both automata read it.
      obtain ⟨⟨m', ts⟩, hArc, hIn⟩ := List.mem_flatMap.mp hShared
      have hTs : x.targets p m' = ts := Arcs.targets_of_mem_toList hArc
      rcases Move.eq_epsilon_or_eq_label m' with rfl | ⟨l, rfl⟩
      · simp at hIn
      · cases hGet : (y.arcs q)[Move.label l]? with
        | none => simp [hGet] at hIn
        | some us =>
          simp only [Move.isEpsilon_label, hGet, List.mem_flatMap, List.mem_map,
            ExtTreeSet.mem_toList, Prod.mk.injEq] at hIn
          obtain ⟨a, ha, b, hb, rfl, rfl⟩ := hIn
          refine ⟨a, b, rfl, Or.inl ⟨l, rfl, hTs ▸ ha, ?_⟩⟩
          rw [targets_of_getElem?_eq_some hGet]
          exact hb
    · exact ⟨a, q, rfl, Or.inr (Or.inl ⟨rfl, ha, rfl⟩)⟩
    · exact ⟨p, b, rfl, Or.inr (Or.inr ⟨rfl, rfl, hb⟩)⟩
  · rintro ⟨a, b, rfl, ⟨l, rfl, ha, hb⟩ | ⟨rfl, ha, rfl⟩ | ⟨rfl, rfl, hb⟩⟩
    · -- Both automata have an arc for the label, with the targets in their entries.
      obtain ⟨ts, hArc, ha⟩ := Arcs.mem_targets_iff_exists_mem_toList.mp ha
      obtain ⟨us, hArcY, hb⟩ := Arcs.mem_targets_iff_exists_mem_toList.mp hb
      have hGet : (y.arcs q)[Move.label l]? = some us :=
        ExtTreeMap.mem_toList_iff_getElem?_eq_some.mp hArcY
      refine Or.inl (Or.inl (List.mem_flatMap.mpr ⟨(Move.label l, ts), hArc, ?_⟩))
      simp only [Move.isEpsilon_label, hGet, List.mem_flatMap, List.mem_map,
        ExtTreeSet.mem_toList, Prod.mk.injEq]
      exact ⟨a, ha, b, hb, by simp⟩
    · exact Or.inl (Or.inr ⟨a, ha, rfl, rfl⟩)
    · exact Or.inr ⟨b, hb, rfl, rfl⟩

end PairMoves

section Family

/-- The pairs of states that the two automata reach on a common word. -/
def pairRuns (x y : Automaton) : Set (State × State) :=
  {st | ∃ w, st.1 ∈ x.reach w ∧ st.2 ∈ y.reach w}

/-- The tuples a product numbers: pairs reached on a common word. -/
def PairRun (x y : Automaton) (t : List State) : Prop :=
  ∃ st ∈ x.pairRuns y, [st.1, st.2] = t

theorem pairRun_initial (hp : p ∈ x.initial) (hq : q ∈ y.initial) : x.PairRun y [p, q] :=
  ⟨(p, q), ⟨[], Table.mem_closure_of_mem hp, Table.mem_closure_of_mem hq⟩, rfl⟩

/-- A successor of a pair reached on a common word is reached on the same word, after a silent
arc, or on the word extended by the label. -/
theorem pairRun_closed : ∀ t, x.PairRun y t → ∀ e ∈ x.pairSuccessors y t, x.PairRun y e.2 := by
  rintro _ ⟨⟨p, q⟩, ⟨w, hp, hq⟩, rfl⟩ ⟨m, t⟩ he
  obtain ⟨a, b, rfl, hMove⟩ := mem_pairMoves.mp he
  rcases hMove with ⟨l, rfl, ha, hb⟩ | ⟨rfl, ha, rfl⟩ | ⟨rfl, rfl, hb⟩
  · exact ⟨(a, b), ⟨w ++ [l], mem_reach_append_of_mem_targets hp ha,
      mem_reach_append_of_mem_targets hq hb⟩, rfl⟩
  · exact ⟨(a, b), ⟨w, mem_reach_of_silent hp ha, hq⟩, rfl⟩
  · exact ⟨(a, b), ⟨w, hp, mem_reach_of_silent hq hb⟩, rfl⟩

/-- Pairs reached on common words are pairs of states runs can reach. -/
theorem encard_pairRuns_le :
    (x.pairRuns y).encard ≤ (x.reachBound.size * y.reachBound.size : ℕ) := by
  have hSub : x.pairRuns y ⊆ (x.reachBound.toFinset ×ˢ y.reachBound.toFinset : Finset _) := by
    rintro ⟨p, q⟩ ⟨w, hp, hq⟩
    simp only [Finset.coe_product, Set.mem_prod, Finset.mem_coe, StateSet.mem_toFinset]
    exact ⟨mem_initial_union_targetSet_of_mem_reach hp, mem_initial_union_targetSet_of_mem_reach hq⟩
  calc (x.pairRuns y).encard
      ≤ ((x.reachBound.toFinset ×ˢ y.reachBound.toFinset : Finset _) : Set (State × State)).encard :=
        Set.encard_le_encard hSub
    _ = (x.reachBound.size * y.reachBound.size : ℕ) := by
        rw [Set.encard_coe_eq_coe_finsetCard, Finset.card_product, StateSet.card_toFinset,
          StateSet.card_toFinset]

/-- Distinct numbered pairs are at most as many as the pairs reached on common words. -/
theorem length_le_of_pairRun {L : List (List State)} (hL : L.Nodup)
    (hP : ∀ t ∈ L, x.PairRun y t) : (L.length : ℕ∞) ≤ (x.pairRuns y).encard := by
  have hInj : Function.Injective fun st : State × State => [st.1, st.2] := by
    rintro ⟨p, q⟩ ⟨p', q'⟩ hEq
    simp only [List.cons.injEq, and_true] at hEq
    rw [hEq.1, hEq.2]
  exact length_le_encard_of_injective hInj hL hP

/-- The fuel of the product construction exceeds the number of pairs it can number. -/
theorem length_le_of_forall_pairRun {L : List (List State)} (hL : L.Nodup)
    (hP : ∀ t ∈ L, x.PairRun y t) : L.length ≤ x.reachBound.size * y.reachBound.size := by
  have hLength := (length_le_of_pairRun hL hP).trans encard_pairRuns_le
  exact_mod_cast hLength

/-- The initial pairs of a product: each initial state of the first automaton, ascending, with
each initial state of the second. -/
def initialPairs (x y : Automaton) : List (List State) :=
  x.initial.toList.flatMap fun p => y.initial.toList.map fun q => [p, q]

theorem mem_initialPairs : t ∈ x.initialPairs y ↔ ∃ p ∈ x.initial, ∃ q ∈ y.initial, [p, q] = t := by
  simp [initialPairs, ExtTreeSet.mem_toList]

theorem pairRun_of_mem_initialPairs (ht : t ∈ x.initialPairs y) : x.PairRun y t := by
  obtain ⟨p, hp, q, hq, rfl⟩ := mem_initialPairs.mp ht
  exact pairRun_initial hp hq

theorem pairFinal_pair {a b : State} : x.pairFinal y [a, b] = true ↔ a ∈ x.final ∧ b ∈ y.final := by
  simp [pairFinal, ExtTreeSet.contains_iff_mem]

end Family

/-- A set `S` of pair states stands for all pairs of `X × Y`. -/
structure Pairs (c : Construction) (S X Y : StateSet) : Prop where
  /-- Every pair of `X × Y` is numbered. -/
  numbered : ∀ a ∈ X, ∀ b ∈ Y, ∃ k < c.numbering.size, c.numbering.tuple k = [a, b]
  /-- `S` holds exactly the states of these pairs. -/
  mem_iff : ∀ v, v ∈ S ↔
    ∃ a ∈ X, ∃ b ∈ Y, ∃ k < c.numbering.size, c.numbering.tuple k = [a, b] ∧ state k = v

section Semantics

variable {c : Construction} {S X Y : StateSet} {j k : Nat} {u : State}
  (hExp : Explored (x.pairFinal y) (x.pairSuccessors y) (x.PairRun y) c c.numbering.size [])
  (hSize : c.numbering.size ≤ 2 ^ 64)
include hExp hSize

/-- The arcs from the state of a pair lead to the states of the pair's moves. -/
theorem mem_targets_pair (hj : j < c.numbering.size) (hTuple : c.numbering.tuple j = [p, q]) :
    u ∈ c.auto.targets (state j) m ↔ ∃ k < c.numbering.size, state k = u ∧ ∃ a b,
      c.numbering.tuple k = [a, b] ∧
        ((∃ l, m = .label l ∧ a ∈ x.targets p m ∧ b ∈ y.targets q m) ∨
          (m = .epsilon ∧ a ∈ x.targets p .epsilon ∧ b = q) ∨
          (m = .epsilon ∧ a = p ∧ b ∈ y.targets q .epsilon)) := by
  rw [mem_targets_state hExp hSize hj, hTuple]
  constructor
  · rintro ⟨k, hk, hMove, rfl⟩
    obtain ⟨a, b, hTuple', hCase⟩ := mem_pairMoves.mp hMove
    exact ⟨k, hk, rfl, a, b, hTuple', hCase⟩
  · rintro ⟨k, hk, rfl, a, b, hTuple', hCase⟩
    exact ⟨k, hk, mem_pairMoves.mpr ⟨a, b, hTuple', hCase⟩, rfl⟩

/-- Every move of a numbered pair leads to a numbered pair, whose state is a target. -/
theorem successor_numbered (hj : j < c.numbering.size) (hTuple : c.numbering.tuple j = [p, q])
    {a b : State} (hMove : (m, [a, b]) ∈ x.pairMoves y p q) :
    ∃ k < c.numbering.size, c.numbering.tuple k = [a, b] ∧ state k ∈ c.auto.targets (state j) m := by
  have hSucc : (m, [a, b]) ∈ x.pairSuccessors y (c.numbering.tuple j) := by
    rw [hTuple]
    exact hMove
  obtain ⟨k, hFind⟩ := hExp.numbered j hj _ hSucc
  have hk := lt_size_of_find?_eq_some hExp.consistent hFind
  have hTuple' := tuple_of_find?_eq_some hExp.consistent hFind
  refine ⟨k, hk, hTuple', (mem_targets_state hExp hSize hj).mpr ⟨k, hk, ?_, rfl⟩⟩
  rw [hTuple']
  exact hSucc

/-- A silent path of the first automaton is followed by the product, the second component
staying put. -/
theorem walk_left {a a' b : State} (hk : k < c.numbering.size)
    (hTuple : c.numbering.tuple k = [a, b]) (hPath : ReflTransGen x.table.Silent a a') :
    ∃ k' < c.numbering.size, c.numbering.tuple k' = [a', b] ∧
      ReflTransGen c.auto.table.Silent (state k) (state k') := by
  induction hPath with
  | refl => exact ⟨k, hk, hTuple, ReflTransGen.refl⟩
  | tail _ hStep ih =>
    obtain ⟨k', hk', hTuple', hWalk⟩ := ih
    obtain ⟨k'', hk'', hTuple'', hTarget⟩ := successor_numbered hExp hSize hk' hTuple'
      (mem_pairMoves.mpr ⟨_, _, rfl, Or.inr (Or.inl ⟨rfl, hStep, rfl⟩)⟩)
    exact ⟨k'', hk'', hTuple'', hWalk.tail hTarget⟩

/-- A silent path of the second automaton is followed by the product, the first component
staying put. -/
theorem walk_right {a b b' : State} (hk : k < c.numbering.size)
    (hTuple : c.numbering.tuple k = [a, b]) (hPath : ReflTransGen y.table.Silent b b') :
    ∃ k' < c.numbering.size, c.numbering.tuple k' = [a, b'] ∧
      ReflTransGen c.auto.table.Silent (state k) (state k') := by
  induction hPath with
  | refl => exact ⟨k, hk, hTuple, ReflTransGen.refl⟩
  | tail _ hStep ih =>
    obtain ⟨k', hk', hTuple', hWalk⟩ := ih
    obtain ⟨k'', hk'', hTuple'', hTarget⟩ := successor_numbered hExp hSize hk' hTuple'
      (mem_pairMoves.mpr ⟨_, _, rfl, Or.inr (Or.inr ⟨rfl, rfl, hStep⟩)⟩)
    exact ⟨k'', hk'', hTuple'', hWalk.tail hTarget⟩

/-- The silent closure of a set of pair states standing for `X × Y` stands for the product of
the closures of `X` and `Y`. -/
theorem Pairs.closure (hS : Pairs c S X Y) :
    Pairs c (c.auto.table.closure S) (x.table.closure X) (y.table.closure Y) := by
  constructor
  · intro a' ha' b' hb'
    obtain ⟨a, ha, hPathA⟩ := Table.mem_closure_iff.mp ha'
    obtain ⟨b, hb, hPathB⟩ := Table.mem_closure_iff.mp hb'
    obtain ⟨k, hk, hTuple⟩ := hS.numbered a ha b hb
    obtain ⟨k1, hk1, hTuple1, -⟩ := walk_left hExp hSize hk hTuple hPathA
    obtain ⟨k2, hk2, hTuple2, -⟩ := walk_right hExp hSize hk1 hTuple1 hPathB
    exact ⟨k2, hk2, hTuple2⟩
  intro v
  rw [Table.mem_closure_iff]
  constructor
  · intro hv
    obtain ⟨s, hs, hPath⟩ := hv
    obtain ⟨a, ha, b, hb, k, hk, hTuple, rfl⟩ := (hS.mem_iff s).mp hs
    -- Along a silent path of the product each step moves one component silently.
    induction hPath with
    | refl =>
      exact ⟨a, Table.mem_closure_of_mem ha, b, Table.mem_closure_of_mem hb, k, hk, hTuple, rfl⟩
    | tail _ hStep ih =>
      obtain ⟨a', ha', b', hb', k', hk', hTuple', rfl⟩ := ih
      obtain ⟨k'', hk'', rfl, a'', b'', hTuple'', hMove⟩ :=
        (mem_targets_pair hExp hSize hk' hTuple').mp hStep
      rcases hMove with ⟨l, hl, -⟩ | ⟨-, ha'', hStay⟩ | ⟨-, hStay, hb''⟩
      · exact absurd hl.symm (Move.label_ne_epsilon l)
      · rw [hStay] at hTuple''
        exact ⟨a'', Table.mem_closure_of_silent ha' ha'', b', hb', k'', hk'', hTuple'', rfl⟩
      · rw [hStay] at hTuple''
        exact ⟨a', ha', b'', Table.mem_closure_of_silent hb' hb'', k'', hk'', hTuple'', rfl⟩
  · intro hv
    obtain ⟨a', ha', b', hb', k, hk, hTuple, rfl⟩ := hv
    obtain ⟨a, ha, hPathA⟩ := Table.mem_closure_iff.mp ha'
    obtain ⟨b, hb, hPathB⟩ := Table.mem_closure_iff.mp hb'
    obtain ⟨k0, hk0, hTuple0⟩ := hS.numbered a ha b hb
    obtain ⟨k1, hk1, hTuple1, hWalk1⟩ := walk_left hExp hSize hk0 hTuple0 hPathA
    obtain ⟨k2, hk2, hTuple2, hWalk2⟩ := walk_right hExp hSize hk1 hTuple1 hPathB
    -- The walk ends at the number of `(a', b')`, which is `k`.
    have hSame : k2 = k := (tuple_inj hExp.consistent hk2 hk).mp (hTuple2.trans hTuple.symm)
    subst hSame
    exact ⟨state k0, (hS.mem_iff _).mpr ⟨a, ha, b, hb, k0, hk0, hTuple0, rfl⟩, hWalk1.trans hWalk2⟩

/-- The targets on a label of a set of pair states standing for `X × Y` stand for the product
of the targets of `X` and `Y`. -/
theorem Pairs.image (hS : Pairs c S X Y) (l : Label) :
    Pairs c (c.auto.table.image (.label l) S) (x.table.image (.label l) X)
      (y.table.image (.label l) Y) := by
  constructor
  · intro a' ha' b' hb'
    obtain ⟨a, ha, haa'⟩ := Table.mem_image.mp ha'
    obtain ⟨b, hb, hbb'⟩ := Table.mem_image.mp hb'
    obtain ⟨k, hk, hTuple⟩ := hS.numbered a ha b hb
    obtain ⟨k', hk', hTuple', -⟩ := successor_numbered hExp hSize hk hTuple
      (mem_pairMoves.mpr ⟨a', b', rfl, Or.inl ⟨l, rfl, haa', hbb'⟩⟩)
    exact ⟨k', hk', hTuple'⟩
  intro v
  rw [Table.mem_image]
  constructor
  · intro hv
    obtain ⟨s, hs, hsv⟩ := hv
    obtain ⟨a, ha, b, hb, k, hk, hTuple, rfl⟩ := (hS.mem_iff s).mp hs
    obtain ⟨k', hk', rfl, a', b', hTuple', hMove⟩ := (mem_targets_pair hExp hSize hk hTuple).mp hsv
    -- A label moves both components; the silent cases cannot carry it.
    rcases hMove with ⟨-, -, haa', hbb'⟩ | ⟨hEps, -⟩ | ⟨hEps, -⟩
    · exact ⟨a', Table.mem_image.mpr ⟨a, ha, haa'⟩, b', Table.mem_image.mpr ⟨b, hb, hbb'⟩,
        k', hk', hTuple', rfl⟩
    · exact absurd hEps (Move.label_ne_epsilon l)
    · exact absurd hEps (Move.label_ne_epsilon l)
  · intro hv
    obtain ⟨a', ha', b', hb', k', hk', hTuple', rfl⟩ := hv
    obtain ⟨a, ha, haa'⟩ := Table.mem_image.mp ha'
    obtain ⟨b, hb, hbb'⟩ := Table.mem_image.mp hb'
    obtain ⟨k, hk, hTuple⟩ := hS.numbered a ha b hb
    obtain ⟨k'', hk'', hTuple'', hTarget⟩ := successor_numbered hExp hSize hk hTuple
      (mem_pairMoves.mpr ⟨a', b', rfl, Or.inl ⟨l, rfl, haa', hbb'⟩⟩)
    have hSame : k'' = k' := (tuple_inj hExp.consistent hk'' hk').mp (hTuple''.trans hTuple'.symm)
    subst hSame
    exact ⟨state k, (hS.mem_iff _).mpr ⟨a, ha, b, hb, k, hk, hTuple, rfl⟩, hTarget⟩

/-- One letter read by the product stands for the letter read by both automata. -/
theorem Pairs.read (hS : Pairs c S X Y) (l : Label) :
    Pairs c (c.auto.table.read S l) (x.table.read X l) (y.table.read Y l) :=
  (hS.image hExp hSize l).closure hExp hSize

end Semantics

section Construction

variable (recv x y : Automaton)

/-- The construction starts from the initial pairs on a cleared receiver with the alphabet of
`x`, then explores. -/
theorem productConstruction_eq : productConstruction recv x y =
    exploreWithin (x.pairFinal y) (x.pairSuccessors y) (x.reachBound.size * y.reachBound.size + 1)
      ((x.initialPairs y).foldl (fun c t => c.start (x.pairFinal y) t)
        { auto := { recv.clear with alphabet := x.alphabet } }) 0 := by
  rw [productConstruction, initialPairs, List.foldl_flatMap]
  simp only [List.foldl_map]

theorem startedFrom_initialPairs :
    Explored (x.pairFinal y) (x.pairSuccessors y) (x.PairRun y)
        ((x.initialPairs y).foldl (fun c t => c.start (x.pairFinal y) t)
          { auto := { recv.clear with alphabet := x.alphabet } }) 0 [] ∧
      StartedFrom (x.initialPairs y) { auto := { recv.clear with alphabet := x.alphabet } }
        ((x.initialPairs y).foldl (fun c t => c.start (x.pairFinal y) t)
          { auto := { recv.clear with alphabet := x.alphabet } }) :=
  explored_foldl_start (fun _ => pairRun_of_mem_initialPairs) _ (explored_empty rfl rfl rfl)

/-- Exploring expands every pair the product numbers, and the numbered pairs lie in any family
of pairs reached on common words that holds the initial pairs and is closed under moves. -/
theorem explored_productConstruction_of {P : List State → Prop}
    (hStart : ∀ t ∈ x.initialPairs y, P t)
    (hClosed : ∀ t, P t → ∀ e ∈ x.pairSuccessors y t, P e.2) (hRun : ∀ t, P t → x.PairRun y t) :
    Explored (x.pairFinal y) (x.pairSuccessors y) P (productConstruction recv x y)
      (productConstruction recv x y).numbering.size [] := by
  -- The pairs met are pairs runs can reach, fewer than the fuel.
  have hBound : ∀ L : List (List State), L.Nodup → (∀ t ∈ L, P t) →
      L.length ≤ x.reachBound.size * y.reachBound.size :=
    fun _ hL hP => length_le_of_forall_pairRun hL fun t ht => hRun t (hP t ht)
  rw [productConstruction_eq]
  exact explored_exploreWithin hClosed hBound _ _ _ (by omega)
    (explored_foldl_start hStart _ (explored_empty rfl rfl rfl)).1

/-- Exploring expands every pair the product numbers. -/
theorem explored_productConstruction :
    Explored (x.pairFinal y) (x.pairSuccessors y) (x.PairRun y) (productConstruction recv x y)
      (productConstruction recv x y).numbering.size [] :=
  explored_productConstruction_of recv x y (fun _ => pairRun_of_mem_initialPairs) pairRun_closed
    fun _ h => h

/-- Pair numbers stay below `2 ^ 64` while at most `2 ^ 64` pairs are reached on common words. -/
theorem size_productConstruction_le {x y : Automaton} (hCap : (x.pairRuns y).encard ≤ 2 ^ 64) :
    (productConstruction recv x y).numbering.size ≤ 2 ^ 64 := by
  have hExp := explored_productConstruction recv x y
  refine size_le_of_forall hExp.consistent (fun L hL hP => ?_) hExp.family
  have hBound := (length_le_of_pairRun hL hP).trans hCap
  exact_mod_cast hBound

/-- The initial states of the product are the states of the initial pairs. -/
theorem mem_initial_productConstruction {s : State} :
    s ∈ (productConstruction recv x y).auto.initial ↔ ∃ p ∈ x.initial, ∃ q ∈ y.initial,
      ∃ k, (productConstruction recv x y).numbering.find? [p, q] = some k ∧ state k = s := by
  obtain ⟨hStart, hFrom⟩ := startedFrom_initialPairs recv x y
  rw [productConstruction_eq, initial_exploreWithin, hFrom.mem_initial]
  -- Exploring keeps the numbers the starts gave.
  have hExt : Extends _ (exploreWithin (x.pairFinal y) (x.pairSuccessors y)
      (x.reachBound.size * y.reachBound.size + 1) _ 0).numbering :=
    extends_exploreWithin _ _ _ hStart.consistent
  constructor
  · rintro (hs | ⟨t, ht, k, hk, rfl⟩)
    · exact absurd hs ExtTreeSet.not_mem_empty
    · obtain ⟨p, hp, q, hq, rfl⟩ := mem_initialPairs.mp ht
      exact ⟨p, hp, q, hq, k, hExt.2 _ _ hk, rfl⟩
  · rintro ⟨p, hp, q, hq, k, hk, rfl⟩
    have hIn : [p, q] ∈ x.initialPairs y := mem_initialPairs.mpr ⟨p, hp, q, hq, rfl⟩
    exact Or.inr ⟨_, hIn, k, (hExt.find?_eq_some_iff (hFrom.numbered _ hIn)).mp hk, rfl⟩

/-- The product starts current at its initial states. -/
theorem current_productConstruction :
    (productConstruction recv x y).auto.current = (productConstruction recv x y).auto.initial := by
  obtain ⟨-, hFrom⟩ := startedFrom_initialPairs recv x y
  rw [productConstruction_eq, initial_exploreWithin, current_exploreWithin]
  apply ExtTreeSet.ext_mem
  intro s
  rw [hFrom.mem_initial, hFrom.mem_current]
  exact Iff.rfl

theorem alphabet_productConstruction : (productConstruction recv x y).auto.alphabet = x.alphabet := by
  rw [productConstruction_eq, alphabet_exploreWithin, (startedFrom_initialPairs recv x y).2.alphabet]

theorem options_productConstruction : (productConstruction recv x y).auto.options = recv.options := by
  rw [productConstruction_eq, options_exploreWithin, (startedFrom_initialPairs recv x y).2.options]
  rfl

/-- Every pair of initial states is numbered. -/
theorem numbered_initial_productConstruction (hp : p ∈ x.initial) (hq : q ∈ y.initial) :
    ∃ k, (productConstruction recv x y).numbering.find? [p, q] = some k := by
  obtain ⟨hStart, hFrom⟩ := startedFrom_initialPairs recv x y
  have hIn : [p, q] ∈ x.initialPairs y := mem_initialPairs.mpr ⟨p, hp, q, hq, rfl⟩
  obtain ⟨k, hk⟩ := hFrom.numbered _ hIn
  rw [productConstruction_eq]
  exact ⟨k, (extends_exploreWithin _ _ _ hStart.consistent).2 _ _ hk⟩

/-- The initial states of the product stand for the pairs of initial states. -/
theorem pairs_initial :
    Pairs (productConstruction recv x y) (productConstruction recv x y).auto.initial x.initial
      y.initial := by
  have hConsistent := (explored_productConstruction recv x y).consistent
  constructor
  · intro a ha b hb
    obtain ⟨k, hk⟩ := numbered_initial_productConstruction recv x y ha hb
    exact ⟨k, lt_size_of_find?_eq_some hConsistent hk, tuple_of_find?_eq_some hConsistent hk⟩
  intro v
  rw [mem_initial_productConstruction]
  constructor
  · rintro ⟨a, ha, b, hb, k, hk, rfl⟩
    exact ⟨a, ha, b, hb, k, lt_size_of_find?_eq_some hConsistent hk,
      tuple_of_find?_eq_some hConsistent hk, rfl⟩
  · rintro ⟨a, ha, b, hb, k, hk, hTuple, rfl⟩
    refine ⟨a, ha, b, hb, k, ?_, rfl⟩
    rw [← hTuple]
    exact find?_tuple hConsistent hk

end Construction


section Intersect

variable {recv : Automaton}

/-- Every run of the product stands for the pairs of states the two runs reach. -/
theorem pairs_reach (hCap : (x.pairRuns y).encard ≤ 2 ^ 64) (w : List Label) :
    Pairs (productConstruction recv x y) ((recv.intersect x y).reach w) (x.reach w) (y.reach w) := by
  have hExp := explored_productConstruction recv x y
  have hSize := size_productConstruction_le recv hCap
  -- Induction on the word from its end, the way a run reads it.
  induction w using List.reverseRecOn with
  | nil =>
    rw [reach_nil, reach_nil, reach_nil]
    exact (pairs_initial recv x y).closure hExp hSize
  | append_singleton w l ih =>
    rw [reach_append_singleton, reach_append_singleton, reach_append_singleton]
    exact ih.read hExp hSize l

/-- The product accepts a word exactly when both automata do. -/
theorem accepts_run_intersect (hCap : (x.pairRuns y).encard ≤ 2 ^ 64) (w : List Label) :
    ((recv.intersect x y).run w).accepts = ((x.run w).accepts && (y.run w).accepts) := by
  have hExp := explored_productConstruction recv x y
  have hSize := size_productConstruction_le recv hCap
  have hPairs : Pairs _ ((recv.intersect x y).reach w) _ _ := pairs_reach hCap w
  rw [Bool.eq_iff_iff, Bool.and_eq_true, accepts_run_iff, accepts_run_iff, accepts_run_iff]
  constructor
  · rintro ⟨v, hv, hFinal⟩
    obtain ⟨a, ha, b, hb, k, hk, hTuple, rfl⟩ := (hPairs.mem_iff v).mp hv
    have hPairFinal : x.pairFinal y [a, b] = true := by
      rw [← hTuple]
      exact (state_mem_final hExp hSize hk).mp hFinal
    obtain ⟨haFinal, hbFinal⟩ := pairFinal_pair.mp hPairFinal
    exact ⟨⟨a, ha, haFinal⟩, ⟨b, hb, hbFinal⟩⟩
  · rintro ⟨⟨a, ha, haFinal⟩, ⟨b, hb, hbFinal⟩⟩
    obtain ⟨k, hk, hTuple⟩ := hPairs.numbered a ha b hb
    refine ⟨state k, (hPairs.mem_iff _).mpr ⟨a, ha, b, hb, k, hk, hTuple, rfl⟩, ?_⟩
    show state k ∈ (productConstruction recv x y).auto.final
    rw [state_mem_final hExp hSize hk, hTuple]
    exact pairFinal_pair.mpr ⟨haFinal, hbFinal⟩

/-- The product is well formed when every label of `x` assigns its alphabet: the product reads
only labels `x` reads, and its states are the numbered pairs. -/
theorem wellFormed_intersect
    (hLabels : ∀ s l, Move.label l ∈ x.arcs s → l.hasDomain x.alphabet = true) :
    (recv.intersect x y).WellFormed := by
  have hExp := explored_productConstruction recv x y
  have hNumbered : ∀ k < (productConstruction recv x y).numbering.size,
      state k ∈ (recv.intersect x y).states := fun k hk => (hExp.mem_states _).mpr ⟨k, hk, rfl⟩
  have hInitial : ∀ s ∈ (recv.intersect x y).initial, s ∈ (recv.intersect x y).states := by
    intro s hs
    obtain ⟨-, -, -, -, k, hk, -, rfl⟩ := ((pairs_initial recv x y).mem_iff s).mp hs
    exact hNumbered k hk
  refine ⟨hInitial, ?_, ?_, ?_, ?_, ?_⟩
  · intro s hs
    obtain ⟨j, hj, rfl, -⟩ := (hExp.mem_final s).mp hs
    exact hNumbered j hj
  · intro s hs
    rw [intersect, current_productConstruction] at hs
    exact hInitial s hs
  · intro s m hm
    obtain ⟨u, hu⟩ := hExp.arcs_nonempty s m hm
    exact mem_states_of_mem_targets hExp hu
  · intro s l hl
    -- A label of the product is read by the first component of the pair it leaves.
    obtain ⟨u, hu⟩ := hExp.arcs_nonempty s _ hl
    obtain ⟨j, hj, -, k, -, hMove, -⟩ := (mem_targets_of_explored hExp).mp hu
    obtain ⟨⟨p, q⟩, -, hPair⟩ := hExp.family j hj
    rw [← hPair] at hMove
    obtain ⟨a, b, -, hCase⟩ := mem_pairMoves.mp hMove
    rcases hCase with ⟨-, -, ha, -⟩ | ⟨hEps, -⟩ | ⟨hEps, -⟩
    · show l.hasDomain (productConstruction recv x y).auto.alphabet = true
      rw [alphabet_productConstruction]
      exact hLabels p l (Table.mem_arcs_of_mem_targets ha)
    · exact absurd hEps (Move.label_ne_epsilon l)
    · exact absurd hEps (Move.label_ne_epsilon l)
  · intro s m u hu
    obtain ⟨-, -, -, k, hk, -, rfl⟩ := (mem_targets_of_explored hExp).mp hu
    exact hNumbered k hk

/-- The product accepts exactly the words both automata accept, has the alphabet of `x`, is
valid when `x` is, and is built afresh: the receiver lends it only its options. -/
theorem intersect_accepts_common_words (hCap : (x.pairRuns y).encard ≤ 2 ^ 64) (recv : Automaton) :
    (∀ w, ((recv.intersect x y).run w).accepts = ((x.run w).accepts && (y.run w).accepts)) ∧
      (recv.intersect x y).alphabet = x.alphabet ∧
      (x.validate = none → (recv.intersect x y).validate = none) ∧
      recv.intersect x y = (Automaton.empty recv.options).intersect x y := by
  refine ⟨accepts_run_intersect hCap, alphabet_productConstruction recv x y, ?_, rfl⟩
  intro hValid
  exact validate_eq_none_iff.mpr (wellFormed_intersect (validate_eq_none_iff.mp hValid).label_domain)

/-- The theorem at a receiver that is its own first operand, whose silent arc the product
interleaves with the loop of the second. -/
theorem intersect_accepts_common_words_into_operand :
    let x := (((((Automaton.empty {}).addState 0).addState 1).addState 2).addEpsilon 0 1
      ).addTransition 1 ((∅ : Label).insert 0 true) 2 |>.markInitial 0 |>.markFinal 2
    let y := ((Automaton.empty {}).addState 0).addTransition 0 ((∅ : Label).insert 0 true) 0
      |>.markInitial 0 |>.markFinal 0
    (x.pairRuns y).encard ≤ 2 ^ 64 ∧
      (∀ w, ((x.intersect x y).run w).accepts = ((x.run w).accepts && (y.run w).accepts)) ∧
      (x.intersect x y).alphabet = x.alphabet ∧
      (x.validate = none → (x.intersect x y).validate = none) ∧
      x.intersect x y = (Automaton.empty x.options).intersect x y := by
  intro x y
  have hSize : x.reachBound.size * y.reachBound.size ≤ 2 ^ 64 := by decide
  have hCap : (x.pairRuns y).encard ≤ 2 ^ 64 := encard_pairRuns_le.trans (by exact_mod_cast hSize)
  exact ⟨hCap, intersect_accepts_common_words hCap x⟩

/-- On that pair the product accepts the letter, read after the silent arc of `x`, and rejects the
empty word. -/
example :
    let x := (((((Automaton.empty {}).addState 0).addState 1).addState 2).addEpsilon 0 1
      ).addTransition 1 ((∅ : Label).insert 0 true) 2 |>.markInitial 0 |>.markFinal 2
    let y := ((Automaton.empty {}).addState 0).addTransition 0 ((∅ : Label).insert 0 true) 0
      |>.markInitial 0 |>.markFinal 0
    ((x.intersect x y).run [(∅ : Label).insert 0 true]).accepts = true ∧
      ((x.intersect x y).run []).accepts = false := by
  decide

end Intersect

end Automaton

end BitAutomata
