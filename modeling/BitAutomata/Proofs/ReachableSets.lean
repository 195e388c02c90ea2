import BitAutomata.Proofs.Subset

/-!
# The states of a subset automaton are its reachable sets

For an automaton without silent arcs, a subset step leads from a set of states to the union of
its members' targets under a label, when that union is not empty (`SubsetStep`). The sets
reachable by such steps from the initial states (`subsetReach`) are the nonempty sets runs
reach, so the subset construction numbers exactly them: the initial set first, as `0`.

Determinizing first removes silent arcs. While at most `2 ^ 63` sets are reachable, the states
of the result are `0` to `n - 1`, the only initial and current state is `0`, which decodes to the
initial states, and decoding maps the states one to one onto the reachable sets. A state is
final when its set meets the final states, and has an arc under a move exactly when the union of
its members' targets under the move is not empty, to the one state that decodes to that union
(`determinize_states_are_reachable_sets`). Without initial states the result has no states and
no arcs.
-/

namespace BitAutomata

namespace Automaton

open Construction BitAutomata.Numbering Relation Std

variable {a : Automaton} {S : StateSet}

section Graph

/-- A step of the subset construction: from a set of states to the union of its members' targets
under a label, when that union is not empty. -/
def SubsetStep (a : Automaton) (S S' : StateSet) : Prop :=
  ∃ l, a.table.image (.label l) S = S' ∧ S' ≠ ∅

/-- The sets reachable by subset steps from the initial states. -/
def subsetReach (a : Automaton) : Set StateSet :=
  {S | ReflTransGen a.SubsetStep a.initial S}

/-- A set run reaches that is not empty is reached by subset steps: the sets before it are not
empty either. -/
theorem reflTransGen_subsetStep_reach (h : a.hasEpsilon = false) (w : List Label)
    (hw : a.reach w ≠ ∅) : ReflTransGen a.SubsetStep a.initial (a.reach w) := by
  induction w using List.reverseRecOn with
  | nil =>
    rw [reach_nil_of_hasEpsilon_eq_false h]
  | append_singleton w l ih =>
    rw [reach_append_singleton_of_hasEpsilon_eq_false h] at hw ⊢
    have hPrev : a.reach w ≠ ∅ := fun hEmpty => hw (by rw [hEmpty, Table.image_empty])
    exact (ih hPrev).tail ⟨l, rfl, hw⟩

/-- Without silent arcs and with initial states, the sets reachable by subset steps are the
nonempty sets runs reach. -/
theorem subsetReach_eq_runSets (h : a.hasEpsilon = false) (hInit : a.initial ≠ ∅) :
    a.subsetReach = a.runSets := by
  ext S
  constructor
  · intro hS
    induction hS with
    | refl => exact ⟨hInit, [], reach_nil_of_hasEpsilon_eq_false h⟩
    | tail _ hStep ih =>
      obtain ⟨-, w, rfl⟩ := ih
      obtain ⟨l, rfl, hNe⟩ := hStep
      exact ⟨hNe, w ++ [l], reach_append_singleton_of_hasEpsilon_eq_false h w l⟩
  · rintro ⟨hS, w, rfl⟩
    exact reflTransGen_subsetStep_reach h w hS

end Graph

section Construction

variable (recv : Automaton) (h : a.hasEpsilon = false) (hInit : a.initial ≠ ∅)
include h hInit

/-- The numbered tuples are exactly the lists of the reachable sets. -/
theorem image_tuple_subsetConstruction :
    (fun j => some ((subsetConstruction recv a).numbering.tuple j)) ''
        Set.Iio (subsetConstruction recv a).numbering.size =
      (fun S : StateSet => some S.toList) '' a.subsetReach := by
  have hExp := explored_subsetConstruction recv h hInit
  rw [subsetReach_eq_runSets h hInit]
  ext o
  constructor
  · rintro ⟨j, hj, rfl⟩
    obtain ⟨S, hS, hTuple⟩ := hExp.family j hj
    exact ⟨S, hS, congrArg some hTuple⟩
  · rintro ⟨S, ⟨hS, w, rfl⟩, rfl⟩
    obtain ⟨k, hk, hTuple⟩ := numbered_reach recv h hInit w hS
    exact ⟨k, hk, congrArg some hTuple⟩

/-- The subset construction numbers at most as many sets as are reachable. -/
theorem size_subsetConstruction_le_encard {B : ℕ} (hCap : a.subsetReach.encard ≤ B) :
    (subsetConstruction recv a).numbering.size ≤ B := by
  rw [subsetReach_eq_runSets h hInit] at hCap
  exact size_subsetConstruction_le_of_encard_le recv h hInit hCap

variable {s u : State} (hSize : (subsetConstruction recv a).numbering.size ≤ 2 ^ 63)
include hSize

/-- The initial set decodes from state `0`. -/
theorem decode?_zero_subsetConstruction :
    (subsetConstruction recv a).numbering.decode? 0 = some a.initial.toList := by
  have hExp := explored_subsetConstruction recv h hInit
  have hFind := (subsetConstruction_start recv hInit).1
  rw [← tuple_of_find?_eq_some hExp.consistent hFind]
  exact decode?_state hSize (lt_size_of_find?_eq_some hExp.consistent hFind)

/-- Through decoding, a state is final exactly when its set meets the final states. -/
theorem mem_final_subsetConstruction_iff :
    s ∈ (subsetConstruction recv a).auto.final ↔
      ∃ S : StateSet, (subsetConstruction recv a).numbering.decode? s = some S.toList ∧
        ∃ x ∈ S, x ∈ a.final := by
  have hExp := explored_subsetConstruction recv h hInit
  rw [hExp.mem_final_iff_decode? hSize]
  constructor
  · rintro ⟨t, hs, hFinal⟩
    -- A decoded tuple lists a set.
    obtain ⟨S, -, rfl⟩ := hExp.family_of_decode? hSize hs
    rw [subsetFinal_toList] at hFinal
    exact ⟨S, hs, hFinal⟩
  · rintro ⟨S, hs, hFinal⟩
    exact ⟨S.toList, hs, by rw [subsetFinal_toList]; exact hFinal⟩

/-- Through decoding, a move leads from the state of a set to the state of the set's image under
the move, when that image is not empty. -/
theorem mem_targets_subsetConstruction_iff
    (hs : (subsetConstruction recv a).numbering.decode? s = some S.toList) {m : Move} :
    u ∈ (subsetConstruction recv a).auto.targets s m ↔ a.table.image m S ≠ ∅ ∧
      (subsetConstruction recv a).numbering.decode? u = some (a.table.image m S).toList := by
  have hExp := explored_subsetConstruction recv h hInit
  rw [hExp.mem_targets_iff_decode? hSize]
  constructor
  · rintro ⟨t, t', hs', hu, hMove⟩
    rw [hs, Option.some_inj] at hs'
    rw [← hs', mem_subsetSuccessors_toList] at hMove
    exact ⟨hMove.1, hMove.2 ▸ hu⟩
  · rintro ⟨hNe, hu⟩
    exact ⟨S.toList, _, hs, hu, mem_subsetSuccessors_toList.mpr ⟨hNe, rfl⟩⟩

/-- The image of a decoded set under a move is numbered when it is not empty: the set is
expanded. -/
theorem numbered_image_subsetConstruction
    (hs : (subsetConstruction recv a).numbering.decode? s = some S.toList) {m : Move}
    (hNe : a.table.image m S ≠ ∅) :
    ∃ k < (subsetConstruction recv a).numbering.size,
      (subsetConstruction recv a).numbering.tuple k = (a.table.image m S).toList := by
  have hExp := explored_subsetConstruction recv h hInit
  obtain ⟨j, hj, -, hTuple⟩ := (decode?_eq_some_iff hSize).mp hs
  have hSucc : (m, (a.table.image m S).toList) ∈
      a.subsetSuccessors ((subsetConstruction recv a).numbering.tuple j) := by
    rw [hTuple]
    exact mem_subsetSuccessors_toList.mpr ⟨hNe, rfl⟩
  obtain ⟨k, hk⟩ := hExp.numbered j hj _ hSucc
  exact ⟨k, lt_size_of_find?_eq_some hExp.consistent hk, tuple_of_find?_eq_some hExp.consistent hk⟩

/-- From the state of a set, a move has an arc exactly when the set's image under it is not empty,
and then the arc has one target, the state that decodes to the image. -/
theorem arcs_subsetConstruction_of_decode?
    (hs : (subsetConstruction recv a).numbering.decode? s = some S.toList) (m : Move) :
    (m ∈ (subsetConstruction recv a).auto.arcs s ↔ a.table.image m S ≠ ∅) ∧
      (a.table.image m S ≠ ∅ → ∃ u, (subsetConstruction recv a).auto.targets s m = {u} ∧
        (subsetConstruction recv a).numbering.decode? u = some (a.table.image m S).toList) := by
  have hExp := explored_subsetConstruction recv h hInit
  have hTargets := fun u => mem_targets_subsetConstruction_iff recv h hInit hSize (u := u) hs (m := m)
  refine ⟨⟨fun hm => ?_, fun hNe => ?_⟩, fun hNe => ?_⟩
  · obtain ⟨u, hu⟩ := hExp.arcs_nonempty s m hm
    exact ((hTargets u).mp hu).1
  · obtain ⟨k, hk, hTuple⟩ := numbered_image_subsetConstruction recv h hInit hSize hs hNe
    have hu : state k ∈ (subsetConstruction recv a).auto.targets s m :=
      (hTargets (state k)).mpr ⟨hNe, hTuple ▸ decode?_state hSize hk⟩
    exact Table.mem_arcs_of_mem_targets hu
  · -- Every target decodes to the image, and decoding is injective on states.
    obtain ⟨k, hk, hTuple⟩ := numbered_image_subsetConstruction recv h hInit hSize hs hNe
    refine ⟨state k, ExtTreeSet.ext_mem fun u => ?_, hTuple ▸ decode?_state hSize hk⟩
    rw [hTargets u, StateSet.mem_singleton, decode?_eq_some_iff hSize]
    constructor
    · rintro ⟨-, k', hk', rfl, hTuple'⟩
      rw [← hTuple, tuple_inj hExp.consistent hk' hk] at hTuple'
      rw [hTuple']
    · rintro rfl
      exact ⟨hNe, k, hk, rfl, hTuple⟩

end Construction

/-- Determinizing `src` builds the reachable part of the subset automaton of `src` with its silent
arcs removed (`N`). Without initial states of `N` the result has no states and no arcs, and has
the alphabet of `N`. Otherwise, while at most `2 ^ 63` sets are reachable, the states are `0` to
`n - 1`; `0` is the only initial and current state and decodes to the initial states of `N`;
decoding is a bijection from the states onto the sets reachable by subset steps; a state is
final exactly when its set meets the final states of `N`; and from a state, a move has an arc
exactly when the union of the set's targets under it is not empty, and then one target, the
state that decodes to that union. -/
theorem determinize_states_are_reachable_sets {src : Automaton}
    (hCap : src.eliminateEpsilon.subsetReach.encard ≤ 2 ^ 63) (recv : Automaton) :
    (src.eliminateEpsilon.initial = ∅ →
      (recv.determinize src).states = ∅ ∧ (recv.determinize src).table = ∅ ∧
        (recv.determinize src).alphabet = src.eliminateEpsilon.alphabet) ∧
    (src.eliminateEpsilon.initial ≠ ∅ →
      (recv.determinize src).states = ExtTreeSet.ofList ((List.range
        (subsetConstruction recv src.eliminateEpsilon).numbering.size).map Int64.ofNat) ∧
      (recv.determinize src).initial = {0} ∧ (recv.determinize src).current = {0} ∧
      (subsetConstruction recv src.eliminateEpsilon).numbering.decode? 0 =
        some src.eliminateEpsilon.initial.toList ∧
      Set.BijOn (subsetConstruction recv src.eliminateEpsilon).numbering.decode?
        {s | s ∈ (recv.determinize src).states}
        ((fun S : StateSet => some S.toList) '' src.eliminateEpsilon.subsetReach) ∧
      (∀ s, s ∈ (recv.determinize src).final ↔
        ∃ S : StateSet,
          (subsetConstruction recv src.eliminateEpsilon).numbering.decode? s = some S.toList ∧
          ∃ x ∈ S, x ∈ src.eliminateEpsilon.final) ∧
      ∀ s (S : StateSet),
        (subsetConstruction recv src.eliminateEpsilon).numbering.decode? s = some S.toList →
        ∀ m, (m ∈ (recv.determinize src).arcs s ↔ src.eliminateEpsilon.table.image m S ≠ ∅) ∧
          (src.eliminateEpsilon.table.image m S ≠ ∅ → ∃ u, (recv.determinize src).targets s m = {u} ∧
            (subsetConstruction recv src.eliminateEpsilon).numbering.decode? u =
              some (src.eliminateEpsilon.table.image m S).toList)) := by
  have h : src.eliminateEpsilon.hasEpsilon = false := hasEpsilon_eliminateEpsilon
  refine ⟨fun hInit => ?_, fun hInit => ?_⟩
  · rw [determinize, subsetConstruction_of_eq_empty recv hInit]
    exact ⟨rfl, rfl, rfl⟩
  · have hExp := explored_subsetConstruction recv h hInit
    have hSize := size_subsetConstruction_le_encard recv h hInit (B := 2 ^ 63) (by exact_mod_cast hCap)
    obtain ⟨-, hInitial, hCurrent, -⟩ := subsetConstruction_start recv hInit
    have hBij := hExp.bijOn_decode? hSize
    rw [image_tuple_subsetConstruction recv h hInit] at hBij
    exact ⟨hExp.states_eq, hInitial, hCurrent, decode?_zero_subsetConstruction recv h hInit hSize,
      hBij, fun _ => mem_final_subsetConstruction_iff recv h hInit hSize,
      fun _ _ hs => arcs_subsetConstruction_of_decode? recv h hInit hSize hs⟩

/-- The theorem at an automaton whose silent arc leads back to the start, so that removing it
gives the second state the loop of the first. -/
theorem determinize_states_are_reachable_sets_through_silent_arc :
    let src := (((((Automaton.empty {}).addState 0).addState 1).addTransition 0
      ((∅ : Label).insert 0 true) 0).addTransition 0 ((∅ : Label).insert 0 true) 1).addEpsilon 1 0
      |>.markInitial 0 |>.markFinal 1
    let recv := Automaton.empty {}
    src.eliminateEpsilon.subsetReach.encard ≤ 2 ^ 63 ∧
    (src.eliminateEpsilon.initial = ∅ →
      (recv.determinize src).states = ∅ ∧ (recv.determinize src).table = ∅ ∧
        (recv.determinize src).alphabet = src.eliminateEpsilon.alphabet) ∧
    (src.eliminateEpsilon.initial ≠ ∅ →
      (recv.determinize src).states = ExtTreeSet.ofList ((List.range
        (subsetConstruction recv src.eliminateEpsilon).numbering.size).map Int64.ofNat) ∧
      (recv.determinize src).initial = {0} ∧ (recv.determinize src).current = {0} ∧
      (subsetConstruction recv src.eliminateEpsilon).numbering.decode? 0 =
        some src.eliminateEpsilon.initial.toList ∧
      Set.BijOn (subsetConstruction recv src.eliminateEpsilon).numbering.decode?
        {s | s ∈ (recv.determinize src).states}
        ((fun S : StateSet => some S.toList) '' src.eliminateEpsilon.subsetReach) ∧
      (∀ s, s ∈ (recv.determinize src).final ↔
        ∃ S : StateSet,
          (subsetConstruction recv src.eliminateEpsilon).numbering.decode? s = some S.toList ∧
          ∃ x ∈ S, x ∈ src.eliminateEpsilon.final) ∧
      ∀ s (S : StateSet),
        (subsetConstruction recv src.eliminateEpsilon).numbering.decode? s = some S.toList →
        ∀ m, (m ∈ (recv.determinize src).arcs s ↔ src.eliminateEpsilon.table.image m S ≠ ∅) ∧
          (src.eliminateEpsilon.table.image m S ≠ ∅ → ∃ u, (recv.determinize src).targets s m = {u} ∧
            (subsetConstruction recv src.eliminateEpsilon).numbering.decode? u =
              some (src.eliminateEpsilon.table.image m S).toList)) := by
  intro src recv
  have hInit : src.eliminateEpsilon.initial ≠ ∅ := by
    rw [eliminateEpsilon_initial]
    intro hEmpty
    have hZero : (0 : State) ∈ src.initial := by decide
    rw [hEmpty] at hZero
    exact ExtTreeSet.not_mem_empty hZero
  have hSize : src.reachBound.size ≤ 63 := by decide
  have hCap : src.eliminateEpsilon.subsetReach.encard ≤ 2 ^ 63 := by
    rw [subsetReach_eq_runSets hasEpsilon_eliminateEpsilon hInit]
    exact encard_runSets_eliminateEpsilon_le.trans
      (pow_le_pow_right₀ one_le_two (by exact_mod_cast hSize))
  exact ⟨hCap, determinize_states_are_reachable_sets hCap recv⟩

/-- There the initial set `{0}` is state `0`, and reading the letter from it leads to the set
`{0, 1}`, state `1`, which is final. -/
example :
    let src := (((((Automaton.empty {}).addState 0).addState 1).addTransition 0
      ((∅ : Label).insert 0 true) 0).addTransition 0 ((∅ : Label).insert 0 true) 1).addEpsilon 1 0
      |>.markInitial 0 |>.markFinal 1
    (subsetConstruction (Automaton.empty {}) src.eliminateEpsilon).numbering.decode? 1 = some [0, 1] ∧
      (1 : State) ∈ ((Automaton.empty {}).determinize src).final := by
  decide +kernel

end Automaton

end BitAutomata
