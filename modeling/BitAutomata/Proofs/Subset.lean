import BitAutomata.Subset
import BitAutomata.Proofs.Closure
import BitAutomata.Proofs.Construction
import BitAutomata.Proofs.Epsilon

/-!
# The subset construction

For an automaton `a` without silent arcs, a run reads letter after letter from the initial
states, and the sets it reaches (`runSets`) are the tuples the subset construction numbers: the
successors of the list of a set are the lists of its images, one for each move with a nonempty
image (`mem_subsetSuccessors_toList`). Exploring from the initial states therefore numbers
only lists of reachable sets, at most `2 ^ a.reachBound.size` of them, so the fuel suffices
and every numbered set is expanded (`explored_subsetConstruction`).

While at most `2 ^ 64` sets are reachable, their states are distinct, and the result is a
deterministic automaton whose run on a word is the state of the set `a` reaches
(`reach_subsetConstruction`): both accept the same words.
-/

namespace BitAutomata

namespace Automaton

open Construction BitAutomata.Numbering Std

variable {a : Automaton} {S : StateSet} {m : Move} {u : State}

section SilentFree

theorem reach_nil_of_hasEpsilon_eq_false (h : a.hasEpsilon = false) : a.reach [] = a.initial :=
  Table.closure_eq_self (hasEpsilon_eq_false_iff.mp h) _

theorem reach_append_singleton_of_hasEpsilon_eq_false (h : a.hasEpsilon = false)
    (w : List Label) (l : Label) :
    a.reach (w ++ [l]) = a.table.image (.label l) (a.reach w) := by
  rw [reach_append_singleton, Table.read, Table.closure_eq_self (hasEpsilon_eq_false_iff.mp h)]

/-- Without silent arcs, nothing is reached by a silent move. -/
theorem image_epsilon_of_hasEpsilon_eq_false (h : a.hasEpsilon = false) :
    a.table.image .epsilon S = ∅ := by
  apply ExtTreeSet.ext_mem
  intro y
  simp only [Table.mem_image, ExtTreeSet.not_mem_empty, iff_false, not_exists, not_and]
  intro x _ hy
  have hNone : a.targets x .epsilon = ∅ := hasEpsilon_eq_false_iff.mp h x
  change y ∈ a.targets x .epsilon at hy
  rw [hNone] at hy
  exact ExtTreeSet.not_mem_empty hy

end SilentFree

section Successors

theorem mem_targets_subsetArcs {members : List State} :
    u ∈ (a.subsetArcs members).targets m ↔ ∃ x ∈ members, u ∈ a.targets x m := by
  rw [subsetArcs]
  have hFold : ∀ (l : List State) (acc : Arcs),
      u ∈ (l.foldl (fun acc s => acc.join (a.arcs s)) acc).targets m ↔
        u ∈ acc.targets m ∨ ∃ x ∈ l, u ∈ a.targets x m := by
    intro l
    induction l with
    | nil => simp
    | cons x xs ih =>
      intro acc
      rw [List.foldl_cons, ih, Arcs.mem_targets_join]
      simp only [List.mem_cons, exists_eq_or_imp]
      rw [or_assoc]
      rfl
  rw [hFold]
  simp

/-- The arcs of the list of a set lead to the images of the set. -/
theorem targets_subsetArcs_toList : (a.subsetArcs S.toList).targets m = a.table.image m S := by
  apply ExtTreeSet.ext_mem
  intro u
  rw [mem_targets_subsetArcs, Table.mem_image]
  simp only [ExtTreeSet.mem_toList]
  rfl

/-- The successors of a list of states: each move with a nonempty union of targets, with the
list of that union. -/
theorem mem_subsetSuccessors {members : List State} {e : Move × List State} :
    e ∈ a.subsetSuccessors members ↔
      (a.subsetArcs members).targets e.1 ≠ ∅ ∧ e.2 = ((a.subsetArcs members).targets e.1).toList := by
  obtain ⟨m, t⟩ := e
  simp only [subsetSuccessors, List.mem_filterMap]
  constructor
  · rintro ⟨⟨m', ts⟩, hMem, hSome⟩
    have hTargets := Arcs.targets_of_mem_toList hMem
    by_cases hEmpty : ts.isEmpty = true
    · simp [hEmpty] at hSome
    · simp only [hEmpty, Bool.false_eq_true, if_false, Option.some.injEq, Prod.mk.injEq] at hSome
      obtain ⟨rfl, rfl⟩ := hSome
      refine ⟨?_, by rw [hTargets]⟩
      rw [hTargets]
      exact fun h => hEmpty (ExtTreeSet.isEmpty_iff.mpr h)
  · rintro ⟨hNonempty, rfl⟩
    -- A move with targets has an entry in the sorted list of arcs.
    have hLookup : (a.subsetArcs members)[m]? = some ((a.subsetArcs members).targets m) := by
      rw [Arcs.targets_eq_getD_getElem?]
      cases hGet : (a.subsetArcs members)[m]? with
      | none =>
        rw [Arcs.targets_eq_getD_getElem?, hGet] at hNonempty
        exact absurd rfl hNonempty
      | some ts => rfl
    refine ⟨(m, (a.subsetArcs members).targets m),
      ExtTreeMap.mem_toList_iff_getElem?_eq_some.mpr hLookup, ?_⟩
    have hNotEmpty : ((a.subsetArcs members).targets m).isEmpty = false :=
      Bool.eq_false_iff.mpr fun h => hNonempty (ExtTreeSet.isEmpty_iff.mp h)
    simp [hNotEmpty]

/-- From the list of a set, each move with a nonempty image leads to the list of the image. -/
theorem mem_subsetSuccessors_toList {e : Move × List State} :
    e ∈ a.subsetSuccessors S.toList ↔
      a.table.image e.1 S ≠ ∅ ∧ e.2 = (a.table.image e.1 S).toList := by
  rw [mem_subsetSuccessors, targets_subsetArcs_toList]

theorem subsetFinal_toList : a.subsetFinal S.toList = true ↔ ∃ x ∈ S, x ∈ a.final := by
  simp [subsetFinal, ExtTreeSet.mem_toList, ExtTreeSet.contains_iff_mem]

end Successors

section Family

/-- The nonempty sets of states that runs of `a` reach. -/
def runSets (a : Automaton) : Set StateSet :=
  {S | S ≠ ∅ ∧ ∃ w, a.reach w = S}

/-- The tuples the subset construction of `a` numbers: the lists of sets that runs reach. -/
def RunList (a : Automaton) (t : List State) : Prop :=
  ∃ S ∈ a.runSets, S.toList = t

theorem runList_initial (h : a.hasEpsilon = false) (hInit : a.initial ≠ ∅) :
    a.RunList a.initial.toList :=
  ⟨a.initial, ⟨hInit, [], reach_nil_of_hasEpsilon_eq_false h⟩, rfl⟩

/-- A successor of a reached set is reached: a move with a nonempty image reads a letter. -/
theorem runList_closed (h : a.hasEpsilon = false) :
    ∀ t, a.RunList t → ∀ e ∈ a.subsetSuccessors t, a.RunList e.2 := by
  rintro _ ⟨S, ⟨-, w, rfl⟩, rfl⟩ e he
  obtain ⟨hNonempty, hList⟩ := mem_subsetSuccessors_toList.mp he
  rcases Move.eq_epsilon_or_eq_label e.1 with hm | ⟨l, hm⟩
  · rw [hm, image_epsilon_of_hasEpsilon_eq_false h] at hNonempty
    exact absurd rfl hNonempty
  · rw [hm, ← reach_append_singleton_of_hasEpsilon_eq_false h] at hNonempty hList
    exact ⟨_, ⟨hNonempty, w ++ [l], rfl⟩, hList.symm⟩

theorem runList_ne_nil {t : List State} (ht : a.RunList t) : t ≠ [] := by
  obtain ⟨S, ⟨hS, -⟩, rfl⟩ := ht
  rwa [Ne, ExtTreeSet.toList_eq_nil_iff]

/-- Runs reach at most `2 ^ a.reachBound.size` sets. -/
theorem encard_runSets_le : a.runSets.encard ≤ 2 ^ a.reachBound.size := by
  calc a.runSets.encard ≤ {S : StateSet | ∀ x ∈ S, x ∈ a.reachBound}.encard := by
        apply Set.encard_le_encard
        rintro _ ⟨-, w, rfl⟩ x hx
        exact mem_initial_union_targetSet_of_mem_reach hx
    _ ≤ 2 ^ a.reachBound.size := StateSet.encard_subsets_le _

/-- The fuel of the subset construction exceeds the number of lists it can number. -/
theorem length_le_of_runList {L : List (List State)} (hL : L.Nodup)
    (hP : ∀ t ∈ L, a.RunList t) : L.length ≤ 2 ^ a.reachBound.size := by
  have hBound := (StateSet.length_le_encard hL hP).trans encard_runSets_le
  exact_mod_cast hBound

end Family

section Construction

variable (recv : Automaton)

theorem subsetConstruction_of_ne_empty (hInit : a.initial ≠ ∅) :
    subsetConstruction recv a = exploreWithin a.subsetFinal a.subsetSuccessors
      (2 ^ a.reachBound.size + 1)
      (({ auto := { recv.clear with alphabet := a.alphabet } } : Construction).start
        a.subsetFinal a.initial.toList) 0 := by
  have hNotEmpty : a.initial.isEmpty = false :=
    Bool.eq_false_iff.mpr fun hEmpty => hInit (ExtTreeSet.isEmpty_iff.mp hEmpty)
  simp [subsetConstruction, hNotEmpty]

theorem subsetConstruction_of_eq_empty (hInit : a.initial = ∅) :
    subsetConstruction recv a = { auto := { recv.clear with alphabet := a.alphabet } } := by
  simp [subsetConstruction, hInit]

/-- Exploring expands every set the construction numbers. -/
theorem explored_subsetConstruction (h : a.hasEpsilon = false) (hInit : a.initial ≠ ∅) :
    Explored a.subsetFinal a.subsetSuccessors a.RunList (subsetConstruction recv a)
      (subsetConstruction recv a).numbering.size [] := by
  rw [subsetConstruction_of_ne_empty recv hInit]
  refine explored_exploreWithin (runList_closed h) (fun _ => length_le_of_runList) _ _ _
    (by omega) ?_
  exact (explored_start (explored_empty rfl rfl rfl) (runList_initial h hInit)).1

/-- The set of initial states is numbered `0`, and its state is the one initial state. -/
theorem subsetConstruction_start (hInit : a.initial ≠ ∅) :
    (subsetConstruction recv a).numbering.find? a.initial.toList = some 0 ∧
      (subsetConstruction recv a).auto.initial = {state 0} ∧
      (subsetConstruction recv a).auto.current = {state 0} ∧
      (subsetConstruction recv a).auto.alphabet = a.alphabet ∧
      (subsetConstruction recv a).auto.options = recv.options := by
  have hNone : ({} : Numbering).find? a.initial.toList = none := by
    simp [Numbering.find?]
  rw [subsetConstruction_of_ne_empty recv hInit, start_of_find?_eq_none hNone]
  refine ⟨(extends_exploreWithin _ _ _ (consistent_push consistent_empty hNone)).2 _ _ ?_, ?_, ?_,
    ?_, ?_⟩
  · simp [find?_push]
    rfl
  · rw [initial_exploreWithin]
    exact ExtTreeSet.singleton_eq_insert.symm
  · rw [current_exploreWithin]
    exact ExtTreeSet.singleton_eq_insert.symm
  · rw [alphabet_exploreWithin]
    rfl
  · rw [options_exploreWithin]
    rfl

theorem alphabet_subsetConstruction : (subsetConstruction recv a).auto.alphabet = a.alphabet := by
  by_cases hInit : a.initial = ∅
  · rw [subsetConstruction_of_eq_empty recv hInit]
  · exact (subsetConstruction_start recv hInit).2.2.2.1

/-- The construction numbers no more sets than runs reach. -/
theorem size_subsetConstruction_le_of_encard_le (h : a.hasEpsilon = false) (hInit : a.initial ≠ ∅)
    {B : ℕ} (hCap : a.runSets.encard ≤ B) : (subsetConstruction recv a).numbering.size ≤ B := by
  have hExp := explored_subsetConstruction recv h hInit
  refine size_le_of_forall hExp.consistent (fun L hL hP => ?_) hExp.family
  have hBound := (StateSet.length_le_encard hL hP).trans hCap
  exact_mod_cast hBound

/-- Numbers stay below `2 ^ 64` while runs reach at most `2 ^ 64` sets. -/
theorem size_subsetConstruction_le (h : a.hasEpsilon = false) (hInit : a.initial ≠ ∅)
    (hCap : a.runSets.encard ≤ 2 ^ 64) : (subsetConstruction recv a).numbering.size ≤ 2 ^ 64 :=
  size_subsetConstruction_le_of_encard_le recv h hInit (by exact_mod_cast hCap)

end Construction

section Semantics

variable (recv : Automaton)

/-- The subset automaton has no silent arcs. -/
theorem targets_epsilon_subsetConstruction (h : a.hasEpsilon = false) (s : State) :
    (subsetConstruction recv a).auto.targets s .epsilon = ∅ := by
  by_cases hInit : a.initial = ∅
  · rw [subsetConstruction_of_eq_empty recv hInit]
    exact Table.targets_empty
  · have hExp : Explored a.subsetFinal a.subsetSuccessors a.RunList (subsetConstruction recv a)
        (subsetConstruction recv a).numbering.size [] := explored_subsetConstruction recv h hInit
    apply ExtTreeSet.eq_empty_iff_forall_not_mem.mpr
    intro u hu
    obtain ⟨j, hj, -, k, -, hMem, -⟩ := (mem_targets_of_explored hExp).mp hu
    -- The expanded tuple lists a reached set, whose silent image is empty.
    obtain ⟨S, -, hS⟩ := hExp.family j hj
    rw [← hS] at hMem
    exact (mem_subsetSuccessors_toList.mp hMem).1 (image_epsilon_of_hasEpsilon_eq_false h)

theorem hasEpsilon_subsetConstruction (h : a.hasEpsilon = false) :
    (subsetConstruction recv a).auto.hasEpsilon = false :=
  hasEpsilon_eq_false_iff.mpr (targets_epsilon_subsetConstruction recv h)

/-- Every nonempty set that a run reaches is numbered. -/
theorem numbered_reach (h : a.hasEpsilon = false) (hInit : a.initial ≠ ∅) (w : List Label)
    (hw : a.reach w ≠ ∅) :
    ∃ k < (subsetConstruction recv a).numbering.size,
      (subsetConstruction recv a).numbering.tuple k = (a.reach w).toList := by
  have hExp := explored_subsetConstruction recv h hInit
  induction w using List.reverseRecOn with
  | nil =>
    have hFind := (subsetConstruction_start recv hInit).1
    refine ⟨0, lt_size_of_find?_eq_some hExp.consistent hFind, ?_⟩
    rw [tuple_of_find?_eq_some hExp.consistent hFind, reach_nil_of_hasEpsilon_eq_false h]
  | append_singleton w l ih =>
    rw [reach_append_singleton_of_hasEpsilon_eq_false h] at hw ⊢
    have hPrev : a.reach w ≠ ∅ := by
      intro hEmpty
      rw [hEmpty, Table.image_empty] at hw
      exact hw rfl
    -- The set before the letter is expanded, and the image is one of its successors.
    obtain ⟨j, hj, hTuple⟩ := ih hPrev
    have hSucc : (Move.label l, (a.table.image (.label l) (a.reach w)).toList) ∈
        a.subsetSuccessors ((subsetConstruction recv a).numbering.tuple j) := by
      rw [hTuple]
      exact mem_subsetSuccessors_toList.mpr ⟨hw, rfl⟩
    obtain ⟨k, hk⟩ := hExp.numbered j hj _ hSucc
    exact ⟨k, lt_size_of_find?_eq_some hExp.consistent hk,
      tuple_of_find?_eq_some hExp.consistent hk⟩

/-- While runs reach at most `2 ^ 64` sets, the subset automaton reads a word to the state of
the set that `a` reaches, and to nothing when that set is empty. -/
theorem mem_reach_subsetConstruction (h : a.hasEpsilon = false) (hInit : a.initial ≠ ∅)
    (hCap : a.runSets.encard ≤ 2 ^ 64) (w : List Label) {u : State} :
    u ∈ (subsetConstruction recv a).auto.reach w ↔
      ∃ k < (subsetConstruction recv a).numbering.size,
        (subsetConstruction recv a).numbering.tuple k = (a.reach w).toList ∧ state k = u := by
  have hExp := explored_subsetConstruction recv h hInit
  have hSize := size_subsetConstruction_le recv h hInit hCap
  have hNoSilent := hasEpsilon_subsetConstruction recv h
  obtain ⟨hFind, hInitial, -⟩ := subsetConstruction_start recv hInit
  -- The run is followed letter by letter; the set before a letter is numbered.
  induction w using List.reverseRecOn generalizing u with
  | nil =>
    rw [reach_nil_of_hasEpsilon_eq_false hNoSilent, hInitial, StateSet.mem_singleton,
      reach_nil_of_hasEpsilon_eq_false h]
    have hZero := lt_size_of_find?_eq_some hExp.consistent hFind
    constructor
    · rintro rfl
      exact ⟨0, hZero, tuple_of_find?_eq_some hExp.consistent hFind, rfl⟩
    · rintro ⟨k, hk, hTuple, rfl⟩
      rw [← tuple_of_find?_eq_some hExp.consistent hFind, tuple_inj hExp.consistent hk hZero]
        at hTuple
      rw [hTuple]
  | append_singleton w l ih =>
    rw [reach_append_singleton_of_hasEpsilon_eq_false hNoSilent, Table.mem_image,
      reach_append_singleton_of_hasEpsilon_eq_false h]
    constructor
    · rintro ⟨x, hx, hu⟩
      obtain ⟨j, hj, hTuple, rfl⟩ := ih.mp hx
      obtain ⟨k, hk, hMem, hku⟩ := (mem_targets_state hExp hSize hj).mp hu
      rw [hTuple] at hMem
      exact ⟨k, hk, (mem_subsetSuccessors_toList.mp hMem).2, hku⟩
    · rintro ⟨k, hk, hTuple, rfl⟩
      -- Numbered lists are nonempty, so the image is, and the set before it is numbered.
      have hImage : a.table.image (.label l) (a.reach w) ≠ ∅ := by
        intro hEmpty
        apply runList_ne_nil (hExp.family k hk)
        rw [hTuple, hEmpty]
        exact ExtTreeSet.toList_eq_nil_iff.mpr rfl
      have hPrev : a.reach w ≠ ∅ := fun hEmpty => hImage (by rw [hEmpty, Table.image_empty])
      obtain ⟨j, hj, hTupleJ⟩ := numbered_reach recv h hInit w hPrev
      refine ⟨state j, ih.mpr ⟨j, hj, hTupleJ, rfl⟩,
        (mem_targets_state hExp hSize hj).mpr ⟨k, hk, ?_, rfl⟩⟩
      rw [hTupleJ, hTuple]
      exact mem_subsetSuccessors_toList.mpr ⟨hImage, rfl⟩

/-- While runs reach at most `2 ^ 64` sets, the subset automaton accepts exactly the words
that `a` accepts. -/
theorem accepts_run_subsetConstruction (h : a.hasEpsilon = false)
    (hCap : a.runSets.encard ≤ 2 ^ 64) (w : List Label) :
    ((subsetConstruction recv a).auto.run w).accepts = (a.run w).accepts := by
  rw [Bool.eq_iff_iff, accepts_run_iff, accepts_run_iff]
  by_cases hInit : a.initial = ∅
  · -- Without initial states neither run reaches anything.
    have hEmpty : (subsetConstruction recv a).auto.initial = ∅ := by
      rw [subsetConstruction_of_eq_empty recv hInit]
      rfl
    rw [reach_of_initial_eq_empty hEmpty, reach_of_initial_eq_empty hInit]
    simp [ExtTreeSet.not_mem_empty]
  · have hExp := explored_subsetConstruction recv h hInit
    have hSize := size_subsetConstruction_le recv h hInit hCap
    constructor
    · rintro ⟨u, hu, hFinal⟩
      obtain ⟨k, hk, hTuple, rfl⟩ := (mem_reach_subsetConstruction recv h hInit hCap w).mp hu
      rw [state_mem_final hExp hSize hk, hTuple] at hFinal
      exact subsetFinal_toList.mp hFinal
    · rintro ⟨x, hx, hFinal⟩
      have hNe : a.reach w ≠ ∅ := fun hEmpty => ExtTreeSet.not_mem_empty (hEmpty ▸ hx)
      obtain ⟨k, hk, hTuple⟩ := numbered_reach recv h hInit w hNe
      refine ⟨state k, (mem_reach_subsetConstruction recv h hInit hCap w).mpr ⟨k, hk, hTuple, rfl⟩, ?_⟩
      rw [state_mem_final hExp hSize hk, hTuple]
      exact subsetFinal_toList.mpr ⟨x, hx, hFinal⟩

/-- While runs reach at most `2 ^ 64` sets, the subset automaton is deterministic: each move
from a set leads to the one state of its image. -/
theorem isDeterministic_subsetConstruction (h : a.hasEpsilon = false)
    (hCap : a.runSets.encard ≤ 2 ^ 64) : (subsetConstruction recv a).auto.isDeterministic = true := by
  rw [isDeterministic_iff]
  by_cases hInit : a.initial = ∅
  · rw [subsetConstruction_of_eq_empty recv hInit]
    refine ⟨by simp [Automaton.clear, Automaton.empty],
      hasEpsilon_eq_false_iff.mpr fun _ => Table.targets_empty, fun _ _ => ?_⟩
    simp [Automaton.targets, Automaton.clear, Automaton.empty]
  · have hExp := explored_subsetConstruction recv h hInit
    have hSize := size_subsetConstruction_le recv h hInit hCap
    refine ⟨?_, hasEpsilon_subsetConstruction recv h, fun s m => StateSet.size_le_one ?_⟩
    · rw [(subsetConstruction_start recv hInit).2.1]
      exact StateSet.size_le_one fun x hx y hy =>
        (StateSet.mem_singleton.mp hx).trans (StateSet.mem_singleton.mp hy).symm
    · intro x hx y hy
      obtain ⟨j, hj, rfl, k, hk, hMem, rfl⟩ := (mem_targets_of_explored hExp).mp hx
      obtain ⟨k', hk', hMem', rfl⟩ := (mem_targets_state hExp hSize hj).mp hy
      -- Both targets are the state of the image of the same set under the same move.
      obtain ⟨S, -, hS⟩ := hExp.family j hj
      rw [← hS] at hMem hMem'
      have hTuple := (mem_subsetSuccessors_toList.mp hMem).2.trans
        (mem_subsetSuccessors_toList.mp hMem').2.symm
      rw [tuple_inj hExp.consistent hk hk'] at hTuple
      rw [hTuple]

/-- The subset automaton is well formed when every label of `a` assigns its alphabet. -/
theorem wellFormed_subsetConstruction (h : a.hasEpsilon = false)
    (hLabels : ∀ s l, Move.label l ∈ a.arcs s → l.hasDomain a.alphabet = true) :
    (subsetConstruction recv a).auto.WellFormed := by
  by_cases hInit : a.initial = ∅
  · rw [subsetConstruction_of_eq_empty recv hInit]
    refine ⟨?_, ?_, ?_, ?_, ?_, ?_⟩ <;> intros <;>
      simp_all [Automaton.arcs, Automaton.targets, Automaton.clear, Automaton.empty,
        ExtTreeSet.not_mem_empty]
  · have hExp := explored_subsetConstruction recv h hInit
    obtain ⟨hFind, hInitial, hCurrent, hAlphabet, -⟩ := subsetConstruction_start recv hInit
    have hZero : state 0 ∈ (subsetConstruction recv a).auto.states :=
      (hExp.mem_states _).mpr ⟨0, lt_size_of_find?_eq_some hExp.consistent hFind, rfl⟩
    refine ⟨?_, ?_, ?_, ?_, ?_, ?_⟩
    · intro s hs
      rw [hInitial, StateSet.mem_singleton] at hs
      rw [hs]
      exact hZero
    · intro s hs
      obtain ⟨j, hj, hsj, -⟩ := (hExp.mem_final s).mp hs
      exact (hExp.mem_states s).mpr ⟨j, hj, hsj⟩
    · intro s hs
      rw [hCurrent, StateSet.mem_singleton] at hs
      rw [hs]
      exact hZero
    · intro s m hm
      obtain ⟨u, hu⟩ := hExp.arcs_nonempty s m hm
      exact mem_states_of_mem_targets hExp hu
    · intro s l hl
      -- A label of the subset automaton is read by some member of the expanded set.
      obtain ⟨u, hu⟩ := hExp.arcs_nonempty s _ hl
      obtain ⟨j, hj, -, k, -, hMem, -⟩ := (mem_targets_of_explored hExp).mp hu
      obtain ⟨S, -, hS⟩ := hExp.family j hj
      rw [← hS] at hMem
      have hNonempty := (mem_subsetSuccessors_toList.mp hMem).1
      obtain ⟨y, hy⟩ : ∃ y, y ∈ a.table.image (.label l) S := by
        by_contra hNone
        exact hNonempty (ExtTreeSet.eq_empty_iff_forall_not_mem.mpr fun y hy => hNone ⟨y, hy⟩)
      obtain ⟨x, -, hxy⟩ := Table.mem_image.mp hy
      rw [hAlphabet]
      exact hLabels x l (Table.mem_arcs_of_mem_targets hxy)
    · intro s m t ht
      obtain ⟨-, -, -, k, hk, -, rfl⟩ := (mem_targets_of_explored hExp).mp ht
      exact (hExp.mem_states _).mpr ⟨k, hk, rfl⟩

end Semantics

section Determinize

/-- Removing silent arcs adds no target, so the runs of the result reach at most
`2 ^ a.reachBound.size` sets. -/
theorem encard_runSets_eliminateEpsilon_le :
    a.eliminateEpsilon.runSets.encard ≤ 2 ^ a.reachBound.size := by
  have hBound : ∀ x ∈ a.eliminateEpsilon.reachBound, x ∈ a.reachBound := by
    intro x hx
    change x ∈ a.eliminateEpsilon.initial ∪ a.eliminateEpsilon.table.targetSet at hx
    change x ∈ a.initial ∪ a.table.targetSet
    rw [ExtTreeSet.mem_union_iff, Table.mem_targetSet, eliminateEpsilon_initial] at hx
    rw [ExtTreeSet.mem_union_iff, Table.mem_targetSet]
    rcases hx with hx | ⟨s, m, hx⟩
    · exact Or.inl hx
    · right
      -- A target after removal is a target of a state silently reachable, or the same arc.
      cases h : a.hasEpsilon
      · rw [eliminateEpsilon_of_hasEpsilon_eq_false h] at hx
        exact ⟨s, m, hx⟩
      · by_cases hs : s ∈ a.states
        · obtain ⟨-, v, -, hv⟩ := (mem_targets_eliminateEpsilon_of_mem h hs).mp hx
          exact ⟨v, m, hv⟩
        · exact ⟨s, m, ((mem_targets_eliminateEpsilon_of_not_mem h hs).mp hx).2⟩
  calc a.eliminateEpsilon.runSets.encard ≤ 2 ^ a.eliminateEpsilon.reachBound.size :=
        encard_runSets_le
    _ ≤ 2 ^ a.reachBound.size :=
        pow_le_pow_right₀ one_le_two (by exact_mod_cast StateSet.size_le_size hBound)

/-- Determinizing `src` into any receiver gives a deterministic automaton over the alphabet of
`src`, well formed when `src` is, that accepts the words `src` accepts. This holds for a
well-formed `src` and for any `src` without silent arcs, as long as the runs of `src` with its
silent arcs removed reach at most `2 ^ 64` sets of states (the subset states are 64-bit
numbers). -/
theorem determinize_keeps_runs {src : Automaton}
    (hSrc : src.validate = none ∨ src.hasEpsilon = false)
    (hCap : src.eliminateEpsilon.runSets.encard ≤ 2 ^ 64) (recv : Automaton) :
    (recv.determinize src).isDeterministic = true ∧
      (recv.determinize src).alphabet = src.alphabet ∧
      (src.validate = none → (recv.determinize src).validate = none) ∧
      ∀ w, ((recv.determinize src).run w).accepts = (src.run w).accepts := by
  have hSilent : src.eliminateEpsilon.hasEpsilon = false := hasEpsilon_eliminateEpsilon
  refine ⟨isDeterministic_subsetConstruction recv hSilent hCap, ?_, ?_, fun w => ?_⟩
  · rw [determinize, alphabet_subsetConstruction, eliminateEpsilon_alphabet]
  · intro hValid
    have hWF := wellFormed_eliminateEpsilon (validate_eq_none_iff.mp hValid)
    exact validate_eq_none_iff.mpr (wellFormed_subsetConstruction recv hSilent hWF.label_domain)
  · rw [determinize, accepts_run_subsetConstruction recv hSilent hCap]
    rcases hSrc with hValid | hNoSilent
    · exact accepts_run_eliminateEpsilon (validate_eq_none_iff.mp hValid) w
    · rw [eliminateEpsilon_of_hasEpsilon_eq_false hNoSilent]

/-- The theorem at an automaton whose silent arc closes a loop back to the start. -/
theorem determinize_keeps_runs_through_silent_arc :
    let src := (((((Automaton.empty {}).addState 0).addState 1).addTransition 0
      ((∅ : Label).insert 0 true) 0).addTransition 0 ((∅ : Label).insert 0 true) 1).addEpsilon 1 0
      |>.markInitial 0 |>.markFinal 1
    (src.validate = none ∨ src.hasEpsilon = false) ∧ src.eliminateEpsilon.runSets.encard ≤ 2 ^ 64 ∧
      ((Automaton.empty {}).determinize src).isDeterministic = true ∧
      ((Automaton.empty {}).determinize src).alphabet = src.alphabet ∧
      (src.validate = none → ((Automaton.empty {}).determinize src).validate = none) ∧
      ∀ w, (((Automaton.empty {}).determinize src).run w).accepts = (src.run w).accepts := by
  intro src
  have hValid : src.validate = none := by decide
  have hSize : src.reachBound.size ≤ 64 := by decide
  have hCap : src.eliminateEpsilon.runSets.encard ≤ 2 ^ 64 :=
    encard_runSets_eliminateEpsilon_le.trans (pow_le_pow_right₀ one_le_two (by exact_mod_cast hSize))
  exact ⟨Or.inl hValid, hCap, determinize_keeps_runs (Or.inl hValid) hCap _⟩

/-- Labels pass through determinizing unchecked: an automaton without silent arcs whose two
loops read labels over different variables determinizes to an automaton that fails
validation. -/
theorem determinize_keeps_stray_label :
    let src := (((Automaton.empty {}).addState 0).addTransition 0 ((∅ : Label).insert 0 true) 0
      ).addTransition 0 ((∅ : Label).insert 1 true) 0 |>.markInitial 0 |>.markFinal 0
    src.hasEpsilon = false ∧ ((Automaton.empty {}).determinize src).validate ≠ none := by
  decide

end Determinize

end Automaton

end BitAutomata
