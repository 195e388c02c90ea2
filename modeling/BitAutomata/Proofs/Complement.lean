import Mathlib.Data.List.Sort
import BitAutomata.Complement
import BitAutomata.Proofs.Labels
import BitAutomata.Proofs.Subset

/-!
# Completion and complement

Completion enumerates the total labels over the alphabet (`Label.mem_all_toList_iff`), adds a
sink after the largest state, and sends every missing arc there. The sink is computed in 64-bit
arithmetic: it is a state already exactly when the largest state is the top of the range and the
bottom, which the addition wraps to, is a state as well (`freshState_mem_states_iff`).

When the sink is new, completing an automaton that is well formed, deterministic and whose arcs
all have targets (`Completable`) gives a complete deterministic automaton whose run on an
alphabet word sits where the old run does, or in the sink once the old run has died
(`reach_complete`). Swapping final and non-final states then accepts exactly the alphabet words
the old automaton rejects (`accepts_run_swapFinal_complete`). Both ways of building the start of a
complement give such an automaton: a deterministic source kept as it is, when its sink is new,
and the subset automaton, whose states are the numbers below the count of reachable sets.
-/

namespace BitAutomata

open Std

namespace Automaton

variable {a : Automaton} {s x y : State} {m : Move} {l : Label}

section Fresh

/-- The state after the largest one is already a state exactly when the largest is the top of
the 64-bit range and the bottom, where the addition wraps to, is a state too. -/
theorem freshState_mem_states_iff :
    a.freshState ∈ a.states ↔ Int64.maxValue ∈ a.states ∧ Int64.minValue ∈ a.states := by
  unfold freshState
  cases hMax : a.states.max? with
  | none =>
    rw [ExtTreeSet.max?_eq_none_iff.mp hMax]
    simp [ExtTreeSet.not_mem_empty]
  | some top =>
    obtain ⟨hTop, hLe⟩ := ExtTreeSet.max?_eq_some_iff_mem_and_forall.mp hMax
    have hBelow : ∀ x ∈ a.states, x ≤ top := fun x hx =>
      (Std.LawfulOrderOrd.isLE_compare x top).mp (hLe x hx)
    by_cases hTopMax : top = Int64.maxValue
    · -- The addition wraps to the bottom of the range.
      subst hTopMax
      have hWrap : Int64.maxValue + 1 = Int64.minValue := by decide
      simp only [hWrap, hTop, true_and]
    · -- Below the top the next state is larger than every state.
      have hLt : top < top + 1 := by
        have := Int64.le_maxValue top
        grind
      constructor
      · intro hNext
        exact absurd (hBelow _ hNext) (by grind)
      · rintro ⟨hMaxMem, -⟩
        exact absurd (le_antisymm (hBelow _ hMaxMem) (Int64.le_maxValue top)).symm hTopMax

/-- The state after the largest, read off the sorted list of states. -/
theorem freshState_eq_getLast :
    a.freshState = (a.states.toList.getLast?.map (· + 1)).getD 0 := by
  unfold freshState
  rw [ExtTreeSet.max?_eq_getLast?_toList]
  cases a.states.toList.getLast? <;> rfl

/-- An automaton whose states are all nonnegative has a new state after its largest one. -/
theorem freshState_not_mem_of_nonneg (h : ∀ s ∈ a.states, 0 ≤ s) : a.freshState ∉ a.states := by
  rw [freshState_mem_states_iff]
  rintro ⟨-, hMin⟩
  exact absurd (h _ hMin) (by decide)

end Fresh

section Holes

/-- A hole is a state with a total label over the alphabet that none of its arcs reads. -/
theorem mem_holes : (s, l) ∈ a.holes ↔
    s ∈ a.states ∧ l.hasDomain a.alphabet = true ∧ Move.label l ∉ a.arcs s := by
  simp only [holes, List.mem_flatMap, List.mem_filterMap, ExtTreeSet.mem_toList,
    Label.mem_all_toList_iff, ExtTreeMap.contains_iff_mem]
  constructor
  · rintro ⟨s', hs', l', hl', hHole⟩
    by_cases hArc : Move.label l' ∈ a.arcs s'
    · simp [hArc] at hHole
    · simp only [hArc, if_false, Option.some.injEq, Prod.mk.injEq] at hHole
      obtain ⟨rfl, rfl⟩ := hHole
      exact ⟨hs', hl', hArc⟩
  · rintro ⟨hs, hl, hArc⟩
    exact ⟨s, hs, l, hl, by simp [hArc]⟩

theorem needsSink_of_mem_holes {e : State × Label} (h : e ∈ a.holes) : a.needsSink = true := by
  have hNe : a.holes ≠ [] := List.ne_nil_of_mem h
  simp [needsSink, hNe]

theorem needsSink_of_initial_eq_empty (h : a.initial = ∅) : a.needsSink = true := by
  simp [needsSink, h]

theorem initial_ne_empty_of_needsSink_eq_false (h : a.needsSink = false) : a.initial ≠ ∅ :=
  fun hEmpty => by rw [needsSink_of_initial_eq_empty hEmpty] at h; cases h

end Holes

section Completion

theorem foldl_addArc {β : Type} (L : List β) (f : β → State) (g : β → Move) (u : State)
    (b : Automaton) :
    L.foldl (fun b x => b.addArc (f x) (g x) u) b =
      { b with table := L.foldl (fun t x => t.addArc (f x) (g x) u) b.table } := by
  induction L generalizing b with
  | nil => rfl
  | cons x xs ih =>
    rw [List.foldl_cons, ih]
    rfl

theorem mem_targets_foldl_addArc {β : Type} (L : List β) (f : β → State) (g : β → Move)
    (u : State) (t : Table) :
    y ∈ (L.foldl (fun t x => t.addArc (f x) (g x) u) t).targets s m ↔
      y ∈ t.targets s m ∨ (y = u ∧ ∃ x ∈ L, f x = s ∧ g x = m) := by
  induction L generalizing t with
  | nil => simp
  | cons x xs ih =>
    rw [List.foldl_cons, ih, Table.mem_targets_addArc]
    simp only [List.mem_cons, exists_eq_or_imp]
    tauto

theorem mem_arcs_foldl_addArc {β : Type} (L : List β) (f : β → State) (g : β → Move)
    (u : State) (t : Table) :
    m ∈ (L.foldl (fun t x => t.addArc (f x) (g x) u) t).arcs s ↔
      m ∈ t.arcs s ∨ ∃ x ∈ L, f x = s ∧ g x = m := by
  induction L generalizing t with
  | nil => simp
  | cons x xs ih =>
    rw [List.foldl_cons, ih, Table.mem_arcs_addArc]
    simp only [List.mem_cons, exists_eq_or_imp]
    tauto

theorem complete_of_needsSink_eq_false (h : a.needsSink = false) : a.complete = a := by
  simp [complete, h]

/-- With something missing, completion adds the sink as a state, an arc to the sink for every
total label from the sink and from every hole, and the sink as initial state if there is none. -/
theorem complete_of_needsSink (h : a.needsSink = true) :
    a.complete = { a with
      states := a.states.insert a.freshState
      table := a.holes.foldl (fun t e => t.addArc e.1 (.label e.2) a.freshState)
        ((Label.all a.alphabet.toList).foldl
          (fun t l => t.addArc a.freshState (.label l) a.freshState) a.table)
      initial := if a.initial = ∅ then {a.freshState} else a.initial
      current := if a.initial = ∅ then {a.freshState} else a.current } := by
  rw [complete, if_pos h]
  simp only [foldl_addArc]
  by_cases hInit : a.initial = ∅
  · simp [addState, hInit]
  · have hNotEmpty : a.initial.isEmpty = false :=
      Bool.eq_false_iff.mpr fun hEmpty => hInit (ExtTreeSet.isEmpty_iff.mp hEmpty)
    simp [addState, hInit, hNotEmpty]

/-- A missing arc is one that reads a total label from the sink or from a hole. -/
def Missing (a : Automaton) (s : State) (m : Move) : Prop :=
  ∃ l, m = .label l ∧ l.hasDomain a.alphabet = true ∧
    (s = a.freshState ∨ (s ∈ a.states ∧ Move.label l ∉ a.arcs s))

theorem mem_targets_complete (h : a.needsSink = true) :
    y ∈ a.complete.targets s m ↔ y ∈ a.targets s m ∨ (y = a.freshState ∧ a.Missing s m) := by
  rw [complete_of_needsSink h]
  change y ∈ Table.targets _ s m ↔ _
  rw [mem_targets_foldl_addArc, mem_targets_foldl_addArc]
  simp only [Missing, Prod.exists, mem_holes, Label.mem_all_toList_iff]
  constructor
  · rintro ((hy | ⟨rfl, l, hl, rfl, rfl⟩) | ⟨rfl, s', l, ⟨hs, hl, hArc⟩, rfl, rfl⟩)
    · exact Or.inl hy
    · exact Or.inr ⟨rfl, l, rfl, hl, Or.inl rfl⟩
    · exact Or.inr ⟨rfl, l, rfl, hl, Or.inr ⟨hs, hArc⟩⟩
  · rintro (hy | ⟨rfl, l, rfl, hl, rfl | ⟨hs, hArc⟩⟩)
    · exact Or.inl (Or.inl hy)
    · exact Or.inl (Or.inr ⟨rfl, l, hl, rfl, rfl⟩)
    · exact Or.inr ⟨rfl, s, l, ⟨hs, hl, hArc⟩, rfl, rfl⟩

theorem mem_arcs_complete (h : a.needsSink = true) :
    m ∈ a.complete.arcs s ↔ m ∈ a.arcs s ∨ a.Missing s m := by
  rw [complete_of_needsSink h]
  change m ∈ Table.arcs _ s ↔ _
  rw [mem_arcs_foldl_addArc, mem_arcs_foldl_addArc]
  simp only [Missing, Prod.exists, mem_holes, Label.mem_all_toList_iff]
  constructor
  · rintro ((hm | ⟨l, hl, rfl, rfl⟩) | ⟨s', l, ⟨hs, hl, hArc⟩, rfl, rfl⟩)
    · exact Or.inl hm
    · exact Or.inr ⟨l, rfl, hl, Or.inl rfl⟩
    · exact Or.inr ⟨l, rfl, hl, Or.inr ⟨hs, hArc⟩⟩
  · rintro (hm | ⟨l, rfl, hl, rfl | ⟨hs, hArc⟩⟩)
    · exact Or.inl (Or.inl hm)
    · exact Or.inl (Or.inr ⟨l, hl, rfl, rfl⟩)
    · exact Or.inr ⟨s, l, ⟨hs, hl, hArc⟩, rfl, rfl⟩

theorem mem_states_complete :
    s ∈ a.complete.states ↔ s ∈ a.states ∨ (a.needsSink = true ∧ s = a.freshState) := by
  cases h : a.needsSink
  · rw [complete_of_needsSink_eq_false h]
    simp
  · rw [complete_of_needsSink h]
    rw [ExtTreeSet.mem_insert, Std.compare_eq_iff_eq]
    simp [eq_comm, or_comm]

theorem initial_complete :
    a.complete.initial = if a.initial = ∅ then {a.freshState} else a.initial := by
  cases h : a.needsSink
  · rw [complete_of_needsSink_eq_false h, if_neg (initial_ne_empty_of_needsSink_eq_false h)]
  · rw [complete_of_needsSink h]

@[simp]
theorem final_complete : a.complete.final = a.final := by
  cases h : a.needsSink
  · rw [complete_of_needsSink_eq_false h]
  · rw [complete_of_needsSink h]

@[simp]
theorem alphabet_complete : a.complete.alphabet = a.alphabet := by
  cases h : a.needsSink
  · rw [complete_of_needsSink_eq_false h]
  · rw [complete_of_needsSink h]

/-- An arc that is not missing keeps its targets. -/
theorem targets_complete_of_not_missing (h : ¬ a.Missing s m) :
    a.complete.targets s m = a.targets s m := by
  cases hSink : a.needsSink
  · rw [complete_of_needsSink_eq_false hSink]
  · apply ExtTreeSet.ext_mem
    intro y
    rw [mem_targets_complete hSink]
    simp [h]

/-- A state of a well-formed automaton is reached only at states. -/
theorem WellFormed.mem_states_of_mem_reach (hWF : a.WellFormed) {w : List Label}
    (hx : x ∈ a.reach w) : x ∈ a.states := by
  rcases ExtTreeSet.mem_union_iff.mp (mem_initial_union_targetSet_of_mem_reach hx) with hx | hx
  · exact hWF.initial_mem x hx
  · obtain ⟨s, m, hx⟩ := Table.mem_targetSet.mp hx
    exact hWF.target_mem s m x hx

end Completion

section Completable

/-- What completion needs of the automaton it starts from for the result to be complete and
deterministic: a well-formed deterministic automaton whose arcs all have targets, with the
state after its largest not yet a state. -/
structure Completable (a : Automaton) : Prop where
  wellFormed : a.WellFormed
  deterministic : a.isDeterministic = true
  arcs_nonempty : ∀ s m, m ∈ a.arcs s → ∃ u, u ∈ a.targets s m
  fresh : a.freshState ∉ a.states

namespace Completable

variable (hA : a.Completable)
include hA

theorem eq_singleton_of_mem_arcs (hm : m ∈ a.arcs s) : ∃ u, a.targets s m = {u} := by
  obtain ⟨u, hu⟩ := hA.arcs_nonempty s m hm
  exact ⟨u, StateSet.eq_singleton_of_mem hu ((isDeterministic_iff.mp hA.deterministic).2.2 s m)⟩

/-- Every arc reads a label over the alphabet: a silent arc would have a target. -/
theorem label_of_mem_arcs (hm : m ∈ a.arcs s) : ∃ l, m = .label l ∧ l.hasDomain a.alphabet = true := by
  obtain ⟨u, hu⟩ := hA.arcs_nonempty s m hm
  rcases Move.eq_epsilon_or_eq_label m with rfl | ⟨l, rfl⟩
  · have hNone := hasEpsilon_eq_false_iff.mp (isDeterministic_iff.mp hA.deterministic).2.1 s
    rw [hNone] at hu
    exact absurd hu ExtTreeSet.not_mem_empty
  · exact ⟨l, rfl, hA.wellFormed.label_domain s l hm⟩

theorem not_mem_arcs_freshState : m ∉ a.arcs a.freshState :=
  fun hm => hA.fresh (hA.wellFormed.source_mem _ _ hm)

theorem not_missing_of_mem_arcs (hm : m ∈ a.arcs s) : ¬ a.Missing s m := by
  rintro ⟨l, rfl, -, rfl | ⟨-, hArc⟩⟩
  · exact hA.not_mem_arcs_freshState hm
  · exact hArc hm

/-- A missing arc leads to the sink alone. -/
theorem targets_complete_of_missing (hSink : a.needsSink = true) (hMissing : a.Missing s m) :
    a.complete.targets s m = {a.freshState} := by
  have hEmpty : a.targets s m = ∅ := by
    obtain ⟨l, rfl, -, rfl | ⟨-, hArc⟩⟩ := hMissing
    · exact targets_eq_empty_of_not_mem_arcs hA.not_mem_arcs_freshState
    · exact targets_eq_empty_of_not_mem_arcs hArc
  apply ExtTreeSet.ext_mem
  intro y
  rw [mem_targets_complete hSink, hEmpty, StateSet.mem_singleton]
  simp [ExtTreeSet.not_mem_empty, hMissing]

theorem size_targets_complete_le (s : State) (m : Move) : (a.complete.targets s m).size ≤ 1 := by
  have hDet := (isDeterministic_iff.mp hA.deterministic).2.2 s m
  by_cases hMissing : a.Missing s m
  · cases hSink : a.needsSink
    · rw [complete_of_needsSink_eq_false hSink]
      exact hDet
    · rw [hA.targets_complete_of_missing hSink hMissing]
      exact StateSet.size_singleton.le
  · rw [targets_complete_of_not_missing hMissing]
    exact hDet

/-- Every state of the completion has exactly one target under each total label. -/
theorem targets_complete_label (hs : s ∈ a.complete.states) (hl : l.hasDomain a.alphabet = true) :
    ∃ u, a.complete.targets s (.label l) = {u} := by
  rcases mem_states_complete.mp hs with hs | ⟨hSink, rfl⟩
  · by_cases hm : Move.label l ∈ a.arcs s
    · obtain ⟨u, hu⟩ := hA.eq_singleton_of_mem_arcs hm
      exact ⟨u, (targets_complete_of_not_missing (hA.not_missing_of_mem_arcs hm)).trans hu⟩
    · -- A hole: the arc is missing and goes to the sink.
      have hHole : (s, l) ∈ a.holes := mem_holes.mpr ⟨hs, hl, hm⟩
      exact ⟨_, hA.targets_complete_of_missing (needsSink_of_mem_holes hHole)
        ⟨l, rfl, hl, Or.inr ⟨hs, hm⟩⟩⟩
  · exact ⟨_, hA.targets_complete_of_missing hSink ⟨l, rfl, hl, Or.inl rfl⟩⟩

/-- Every arc of the completion leaves a state and reads a total label. -/
theorem label_of_mem_arcs_complete (hm : m ∈ a.complete.arcs s) :
    s ∈ a.complete.states ∧ ∃ l, m = .label l ∧ l.hasDomain a.alphabet = true := by
  cases hSink : a.needsSink
  · rw [complete_of_needsSink_eq_false hSink] at hm ⊢
    exact ⟨hA.wellFormed.source_mem s m hm, hA.label_of_mem_arcs hm⟩
  · rw [mem_states_complete, hSink]
    rcases (mem_arcs_complete hSink).mp hm with hm | ⟨l, rfl, hl, hs⟩
    · exact ⟨Or.inl (hA.wellFormed.source_mem s m hm), hA.label_of_mem_arcs hm⟩
    · refine ⟨?_, l, rfl, hl⟩
      rcases hs with rfl | ⟨hs, -⟩
      · exact Or.inr ⟨rfl, rfl⟩
      · exact Or.inl hs

/-- The completion starts at one state: the initial state, or the sink when there is none. -/
theorem initial_complete_eq_singleton : ∃ s ∈ a.complete.states, a.complete.initial = {s} := by
  rw [initial_complete]
  by_cases hInit : a.initial = ∅
  · rw [if_pos hInit]
    exact ⟨a.freshState, mem_states_complete.mpr (Or.inr ⟨needsSink_of_initial_eq_empty hInit, rfl⟩),
      rfl⟩
  · rw [if_neg hInit]
    rcases StateSet.eq_empty_or_eq_singleton (isDeterministic_iff.mp hA.deterministic).1 with
      hEmpty | ⟨x, hx⟩
    · exact absurd hEmpty hInit
    · have hMem : x ∈ a.initial := by
        rw [hx]
        exact StateSet.mem_singleton.mpr rfl
      exact ⟨x, mem_states_complete.mpr (Or.inl (hA.wellFormed.initial_mem x hMem)), hx⟩

theorem isDeterministic_complete : a.complete.isDeterministic = true := by
  obtain ⟨s, -, hInit⟩ := hA.initial_complete_eq_singleton
  refine isDeterministic_iff.mpr ⟨hInit ▸ StateSet.size_singleton.le, hasEpsilon_eq_false_iff.mpr fun s => ?_,
    hA.size_targets_complete_le⟩
  -- Every arc of the completion reads a label, so none is silent.
  apply ExtTreeSet.eq_empty_iff_forall_not_mem.mpr
  intro u hu
  obtain ⟨-, l, hl, -⟩ := hA.label_of_mem_arcs_complete (Table.mem_arcs_of_mem_targets hu)
  exact Move.label_ne_epsilon l hl.symm

/-- On an alphabet word the completion sits where the run of `a` does, or in the sink once that
run has died. -/
theorem reach_complete (w : List Label) (hw : ∀ l ∈ w, l.hasDomain a.alphabet = true) :
    ∃ x, a.complete.reach w = {x} ∧
      (a.reach w = {x} ∨ (a.reach w = ∅ ∧ a.needsSink = true ∧ x = a.freshState)) := by
  have hSilent : a.hasEpsilon = false := (isDeterministic_iff.mp hA.deterministic).2.1
  have hSilentComplete : a.complete.hasEpsilon = false :=
    (isDeterministic_iff.mp hA.isDeterministic_complete).2.1
  induction w using List.reverseRecOn with
  | nil =>
    rw [reach_nil_of_hasEpsilon_eq_false hSilentComplete, reach_nil_of_hasEpsilon_eq_false hSilent,
      initial_complete]
    by_cases hInit : a.initial = ∅
    · exact ⟨a.freshState, by rw [if_pos hInit], Or.inr ⟨hInit, needsSink_of_initial_eq_empty hInit, rfl⟩⟩
    · rw [if_neg hInit]
      rcases StateSet.eq_empty_or_eq_singleton (isDeterministic_iff.mp hA.deterministic).1 with
        hEmpty | ⟨x, hx⟩
      · exact absurd hEmpty hInit
      · exact ⟨x, hx, Or.inl hx⟩
  | append_singleton w l ih =>
    have hl : l.hasDomain a.alphabet = true := hw l (by simp)
    obtain ⟨x, hComplete, hRun⟩ := ih fun l' hl' => hw l' (by simp [hl'])
    rw [reach_append_singleton_of_hasEpsilon_eq_false hSilentComplete, hComplete,
      Table.image_singleton, reach_append_singleton_of_hasEpsilon_eq_false hSilent]
    rcases hRun with hRun | ⟨hDead, hSink, rfl⟩
    · -- The run of `a` is alive at `x`: follow its arc, or fall into the sink at a hole.
      rw [hRun, Table.image_singleton]
      have hx : x ∈ a.states := hA.wellFormed.mem_states_of_mem_reach (w := w) (by
        rw [hRun]
        exact StateSet.mem_singleton.mpr rfl)
      by_cases hm : Move.label l ∈ a.arcs x
      · obtain ⟨u, hu⟩ := hA.eq_singleton_of_mem_arcs hm
        refine ⟨u, ?_, Or.inl hu⟩
        rw [← hu]
        exact targets_complete_of_not_missing (hA.not_missing_of_mem_arcs hm)
      · have hSink := needsSink_of_mem_holes (mem_holes.mpr ⟨hx, hl, hm⟩)
        exact ⟨a.freshState, hA.targets_complete_of_missing hSink ⟨l, rfl, hl, Or.inr ⟨hx, hm⟩⟩,
          Or.inr ⟨targets_eq_empty_of_not_mem_arcs hm, hSink, rfl⟩⟩
    · -- The run of `a` has died, and the sink loops on every total label.
      rw [hDead, Table.image_empty]
      exact ⟨a.freshState, hA.targets_complete_of_missing hSink ⟨l, rfl, hl, Or.inl rfl⟩,
        Or.inr ⟨rfl, hSink, rfl⟩⟩

/-- Swapping final and non-final states of the completion accepts exactly the alphabet words
that `a` rejects. -/
theorem accepts_run_swapFinal_complete (w : List Label)
    (hw : ∀ l ∈ w, l.hasDomain a.alphabet = true) :
    (a.complete.swapFinal.run w).accepts = !(a.run w).accepts := by
  obtain ⟨x, hComplete, hRun⟩ := hA.reach_complete w hw
  have hx : x ∈ a.complete.states := by
    rcases hRun with hRun | ⟨-, hSink, rfl⟩
    · refine mem_states_complete.mpr (Or.inl (hA.wellFormed.mem_states_of_mem_reach (w := w) ?_))
      rw [hRun]
      exact StateSet.mem_singleton.mpr rfl
    · exact mem_states_complete.mpr (Or.inr ⟨hSink, rfl⟩)
  -- The swapped automaton runs as the completion does; only the final states differ.
  have hSwapped : (a.complete.swapFinal.run w).accepts = true ↔ x ∉ a.final := by
    rw [accepts_run_iff]
    change (∃ y ∈ a.complete.reach w, y ∈ a.complete.states.filter _) ↔ _
    rw [hComplete]
    simp only [StateSet.mem_singleton, exists_eq_left, StateSet.mem_filter, hx, true_and,
      Bool.not_eq_true', Bool.eq_false_iff, ne_eq, ExtTreeSet.contains_iff_mem, final_complete]
  have hOld : (a.run w).accepts = true ↔ x ∈ a.final := by
    rw [accepts_run_iff]
    rcases hRun with hRun | ⟨hDead, -, rfl⟩
    · rw [hRun]
      simp
    · rw [hDead]
      simp only [ExtTreeSet.not_mem_empty, false_and, exists_false, false_iff]
      exact fun hFinal => hA.fresh (hA.wellFormed.final_mem _ hFinal)
  rw [Bool.eq_iff_iff, hSwapped, Bool.not_eq_true', ← Bool.not_eq_true, hOld]

end Completable

end Completable

section Complement

variable {src : Automaton}

theorem complementBase_of_isDeterministic (h : src.isDeterministic = true) (recv : Automaton) :
    complementBase recv src = { src with options := recv.options } := by
  simp [complementBase, h]

theorem complementBase_of_isDeterministic_eq_false (h : src.isDeterministic = false)
    (recv : Automaton) : complementBase recv src = (empty recv.options).determinize src := by
  simp [complementBase, h]

/-- A deterministic source is completable as it is, whatever its options, when the state after
its largest is new. -/
theorem completable_of_isDeterministic (hWF : src.WellFormed) (hDet : src.isDeterministic = true)
    (hArcs : ∀ s m, m ∈ src.arcs s → ∃ u, u ∈ src.targets s m)
    (hFresh : src.freshState ∉ src.states) (o : Options) :
    ({ src with options := o } : Automaton).Completable :=
  ⟨⟨hWF.initial_mem, hWF.final_mem, hWF.current_mem, hWF.source_mem, hWF.label_domain,
    hWF.target_mem⟩, hDet, hArcs, hFresh⟩

/-- The subset automaton of a well-formed source is completable while its runs reach at most
`2 ^ 63` sets: its states are then the nonnegative numbers of the sets, so the state after the
largest is new. -/
theorem completable_determinize (hValid : src.validate = none)
    (hCap : src.eliminateEpsilon.runSets.encard ≤ 2 ^ 63) (o : Options) :
    ((empty o).determinize src).Completable := by
  have hWF := wellFormed_eliminateEpsilon (validate_eq_none_iff.mp hValid)
  have hSilent : src.eliminateEpsilon.hasEpsilon = false := hasEpsilon_eliminateEpsilon
  have hCap64 : src.eliminateEpsilon.runSets.encard ≤ 2 ^ 64 :=
    hCap.trans (pow_le_pow_right₀ one_le_two (by omega))
  refine ⟨wellFormed_subsetConstruction _ hSilent hWF.label_domain,
    isDeterministic_subsetConstruction _ hSilent hCap64, ?_, ?_⟩
  · intro s m hm
    change m ∈ (subsetConstruction (empty o) src.eliminateEpsilon).auto.arcs s at hm
    by_cases hInit : src.eliminateEpsilon.initial = ∅
    · -- Without initial states nothing is built.
      rw [subsetConstruction_of_eq_empty _ hInit] at hm
      simp [Automaton.arcs, Automaton.clear, Automaton.empty] at hm
    · exact (explored_subsetConstruction _ hSilent hInit).arcs_nonempty s m hm
  · apply freshState_not_mem_of_nonneg
    intro s hs
    change s ∈ (subsetConstruction (empty o) src.eliminateEpsilon).auto.states at hs
    by_cases hInit : src.eliminateEpsilon.initial = ∅
    · rw [subsetConstruction_of_eq_empty _ hInit] at hs
      simp [Automaton.clear, Automaton.empty, ExtTreeSet.not_mem_empty] at hs
    · -- A state is the number of a set, and at most `2 ^ 63` sets are numbered.
      have hExp := explored_subsetConstruction (empty o) hSilent hInit
      have hSize := size_subsetConstruction_le_of_encard_le (empty o) hSilent hInit
        (by exact_mod_cast hCap : src.eliminateEpsilon.runSets.encard ≤ ((2 ^ 63 : ℕ) : ℕ∞))
      obtain ⟨j, hj, rfl⟩ := (hExp.mem_states s).mp hs
      exact Numbering.state_nonneg (hj.trans_le hSize)

/-- Either way it is built, the start of a complement is completable, has the alphabet of the
source and accepts what the source accepts. -/
theorem complementBase_spec (hValid : src.validate = none)
    (hArcs : ∀ s m, m ∈ src.arcs s → ∃ u, u ∈ src.targets s m)
    (hSink : src.isDeterministic = true →
      ¬(Int64.maxValue ∈ src.states ∧ Int64.minValue ∈ src.states))
    (hCap : src.isDeterministic = false → src.eliminateEpsilon.runSets.encard ≤ 2 ^ 63)
    (recv : Automaton) :
    (complementBase recv src).Completable ∧ (complementBase recv src).alphabet = src.alphabet ∧
      ∀ w, ((complementBase recv src).run w).accepts = (src.run w).accepts := by
  have hWF := validate_eq_none_iff.mp hValid
  cases hDet : src.isDeterministic
  · -- A nondeterministic source is determinized, with the options of the receiver.
    have hSilent : src.eliminateEpsilon.hasEpsilon = false := hasEpsilon_eliminateEpsilon
    have hCap64 : src.eliminateEpsilon.runSets.encard ≤ 2 ^ 64 :=
      (hCap hDet).trans (pow_le_pow_right₀ one_le_two (by omega))
    rw [complementBase_of_isDeterministic_eq_false hDet]
    refine ⟨completable_determinize hValid (hCap hDet) _, ?_, fun w => ?_⟩
    · rw [determinize, alphabet_subsetConstruction, eliminateEpsilon_alphabet]
    · rw [determinize, accepts_run_subsetConstruction _ hSilent hCap64,
        accepts_run_eliminateEpsilon hWF]
  · -- A deterministic source is kept as it is, with the options of the receiver.
    have hFresh : src.freshState ∉ src.states :=
      fun hMem => hSink hDet (freshState_mem_states_iff.mp hMem)
    rw [complementBase_of_isDeterministic hDet]
    exact ⟨completable_of_isDeterministic hWF hDet hArcs hFresh _, rfl, fun _ => rfl⟩

/-- The complement of a well-formed automaton, built into any receiver, is deterministic with one
initial state and the alphabet of the source; each of its states has exactly one target under
each total label over that alphabet, and it has no other arcs; and it accepts exactly the
alphabet words that the source rejects. This holds when the completion sink is a new state: a
deterministic source, kept as it is, must not hold both ends of the 64-bit range, since the
state after the top wraps around to the bottom; a nondeterministic source is determinized, and
its runs must reach at most `2 ^ 63` sets, so that the subset states stay nonnegative. Arcs are
taken to have targets, as every operation of the library builds them. -/
theorem complement_accepts_rejected_words (hValid : src.validate = none)
    (hArcs : ∀ s m, m ∈ src.arcs s → ∃ u, u ∈ src.targets s m)
    (hSink : src.isDeterministic = true →
      ¬(Int64.maxValue ∈ src.states ∧ Int64.minValue ∈ src.states))
    (hCap : src.isDeterministic = false → src.eliminateEpsilon.runSets.encard ≤ 2 ^ 63)
    (recv : Automaton) :
    (recv.complement src).isDeterministic = true ∧
      (∃ s ∈ (recv.complement src).states, (recv.complement src).initial = {s}) ∧
      (recv.complement src).alphabet = src.alphabet ∧
      (∀ s ∈ (recv.complement src).states, ∀ l, l.hasDomain src.alphabet = true →
        ∃ u, (recv.complement src).targets s (.label l) = {u}) ∧
      (∀ s m, m ∈ (recv.complement src).arcs s →
        s ∈ (recv.complement src).states ∧ ∃ l, m = .label l ∧ l.hasDomain src.alphabet = true) ∧
      ∀ w, (∀ l ∈ w, l.hasDomain src.alphabet = true) →
        ((recv.complement src).run w).accepts = !(src.run w).accepts := by
  obtain ⟨hA, hAlphabet, hRuns⟩ := complementBase_spec hValid hArcs hSink hCap recv
  rw [complement, ← hAlphabet]
  refine ⟨hA.isDeterministic_complete, hA.initial_complete_eq_singleton, alphabet_complete,
    fun s hs l hl => hA.targets_complete_label hs hl, fun s m hm => hA.label_of_mem_arcs_complete hm,
    fun w hw => ?_⟩
  rw [hA.accepts_run_swapFinal_complete w hw, hRuns w]

/-- The theorem on both of its paths: a deterministic automaton with missing arcs, which the
complement keeps and completes, and a nondeterministic one whose silent arc leads back to its
start, which the complement determinizes first. -/
theorem complement_accepts_rejected_words_on_both_paths :
    let det := ((((Automaton.empty {}).addState 0).addState 1).addTransition 0
      ((∅ : Label).insert 0 true) 1).addTransition 1 ((∅ : Label).insert 0 true) 1
      |>.markInitial 0 |>.markFinal 1
    let nondet := (((((Automaton.empty {}).addState 0).addState 1).addTransition 0
      ((∅ : Label).insert 0 true) 0).addTransition 0 ((∅ : Label).insert 0 true) 1).addEpsilon 1 0
      |>.markInitial 0 |>.markFinal 1
    let holds := fun src : Automaton =>
      let a := (Automaton.empty {}).complement src
      src.validate = none ∧ (∀ s m, m ∈ src.arcs s → ∃ u, u ∈ src.targets s m) ∧
        (src.isDeterministic = true →
          ¬(Int64.maxValue ∈ src.states ∧ Int64.minValue ∈ src.states)) ∧
        (src.isDeterministic = false → src.eliminateEpsilon.runSets.encard ≤ 2 ^ 63) ∧
        a.isDeterministic = true ∧ (∃ s ∈ a.states, a.initial = {s}) ∧ a.alphabet = src.alphabet ∧
        (∀ s ∈ a.states, ∀ l, l.hasDomain src.alphabet = true →
          ∃ u, a.targets s (.label l) = {u}) ∧
        (∀ s m, m ∈ a.arcs s → s ∈ a.states ∧ ∃ l, m = .label l ∧ l.hasDomain src.alphabet = true) ∧
        ∀ w, (∀ l ∈ w, l.hasDomain src.alphabet = true) → (a.run w).accepts = !(src.run w).accepts
    det.isDeterministic = true ∧ holds det ∧ nondet.isDeterministic = false ∧ holds nondet := by
  intro det nondet holds
  have hDet : det.isDeterministic = true := by decide
  have hNonDet : nondet.isDeterministic = false := by decide
  -- The deterministic source is kept; its states lie far from the ends of the 64-bit range.
  have hDetHolds : holds det := by
    have hValid : det.validate = none := by decide
    have hArcs : ∀ s m, m ∈ det.arcs s → ∃ u, u ∈ det.targets s m :=
      arcs_nonempty_iff.mpr (by decide)
    have hSink : det.isDeterministic = true →
        ¬(Int64.maxValue ∈ det.states ∧ Int64.minValue ∈ det.states) :=
      fun _ => by decide
    have hCap : det.isDeterministic = false → det.eliminateEpsilon.runSets.encard ≤ 2 ^ 63 := by
      rw [hDet]
      intro hFalse
      cases hFalse
    exact ⟨hValid, hArcs, hSink, hCap,
      complement_accepts_rejected_words hValid hArcs hSink hCap (Automaton.empty {})⟩
  -- The nondeterministic source is determinized; its runs reach few sets.
  have hNonDetHolds : holds nondet := by
    have hValid : nondet.validate = none := by decide
    have hArcs : ∀ s m, m ∈ nondet.arcs s → ∃ u, u ∈ nondet.targets s m :=
      arcs_nonempty_iff.mpr (by decide)
    have hSize : nondet.reachBound.size ≤ 63 := by decide
    have hCap : nondet.isDeterministic = false →
        nondet.eliminateEpsilon.runSets.encard ≤ 2 ^ 63 :=
      fun _ => encard_runSets_eliminateEpsilon_le.trans
        (pow_le_pow_right₀ one_le_two (by exact_mod_cast hSize))
    have hSink : nondet.isDeterministic = true →
        ¬(Int64.maxValue ∈ nondet.states ∧ Int64.minValue ∈ nondet.states) := by
      rw [hNonDet]
      intro hTrue
      cases hTrue
    exact ⟨hValid, hArcs, hSink, hCap,
      complement_accepts_rejected_words hValid hArcs hSink hCap (Automaton.empty {})⟩
  exact ⟨hDet, hDetHolds, hNonDet, hNonDetHolds⟩

/-- When both ends of the 64-bit range are states, the sink wraps onto the bottom one. The
automaton that starts at the top, accepts at the bottom and has no arcs rejects the one-letter
word over its empty alphabet, and so does its complement: the letter leads to the sink, which is
the bottom state, and the swap made it non-final. -/
theorem complement_sink_wraps_onto_bottom_state :
    let src := (((Automaton.empty {}).addState Int64.minValue).addState Int64.maxValue
      |>.markInitial Int64.maxValue |>.markFinal Int64.minValue)
    src.validate = none ∧ (∅ : Label).hasDomain src.alphabet = true ∧
      (((Automaton.empty {}).complement src).run [∅]).accepts = false ∧
      (src.run [∅]).accepts = false := by
  intro src
  have hDet : src.isDeterministic = true := by decide
  have hFinal : Int64.minValue ∈ src.final := by decide
  -- The letter leads from the top state to the bottom one, where the sink wrapped to.
  have hReach : (((Automaton.empty {}).complement src).reach [∅]).toList = [Int64.minValue] := by
    simp only [complement, complete, freshState_eq_getLast]
    decide
  refine ⟨by decide, by decide, ?_, by decide⟩
  rw [Bool.eq_false_iff, ne_eq, accepts_run_iff]
  rintro ⟨x, hx, hxFinal⟩
  rw [← ExtTreeSet.mem_toList, hReach, List.mem_singleton] at hx
  subst hx
  -- The bottom state was final, so the swap made it non-final.
  rw [complement, complementBase_of_isDeterministic hDet] at hxFinal
  have hKept := (StateSet.mem_filter.mp hxFinal).2
  simp only [final_complete, Bool.not_eq_true', Bool.eq_false_iff, ne_eq,
    ExtTreeSet.contains_iff_mem] at hKept
  exact hKept hFinal

end Complement

end Automaton

end BitAutomata
