import BitAutomata.Proofs.Complement

/-!
# Completing any well-formed automaton

Completion only adds arcs that read total labels, from the sink and from states that miss them,
and starts at the sink when no state is initial. A new sink has no arcs of its own and is not
final, so the run of the completion reaches what the old run reaches and, once the old run has
died or met a missing arc, the sink and nothing else (`mem_reach_complete`): the language is kept
for every well-formed automaton, silent arcs and nondeterminism included (`accepts_run_complete`).

Whether or not the sink is new, completing keeps an automaton well formed
(`wellFormed_complete`) and leaves nothing missing, so a second completion changes nothing
(`complete_complete`). `complete_keeps_language` collects these facts with the deterministic
ones proved for complements.

The sink is the state after the largest in 64-bit arithmetic. When both ends of the range are
states it wraps onto the bottom one, which may be final: the missing arc of the top state then
leads into an accepting state (`complete_sink_wraps_onto_final_state`).
-/

namespace BitAutomata

open Std Relation

namespace Automaton

variable {a : Automaton} {s y : State} {m : Move} {w : List Label}

/-- Completion adds targets and removes none. -/
theorem mem_targets_complete_of_mem (h : y ∈ a.targets s m) : y ∈ a.complete.targets s m := by
  cases hSink : a.needsSink
  · rwa [complete_of_needsSink_eq_false hSink]
  · exact (mem_targets_complete hSink).mpr (Or.inl h)

/-- The current states of the completion: the sink alone when no state was initial. -/
theorem current_complete :
    a.complete.current = if a.initial = ∅ then {a.freshState} else a.current := by
  cases h : a.needsSink
  · rw [complete_of_needsSink_eq_false h, if_neg (initial_ne_empty_of_needsSink_eq_false h)]
  · rw [complete_of_needsSink h]

/-- Completion adds no silent arc: every arc it adds reads a label. -/
theorem silent_complete : a.complete.table.Silent = a.table.Silent := by
  funext x y
  apply propext
  change y ∈ a.complete.targets x .epsilon ↔ y ∈ a.targets x .epsilon
  cases hSink : a.needsSink
  · rw [complete_of_needsSink_eq_false hSink]
  · rw [mem_targets_complete hSink]
    constructor
    · rintro (h | ⟨-, l, hl, -⟩)
      · exact h
      · exact absurd hl.symm (Move.label_ne_epsilon l)
    · exact Or.inl

/-- Every state that a run of `a` reaches, the run of its completion reaches too. -/
theorem mem_reach_complete_of_mem (h : y ∈ a.reach w) : y ∈ a.complete.reach w := by
  induction w using List.reverseRecOn generalizing y with
  | nil =>
    by_cases hInit : a.initial = ∅
    · rw [reach_of_initial_eq_empty hInit] at h
      exact absurd h ExtTreeSet.not_mem_empty
    · rw [reach_nil, Table.mem_closure_iff] at h ⊢
      rwa [silent_complete, initial_complete, if_neg hInit]
  | append_singleton w l ih =>
    rw [reach_append_singleton, Table.mem_read] at h
    rw [reach_append_singleton, Table.mem_read, silent_complete]
    obtain ⟨x, hx, z, hz, hzy⟩ := h
    exact ⟨x, ih hx, z, mem_targets_complete_of_mem hz, hzy⟩

section Fresh

variable (hWF : a.WellFormed) (hFresh : a.freshState ∉ a.states)
include hWF hFresh

/-- A new state has no arcs, so silent moves from it stay where they are. -/
theorem eq_freshState_of_silent (h : ReflTransGen a.table.Silent a.freshState y) :
    y = a.freshState := by
  rcases h.cases_head with h | ⟨z, hz, -⟩
  · exact h.symm
  · exact absurd (hWF.source_mem _ _ (Table.mem_arcs_of_mem_targets hz)) hFresh

/-- The run of the completion reaches what the old run reaches, and besides only the sink. -/
theorem mem_reach_complete (h : y ∈ a.complete.reach w) : y ∈ a.reach w ∨ y = a.freshState := by
  induction w using List.reverseRecOn generalizing y with
  | nil =>
    rw [reach_nil, Table.mem_closure_iff, silent_complete, initial_complete] at h
    obtain ⟨x, hx, hxy⟩ := h
    split at hx
    · rw [StateSet.mem_singleton.mp hx] at hxy
      exact Or.inr (eq_freshState_of_silent hWF hFresh hxy)
    · exact Or.inl (Table.mem_closure_iff.mpr ⟨x, hx, hxy⟩)
  | append_singleton w l ih =>
    rw [reach_append_singleton, Table.mem_read, silent_complete] at h
    obtain ⟨x, hx, z, hz, hzy⟩ := h
    -- A target in the completion is an old target or the sink.
    have hTarget : z ∈ a.targets x (.label l) ∨ z = a.freshState := by
      cases hSink : a.needsSink
      · rw [complete_of_needsSink_eq_false hSink] at hz
        exact Or.inl hz
      · rcases (mem_targets_complete hSink).mp hz with hz | ⟨rfl, -⟩
        · exact Or.inl hz
        · exact Or.inr rfl
    rcases hTarget with hz | rfl
    · rcases ih hx with hx | rfl
      · rw [reach_append_singleton, Table.mem_read]
        exact Or.inl ⟨x, hx, z, hz, hzy⟩
      · -- The sink had no arcs before completion.
        exact absurd (hWF.source_mem _ _ (Table.mem_arcs_of_mem_targets hz)) hFresh
    · exact Or.inr (eq_freshState_of_silent hWF hFresh hzy)

/-- With a new sink, completing keeps the language of any well-formed automaton. -/
theorem accepts_run_complete (w : List Label) : (a.complete.run w).accepts = (a.run w).accepts := by
  rw [Bool.eq_iff_iff, accepts_run_iff, accepts_run_iff, final_complete]
  constructor
  · rintro ⟨y, hy, hFinal⟩
    rcases mem_reach_complete hWF hFresh hy with hy | rfl
    · exact ⟨y, hy, hFinal⟩
    · exact absurd (hWF.final_mem _ hFinal) hFresh
  · rintro ⟨y, hy, hFinal⟩
    exact ⟨y, mem_reach_complete_of_mem hy, hFinal⟩

end Fresh

/-- Completing keeps an automaton well formed, whether or not the sink is new: the sink becomes a
state, and every arc added reads a total label. -/
theorem wellFormed_complete (hWF : a.WellFormed) : a.complete.WellFormed := by
  cases hSink : a.needsSink
  · rwa [complete_of_needsSink_eq_false hSink]
  · have hSinkMem : a.freshState ∈ a.complete.states :=
      mem_states_complete.mpr (Or.inr ⟨hSink, rfl⟩)
    have hOld : ∀ s ∈ a.states, s ∈ a.complete.states :=
      fun s hs => mem_states_complete.mpr (Or.inl hs)
    -- A marked set becomes the sink alone, or stays as it was.
    have hMarked : ∀ S : StateSet, (∀ s ∈ S, s ∈ a.states) →
        ∀ s ∈ (if a.initial = ∅ then {a.freshState} else S), s ∈ a.complete.states := by
      intro S hS s hs
      split at hs
      · rw [StateSet.mem_singleton.mp hs]
        exact hSinkMem
      · exact hOld s (hS s hs)
    refine ⟨?_, ?_, ?_, ?_, ?_, ?_⟩
    · rw [initial_complete]
      exact hMarked _ hWF.initial_mem
    · intro s hs
      rw [final_complete] at hs
      exact hOld s (hWF.final_mem s hs)
    · rw [current_complete]
      exact hMarked _ hWF.current_mem
    · intro s m hm
      rcases (mem_arcs_complete hSink).mp hm with hm | ⟨l, -, -, rfl | ⟨hs, -⟩⟩
      · exact hOld s (hWF.source_mem s m hm)
      · exact hSinkMem
      · exact hOld s hs
    · intro s L hL
      rw [alphabet_complete]
      rcases (mem_arcs_complete hSink).mp hL with hL | ⟨l, hEq, hl, -⟩
      · exact hWF.label_domain s L hL
      · rwa [Move.label_inj.mp hEq]
    · intro s m y hy
      rcases (mem_targets_complete hSink).mp hy with hy | ⟨rfl, -⟩
      · exact hOld y (hWF.target_mem s m y hy)
      · exact hSinkMem

/-- After completion nothing is missing: every state has an arc for every total label, and some
state is initial. -/
theorem needsSink_complete : a.complete.needsSink = false := by
  cases hSink : a.needsSink
  · rwa [complete_of_needsSink_eq_false hSink]
  · have hNoHoles : a.complete.holes = [] := by
      refine List.eq_nil_iff_forall_not_mem.mpr fun ⟨s, l⟩ hHole => ?_
      obtain ⟨hs, hl, hArc⟩ := mem_holes.mp hHole
      rw [alphabet_complete] at hl
      apply hArc
      rw [mem_arcs_complete hSink]
      rcases mem_states_complete.mp hs with hs | ⟨-, rfl⟩
      · by_cases hm : Move.label l ∈ a.arcs s
        · exact Or.inl hm
        · exact Or.inr ⟨l, rfl, hl, Or.inr ⟨hs, hm⟩⟩
      · exact Or.inr ⟨l, rfl, hl, Or.inl rfl⟩
    have hStart : a.complete.initial ≠ ∅ := by
      rw [initial_complete]
      split
      · intro hEmpty
        have hMem : a.freshState ∈ ({a.freshState} : StateSet) := StateSet.mem_singleton.mpr rfl
        rw [hEmpty] at hMem
        exact ExtTreeSet.not_mem_empty hMem
      · assumption
    simp [needsSink, hNoHoles, hStart]

/-- Completing twice is completing once. -/
theorem complete_complete : a.complete.complete = a.complete :=
  complete_of_needsSink_eq_false needsSink_complete

/-- Completing a valid automaton keeps it valid, and a second completion changes nothing. When
the sink is new, that is when the top and the bottom of the 64-bit range are not both states, the
language is kept; and a deterministic automaton whose arcs have targets becomes deterministic with
one initial state and exactly one target for each state and total label over its alphabet. -/
theorem complete_keeps_language (hValid : a.validate = none) :
    a.complete.validate = none ∧ a.complete.complete = a.complete ∧
      (¬(Int64.maxValue ∈ a.states ∧ Int64.minValue ∈ a.states) →
        (∀ w, (a.complete.run w).accepts = (a.run w).accepts) ∧
        (a.isDeterministic = true → (∀ s m, m ∈ a.arcs s → ∃ u, u ∈ a.targets s m) →
          a.complete.isDeterministic = true ∧ (∃ s ∈ a.complete.states, a.complete.initial = {s}) ∧
          ∀ s ∈ a.complete.states, ∀ l, l.hasDomain a.alphabet = true →
            ∃ u, a.complete.targets s (.label l) = {u})) := by
  have hWF := validate_eq_none_iff.mp hValid
  refine ⟨validate_eq_none_iff.mpr (wellFormed_complete hWF), complete_complete, fun hSink => ?_⟩
  have hFresh : a.freshState ∉ a.states := fun h => hSink (freshState_mem_states_iff.mp h)
  refine ⟨accepts_run_complete hWF hFresh, fun hDet hArcs => ?_⟩
  have hA : a.Completable := ⟨hWF, hDet, hArcs, hFresh⟩
  exact ⟨hA.isDeterministic_complete, hA.initial_complete_eq_singleton,
    fun s hs l hl => hA.targets_complete_label hs hl⟩

/-- The theorem at a deterministic automaton whose accepting state has no arcs. -/
theorem complete_keeps_language_with_dead_final_state :
    let a := ((((Automaton.empty {}).addState 0).addState 1).addTransition 0
      ((∅ : Label).insert 0 true) 1).addTransition 0 ((∅ : Label).insert 0 false) 0
      |>.markInitial 0 |>.markFinal 1
    a.validate = none ∧ ¬(Int64.maxValue ∈ a.states ∧ Int64.minValue ∈ a.states) ∧
      a.isDeterministic = true ∧ (∀ s m, m ∈ a.arcs s → ∃ u, u ∈ a.targets s m) ∧
      a.complete.validate = none ∧ a.complete.complete = a.complete ∧
      (¬(Int64.maxValue ∈ a.states ∧ Int64.minValue ∈ a.states) →
        (∀ w, (a.complete.run w).accepts = (a.run w).accepts) ∧
        (a.isDeterministic = true → (∀ s m, m ∈ a.arcs s → ∃ u, u ∈ a.targets s m) →
          a.complete.isDeterministic = true ∧ (∃ s ∈ a.complete.states, a.complete.initial = {s}) ∧
          ∀ s ∈ a.complete.states, ∀ l, l.hasDomain a.alphabet = true →
            ∃ u, a.complete.targets s (.label l) = {u})) := by
  intro a
  have hValid : a.validate = none := by decide
  exact ⟨hValid, by decide, by decide, arcs_nonempty_iff.mpr (by decide),
    complete_keeps_language hValid⟩

/-- When both ends of the 64-bit range are states, the sink wraps onto the bottom one. The
automaton that starts at the top, accepts at the bottom and has no arcs rejects the one-letter
word over its empty alphabet; its completion sends the missing arc of the top state to the bottom
state and accepts the word. -/
theorem complete_sink_wraps_onto_final_state :
    let a := (((Automaton.empty {}).addState Int64.minValue).addState Int64.maxValue
      |>.markInitial Int64.maxValue |>.markFinal Int64.minValue)
    a.validate = none ∧ a.isDeterministic = true ∧ (a.run [∅]).accepts = false ∧
      (a.complete.run [∅]).accepts = true := by
  intro a
  refine ⟨by decide, by decide, by decide, ?_⟩
  simp only [complete, freshState_eq_getLast]
  decide

end Automaton

end BitAutomata
