import BitAutomata.Automaton.Validate
import BitAutomata.Proofs.Arcs

/-!
# Well-formed automata

`Automaton.WellFormed` states the invariants that validation checks, one field each: marked
states are states, a source with an arc is a state, every label read assigns exactly the
alphabet, and every target is a state. Validation finds no violation exactly when they all hold
(`validate_eq_none_iff`). Proofs that an operation keeps an automaton valid go through this
structure, stated with the arcs and targets of the model, and never replay the search order of
validation.
-/

namespace BitAutomata

namespace Automaton

/-- The invariants that validation checks. -/
structure WellFormed (a : Automaton) : Prop where
  /-- Initial states are states. -/
  initial_mem : ∀ s ∈ a.initial, s ∈ a.states
  /-- Final states are states. -/
  final_mem : ∀ s ∈ a.final, s ∈ a.states
  /-- Current states are states. -/
  current_mem : ∀ s ∈ a.current, s ∈ a.states
  /-- A source with an arc is a state. -/
  source_mem : ∀ s (m : Move), m ∈ a.arcs s → s ∈ a.states
  /-- Every label read by an arc assigns exactly the alphabet. -/
  label_domain : ∀ s l, Move.label l ∈ a.arcs s → l.hasDomain a.alphabet = true
  /-- Every target is a state. -/
  target_mem : ∀ s m t, t ∈ a.targets s m → t ∈ a.states

variable {a : Automaton}

theorem firstStray_eq_none_iff {set : StateSet} :
    a.firstStray set = none ↔ ∀ s ∈ set, s ∈ a.states := by
  simp [firstStray, List.find?_eq_none, Std.ExtTreeSet.mem_toList, contains,
    Std.ExtTreeSet.contains_iff_mem]

theorem markViolation_eq_none_iff :
    a.markViolation = none ↔ (∀ s ∈ a.initial, s ∈ a.states) ∧ (∀ s ∈ a.final, s ∈ a.states) ∧
      (∀ s ∈ a.current, s ∈ a.states) := by
  simp [markViolation, marks, List.findSome?_eq_none_iff, firstStray_eq_none_iff]

/-- An arc passes when its label, if any, assigns the alphabet and its targets are states. -/
theorem arcViolation_eq_none_iff {s : State} {m : Move} {ts : StateSet} :
    a.arcViolation s m ts = none ↔
      (∀ l, m.label? = some l → l.hasDomain a.alphabet = true) ∧ ∀ t ∈ ts, t ∈ a.states := by
  unfold arcViolation
  cases hm : m.label? with
  | none => simp [firstStray_eq_none_iff]
  | some l =>
    by_cases hl : l.hasDomain a.alphabet = true
    · simp [hl, firstStray_eq_none_iff]
    · simp [hl]

/-- A source passes when it has no arcs, or it is a state and each of its arcs passes. -/
theorem sourceViolation_eq_none_iff {s : State} {arcs : Arcs} :
    a.sourceViolation s arcs = none ↔
      arcs = ∅ ∨ (s ∈ a.states ∧ ∀ m ts, (m, ts) ∈ arcs.toList →
        (∀ l, m.label? = some l → l.hasDomain a.alphabet = true) ∧ ∀ t ∈ ts, t ∈ a.states) := by
  unfold sourceViolation
  by_cases hEmpty : arcs.isEmpty = true
  · simp [Std.ExtTreeMap.isEmpty_iff.mp hEmpty]
  · have hNe : arcs ≠ ∅ := fun h => hEmpty (Std.ExtTreeMap.isEmpty_iff.mpr h)
    by_cases hs : s ∈ a.states
    · have hc : a.states.contains s = true := Std.ExtTreeSet.mem_iff_contains.mp hs
      simp [hEmpty, hNe, hs, contains, hc, List.findSome?_eq_none_iff, arcViolation_eq_none_iff]
    · have hc : a.states.contains s = false :=
        Bool.eq_false_iff.mpr fun h => hs (Std.ExtTreeSet.mem_iff_contains.mpr h)
      simp [hEmpty, hNe, hs, contains, hc]

/-- The table passes when every source with arcs is a state whose arcs pass. -/
theorem tableViolation_eq_none_iff :
    (a.table.toList.findSome? fun e => a.sourceViolation e.1 e.2) = none ↔
      (∀ s (m : Move), m ∈ a.arcs s → s ∈ a.states) ∧
      (∀ s l, Move.label l ∈ a.arcs s → l.hasDomain a.alphabet = true) ∧
      (∀ s m t, t ∈ a.targets s m → t ∈ a.states) := by
  rw [List.findSome?_eq_none_iff]
  constructor
  · intro hAll
    -- Every question about a source with an arc is answered by its entry in the table.
    have hEntry : ∀ s (m : Move), m ∈ a.arcs s → s ∈ a.states ∧ ∀ m' ts, (m', ts) ∈ (a.arcs s).toList →
        (∀ l, m'.label? = some l → l.hasDomain a.alphabet = true) ∧ ∀ t ∈ ts, t ∈ a.states := by
      intro s m hm
      have hMem := Table.mem_toList_of_mem_arcs hm
      rcases sourceViolation_eq_none_iff.mp (hAll _ hMem) with hNone | hOk
      · have hNoArcs : a.arcs s = ∅ := hNone
        rw [hNoArcs] at hm
        exact absurd hm Std.ExtTreeMap.not_mem_empty
      · exact hOk
    refine ⟨fun s m hm => (hEntry s m hm).1, ?_, ?_⟩
    · intro s l hl
      have hLookup : (a.arcs s)[Move.label l]? = some ((a.arcs s).getD (Move.label l) ∅) :=
        Std.ExtTreeMap.getElem?_eq_some_getD hl
      exact ((hEntry s _ hl).2 _ _ (Std.ExtTreeMap.mem_toList_iff_getElem?_eq_some.mpr hLookup)).1
        l rfl
    · intro s m t ht
      obtain ⟨ts, hMem, htMem⟩ := Arcs.mem_targets_iff_exists_mem_toList.mp ht
      exact ((hEntry s m (Table.mem_arcs_of_mem_targets ht)).2 m ts hMem).2 t htMem
  · rintro ⟨hSource, hLabel, hTarget⟩ ⟨s, arcs⟩ hMem
    have hArcs : a.arcs s = arcs := Table.arcs_of_mem_toList hMem
    refine sourceViolation_eq_none_iff.mpr ?_
    by_cases hEmpty : arcs = ∅
    · exact Or.inl hEmpty
    · right
      obtain ⟨m, hm⟩ : ∃ m, m ∈ arcs := by
        by_contra hNone
        exact hEmpty (Std.ExtTreeMap.eq_empty_iff_forall_not_mem.mpr fun m hm => hNone ⟨m, hm⟩)
      refine ⟨hSource s m (hArcs ▸ hm), ?_⟩
      intro m' ts hEntry
      have hTargets : (a.arcs s).targets m' = ts := hArcs ▸ Arcs.targets_of_mem_toList hEntry
      constructor
      · intro l hl
        have hMove : m' = Move.label l := by
          obtain ⟨lo, k, hk⟩ := m'
          simp only at hl
          subst hl hk
          rfl
        subst hMove
        have hLookup := Std.ExtTreeMap.mem_toList_iff_getElem?_eq_some.mp hEntry
        exact hLabel s l (hArcs ▸ Std.ExtTreeMap.mem_iff_isSome_getElem?.mpr (by simp [hLookup]))
      · intro t ht
        exact hTarget s m' t (by rw [Automaton.targets, Table.targets]; exact hTargets ▸ ht)

/-- Validation finds nothing exactly when the automaton is well formed. -/
theorem validate_eq_none_iff : a.validate = none ↔ a.WellFormed := by
  have hSplit : a.validate = none ↔ a.markViolation = none ∧
      (a.table.toList.findSome? fun e => a.sourceViolation e.1 e.2) = none := by
    simp only [validate, Option.orElse_eq_orElse, Option.orElse_eq_or, Option.or_eq_none_iff]
  rw [hSplit, markViolation_eq_none_iff, tableViolation_eq_none_iff]
  constructor
  · rintro ⟨⟨hInitial, hFinal, hCurrent⟩, hSource, hLabel, hTarget⟩
    exact ⟨hInitial, hFinal, hCurrent, hSource, hLabel, hTarget⟩
  · rintro ⟨hInitial, hFinal, hCurrent, hSource, hLabel, hTarget⟩
    exact ⟨⟨hInitial, hFinal, hCurrent⟩, hSource, hLabel, hTarget⟩

end Automaton

end BitAutomata
