import BitAutomata.Renumber
import BitAutomata.Proofs.WellFormed

/-!
# Renaming states

Renaming maps every set of states through a map and files the arcs of each source under its new
name, with their targets renamed; a source visited later replaces the arcs of one visited earlier
with the same new name, so a name carries the arcs of one source renamed to it, whatever the
order of the visit (`arcs_renumberIn`). Whatever the map, every state a well-formed automaton
mentions is a state, so it is renamed along with the states: renaming keeps an automaton well
formed (`wellFormed_renumberIn`), and so does renumbering states densely (`wellFormed_restateIn`).
-/

namespace BitAutomata

open Std

namespace StateSet

variable {f : State → State} {s : StateSet} {y : State}

@[simp]
theorem mem_image : y ∈ s.image f ↔ ∃ x ∈ s, f x = y := by
  rw [image, ExtTreeSet.foldl_eq_foldl_toList]
  have hFold : ∀ (l : List State) (acc : StateSet),
      y ∈ l.foldl (fun acc x => acc.insert (f x)) acc ↔ y ∈ acc ∨ ∃ x ∈ l, f x = y := by
    intro l
    induction l with
    | nil => simp
    | cons x xs ih =>
      intro acc
      rw [List.foldl_cons, ih, ExtTreeSet.mem_insert, Std.compare_eq_iff_eq]
      simp only [List.mem_cons, exists_eq_or_imp]
      tauto
  rw [hFold]
  simp [ExtTreeSet.mem_toList, ExtTreeSet.not_mem_empty]

end StateSet

namespace Arcs

/-- Renaming the targets of arcs renames the targets of every move. -/
theorem mem_targets_map_image {arcs : Arcs} {f : State → State} {m : Move} {y : State} :
    y ∈ Arcs.targets (arcs.map fun _ ts => ts.image f) m ↔ ∃ x ∈ arcs.targets m, f x = y := by
  rw [targets, ExtTreeMap.getD_map, targets_eq_getD_getElem?]
  cases arcs[m]? with
  | none => simp [ExtTreeSet.not_mem_empty]
  | some ts => simp

end Arcs

namespace Automaton

variable {a : Automaton} {f : State → State}

variable (o : MapOrder)

/-- A renamed source carries no arcs, or the renamed arcs of one of the sources renamed to it,
whatever the order the sources are visited in. -/
theorem arcs_renumberIn (k : State) :
    (a.renumberIn o f).arcs k = ∅ ∨
      ∃ s, f s = k ∧ (a.renumberIn o f).arcs k = (a.arcs s).map fun _ ts => ts.image f := by
  change Table.arcs ((o.sourcesOf a.table).foldl _ ∅) k = ∅ ∨
    ∃ s, f s = k ∧ Table.arcs ((o.sourcesOf a.table).foldl _ ∅) k = _
  -- Entry by entry, the arcs filed under `k` are none or those of an entry renamed to `k`.
  have hFold : ∀ (l : List (State × Arcs)) (init : Table), (∀ e ∈ l, a.arcs e.1 = e.2) →
      (Table.arcs init k = ∅ ∨
        ∃ s, f s = k ∧ Table.arcs init k = (a.arcs s).map fun _ ts => ts.image f) →
      Table.arcs (l.foldl (fun t e => t.insert (f e.1) (e.2.map fun _ ts => ts.image f)) init) k = ∅ ∨
        ∃ s, f s = k ∧ Table.arcs (l.foldl (fun t e => t.insert (f e.1)
          (e.2.map fun _ ts => ts.image f)) init) k = (a.arcs s).map fun _ ts => ts.image f := by
    intro l
    induction l with
    | nil => exact fun _ _ h => h
    | cons e es ih =>
      intro init hEntries hInit
      refine ih _ (fun e' he' => hEntries e' (List.mem_cons_of_mem e he')) ?_
      rw [Table.arcs_insert]
      split
      · rename_i hk
        exact Or.inr ⟨e.1, hk, by rw [hEntries e List.mem_cons_self]⟩
      · exact hInit
  exact hFold _ ∅ (fun e he => Table.arcs_of_mem_toList ((o.sourcesOf_perm _).mem_iff.mp he))
    (Or.inl Table.arcs_empty)

/-- Renaming states by any map, visiting the sources in any order, keeps an automaton well
formed. -/
theorem wellFormed_renumberIn (hWF : a.WellFormed) (f : State → State) :
    (a.renumberIn o f).WellFormed := by
  -- Every state a well-formed automaton mentions is a state, and is renamed with the states.
  have hRenamed : ∀ S : StateSet, (∀ s ∈ S, s ∈ a.states) →
      ∀ y ∈ S.image f, y ∈ (a.renumberIn o f).states := by
    intro S hS y hy
    obtain ⟨x, hx, rfl⟩ := StateSet.mem_image.mp hy
    exact StateSet.mem_image.mpr ⟨x, hS x hx, rfl⟩
  refine ⟨hRenamed _ hWF.initial_mem, hRenamed _ hWF.final_mem, hRenamed _ hWF.current_mem,
    ?_, ?_, ?_⟩
  · intro k m hm
    rcases arcs_renumberIn (f := f) o k with hNone | ⟨s, rfl, hArcs⟩
    · rw [hNone] at hm
      exact absurd hm ExtTreeMap.not_mem_empty
    · rw [hArcs, ExtTreeMap.mem_map] at hm
      exact StateSet.mem_image.mpr ⟨s, hWF.source_mem s m hm, rfl⟩
  · intro k l hl
    rcases arcs_renumberIn (f := f) o k with hNone | ⟨s, -, hArcs⟩
    · rw [hNone] at hl
      exact absurd hl ExtTreeMap.not_mem_empty
    · rw [hArcs, ExtTreeMap.mem_map] at hl
      exact hWF.label_domain s l hl
  · intro k m y hy
    change y ∈ ((a.renumberIn o f).arcs k).targets m at hy
    rcases arcs_renumberIn (f := f) o k with hNone | ⟨s, -, hArcs⟩
    · rw [hNone, Arcs.targets_empty] at hy
      exact absurd hy ExtTreeSet.not_mem_empty
    · rw [hArcs, Arcs.mem_targets_map_image] at hy
      obtain ⟨x, hx, rfl⟩ := hy
      exact StateSet.mem_image.mpr ⟨x, hWF.target_mem s m x hx, rfl⟩

theorem wellFormed_renumberBy (hWF : a.WellFormed) (f : State → State) :
    (a.renumberBy f).WellFormed :=
  wellFormed_renumberIn .byKey hWF f

/-- Renumbering the states densely keeps an automaton well formed, whatever the order the
sources are visited in. -/
theorem wellFormed_restateIn (hWF : a.WellFormed) : (a.restateIn o).WellFormed :=
  wellFormed_renumberIn o hWF _

theorem wellFormed_restate (hWF : a.WellFormed) : a.restate.WellFormed :=
  wellFormed_restateIn .byKey hWF

end Automaton

end BitAutomata
