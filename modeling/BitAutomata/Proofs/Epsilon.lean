import BitAutomata.Proofs.SilentReach

/-!
# Removing silent arcs keeps the language

`Automaton.eliminateEpsilon` gives each state the label arcs of every state it reaches by
silent moves through states, and makes it final when one of those is final. The states absorb
their reach in place, one after another, each the states its search listed; only which states the
list holds matters, and it holds exactly the silent reach (`mem_epsilonReach_iff_mem_silentReach`).
The loop keeps every state already processed saturated and every other state untouched
(`Saturated`, with step lemma `Saturated.absorbed`). This file first describes the result arc by
arc: a state's new targets under a label are the old targets of its silent reach
(`mem_targets_eliminateEpsilon_of_mem`), and no silent arc is left.

For a well-formed automaton every silent target is a state, so the silent reach is the silent
closure that runs follow. A run of the new automaton then reaches a set whose silent closure is
what the old automaton reaches (`reach_eliminateEpsilon`), and the new final states see exactly
the final states of that closure. Hence both accept the same words, and the result is well
formed again (`eliminateEpsilon_keeps_runs`); and every state reads what its silent closure read,
whatever order the states were processed in (`eliminateEpsilon_saturates_silent_closures`).
-/

namespace BitAutomata

open Relation Std

namespace Automaton

variable {a : Automaton}

/-- The table without silent arcs gives each source its arcs without the silent one. -/
theorem labelTable_arcs {s : State} : a.labelTable.arcs s = (a.arcs s).erase .epsilon := by
  rw [labelTable, Table.arcs, ExtTreeMap.getD_map, Automaton.arcs, Table.arcs_eq_getD_getElem?]
  cases a.table[s]? with
  | none => simp
  | some arcs => rfl

theorem targets_eq_arcs_targets {s : State} {m : Move} : a.targets s m = (a.arcs s).targets m := rfl

theorem targets_eq_of_arcs_eq {b : Automaton} {x : State} {m : Move} (h : b.arcs x = a.arcs x) :
    b.targets x m = a.targets x m :=
  congrArg (Arcs.targets · m) h

/-! ### Absorbing in place

Silent-arc removal lets the states, one after another, absorb their silent reach in place. One
state `s` absorbing a list of states changes only the arcs and the final mark of `s`, so while it
does, every other state still reads as before (`Absorbed`). Over the loop on states, a state
already processed reads exactly what its whole silent reach read at the start, and a state not
yet processed is untouched (`Saturated`). A state processed later may copy what an earlier one
absorbed; since reach is transitive, that lies within its own reach. -/

section Absorb

variable {b c d : Automaton} {s t x u : State} {m : Move} {L L' D : List State}

theorem arcs_absorb_of_ne (hx : s ≠ x) : (b.absorb s t).arcs x = b.arcs x := by
  change Table.arcs (b.table.insert s _) x = _
  rw [Table.arcs_insert, if_neg hx]
  rfl

theorem arcs_absorb_self : (b.absorb s t).arcs s = (b.arcs s).join ((b.arcs t).erase .epsilon) := by
  change Table.arcs (b.table.insert s _) s = _
  rw [Table.arcs_insert, if_pos rfl]

theorem mem_final_absorb : x ∈ (b.absorb s t).final ↔ x ∈ b.final ∨ (s = x ∧ t ∈ b.final) := by
  by_cases ht : t ∈ b.final
  · simp [absorb, ht, ExtTreeSet.contains_iff_mem, Std.LawfulEqCmp.compare_eq_iff_eq, or_comm]
  · simp [absorb, ht, ExtTreeSet.contains_iff_mem]

/-- `c` is `b` after `s` absorbed the other members of `L` one after another: only the arcs and
the final mark of `s` change, and `s` gains the label targets, the moves but the silent one and
the final marks that those members have in `b`. -/
structure Absorbed (b c : Automaton) (s : State) (L : List State) : Prop where
  frame : ∃ final table, c = { b with final := final, table := table }
  arcs_of_ne : ∀ x, s ≠ x → c.arcs x = b.arcs x
  final_of_ne : ∀ x, s ≠ x → (x ∈ c.final ↔ x ∈ b.final)
  mem_targets : ∀ m u, u ∈ c.targets s m ↔
    u ∈ b.targets s m ∨ (m ≠ .epsilon ∧ ∃ t ∈ L, t ≠ s ∧ u ∈ b.targets t m)
  mem_arcs : ∀ m ∈ c.arcs s, m ∈ b.arcs s ∨ ∃ t ∈ L, t ≠ s ∧ m ∈ b.arcs t
  mem_final : s ∈ c.final ↔ s ∈ b.final ∨ ∃ t ∈ L, t ≠ s ∧ t ∈ b.final

theorem Absorbed.targets_of_ne (h : Absorbed b c s L) (hx : s ≠ x) : c.targets x m = b.targets x m :=
  targets_eq_of_arcs_eq (h.arcs_of_ne x hx)

theorem absorbed_nil : Absorbed b b s [] where
  frame := ⟨b.final, b.table, rfl⟩
  arcs_of_ne _ _ := rfl
  final_of_ne _ _ := Iff.rfl
  mem_targets _ _ := by simp
  mem_arcs _ hm := Or.inl hm
  mem_final := by simp

/-- Skipping `s` itself absorbs nothing. -/
theorem absorbed_self : Absorbed b b s [s] where
  frame := ⟨b.final, b.table, rfl⟩
  arcs_of_ne _ _ := rfl
  final_of_ne _ _ := Iff.rfl
  mem_targets _ _ := by simp
  mem_arcs _ hm := Or.inl hm
  mem_final := by simp

theorem absorbed_absorb (hts : t ≠ s) : Absorbed b (b.absorb s t) s [t] where
  frame := ⟨_, _, rfl⟩
  arcs_of_ne _ hx := arcs_absorb_of_ne hx
  final_of_ne x hx := by simp [mem_final_absorb, hx]
  mem_targets m u := by
    rw [targets_eq_arcs_targets, arcs_absorb_self, Arcs.mem_targets_join, Arcs.mem_targets_erase]
    simp [targets_eq_arcs_targets, Ne.symm hts, eq_comm]
  mem_arcs m hm := by
    rw [arcs_absorb_self] at hm
    rcases Arcs.mem_of_mem_join hm with hOld | hNew
    · exact Or.inl hOld
    · exact Or.inr ⟨t, List.mem_singleton_self t, hts, (Arcs.mem_erase.mp hNew).2⟩
  mem_final := by simp [mem_final_absorb, hts]

/-- Absorbing one list after another absorbs both: the members of the second list other than
`s` still read in between as they did before. -/
theorem Absorbed.append (h : Absorbed b c s L) (h' : Absorbed c d s L') :
    Absorbed b d s (L ++ L') where
  frame := by
    obtain ⟨final, table, rfl⟩ := h.frame
    obtain ⟨final', table', rfl⟩ := h'.frame
    exact ⟨final', table', rfl⟩
  arcs_of_ne x hx := (h'.arcs_of_ne x hx).trans (h.arcs_of_ne x hx)
  final_of_ne x hx := (h'.final_of_ne x hx).trans (h.final_of_ne x hx)
  mem_targets m u := by
    have hRest : (∃ t ∈ L', t ≠ s ∧ u ∈ c.targets t m) ↔ ∃ t ∈ L', t ≠ s ∧ u ∈ b.targets t m :=
      exists_congr fun t => and_congr_right fun _ => and_congr_right fun hts => by
        rw [h.targets_of_ne (Ne.symm hts)]
    rw [h'.mem_targets, hRest, h.mem_targets]
    simp only [List.mem_append, or_and_right, exists_or, and_or_left, or_assoc]
  mem_arcs m hm := by
    rcases h'.mem_arcs m hm with hOld | ⟨t, ht, hts, hmt⟩
    · rcases h.mem_arcs m hOld with hFirst | ⟨t, ht, hts, hmt⟩
      · exact Or.inl hFirst
      · exact Or.inr ⟨t, List.mem_append_left L' ht, hts, hmt⟩
    · rw [h.arcs_of_ne t (Ne.symm hts)] at hmt
      exact Or.inr ⟨t, List.mem_append_right L ht, hts, hmt⟩
  mem_final := by
    have hRest : (∃ t ∈ L', t ≠ s ∧ t ∈ c.final) ↔ ∃ t ∈ L', t ≠ s ∧ t ∈ b.final :=
      exists_congr fun t => and_congr_right fun _ => and_congr_right fun hts =>
        h.final_of_ne t (Ne.symm hts)
    rw [h'.mem_final, hRest, h.mem_final]
    simp only [List.mem_append, or_and_right, exists_or, or_assoc]

/-- Only the members of the list count, not their order or repetitions. -/
theorem Absorbed.of_mem_iff (h : Absorbed b c s L) (hL : ∀ t, t ∈ L ↔ t ∈ L') : Absorbed b c s L' where
  frame := h.frame
  arcs_of_ne := h.arcs_of_ne
  final_of_ne := h.final_of_ne
  mem_targets m u := by simp only [h.mem_targets, hL]
  mem_arcs m hm := by simpa only [hL] using h.mem_arcs m hm
  mem_final := by simp only [h.mem_final, hL]

/-- The inner loop of silent-arc removal: `s` absorbs the members of a list one after another. -/
theorem absorbed_foldl (L : List State) (b : Automaton) :
    Absorbed b (L.foldl (fun b t => if t = s then b else b.absorb s t) b) s L := by
  induction L generalizing b with
  | nil => exact absorbed_nil
  | cons t L ih =>
    rw [List.foldl_cons, ← List.singleton_append]
    by_cases hts : t = s
    · rw [if_pos hts, hts]
      exact absorbed_self.append (ih b)
    · rw [if_neg hts]
      exact (absorbed_absorb hts).append (ih _)

/-- `b` is `a` after the states of `D` absorbed their silent reach in `a`: each of them reads
under a label what its whole reach read in `a`, keeps its silent targets, has only moves of its
reach and is final exactly when its reach holds a final state; every other state is as in `a`. -/
structure Saturated (a b : Automaton) (D : List State) : Prop where
  frame : ∃ final table, b = { a with final := final, table := table }
  arcs_of_not_mem : ∀ x ∉ D, b.arcs x = a.arcs x
  final_of_not_mem : ∀ x ∉ D, (x ∈ b.final ↔ x ∈ a.final)
  mem_targets : ∀ x ∈ D, ∀ m u, u ∈ b.targets x m ↔
    (m = .epsilon ∧ u ∈ a.targets x m) ∨ (m ≠ .epsilon ∧ ∃ v ∈ a.silentReach x, u ∈ a.targets v m)
  mem_arcs : ∀ x ∈ D, ∀ m ∈ b.arcs x, ∃ v ∈ a.silentReach x, m ∈ a.arcs v
  mem_final : ∀ x ∈ D, (x ∈ b.final ↔ ∃ v ∈ a.silentReach x, v ∈ a.final)

theorem saturated_nil : Saturated a a [] where
  frame := ⟨a.final, a.table, rfl⟩
  arcs_of_not_mem _ _ := rfl
  final_of_not_mem _ _ := Iff.rfl
  mem_targets _ hx := absurd hx List.not_mem_nil
  mem_arcs _ hx := absurd hx List.not_mem_nil
  mem_final _ hx := absurd hx List.not_mem_nil

/-! Processed or not, every state keeps its old targets and final mark and gains only what its
silent reach had. -/

theorem Saturated.targets_subset (h : Saturated a b D) (hu : u ∈ a.targets x m) :
    u ∈ b.targets x m := by
  by_cases hx : x ∈ D
  · rw [h.mem_targets x hx]
    by_cases hm : m = .epsilon
    · exact Or.inl ⟨hm, hu⟩
    · exact Or.inr ⟨hm, x, mem_silentReach_self, hu⟩
  · rwa [targets_eq_of_arcs_eq (h.arcs_of_not_mem x hx)]

theorem Saturated.mem_targets_reach (h : Saturated a b D) (hm : m ≠ .epsilon)
    (hu : u ∈ b.targets x m) : ∃ v ∈ a.silentReach x, u ∈ a.targets v m := by
  by_cases hx : x ∈ D
  · rcases (h.mem_targets x hx m u).mp hu with ⟨hEps, -⟩ | ⟨-, hReach⟩
    · exact absurd hEps hm
    · exact hReach
  · rw [targets_eq_of_arcs_eq (h.arcs_of_not_mem x hx)] at hu
    exact ⟨x, mem_silentReach_self, hu⟩

theorem Saturated.mem_arcs_reach (h : Saturated a b D) (hm : m ∈ b.arcs x) :
    ∃ v ∈ a.silentReach x, m ∈ a.arcs v := by
  by_cases hx : x ∈ D
  · exact h.mem_arcs x hx m hm
  · rw [h.arcs_of_not_mem x hx] at hm
    exact ⟨x, mem_silentReach_self, hm⟩

theorem Saturated.final_subset (h : Saturated a b D) (hx : x ∈ a.final) : x ∈ b.final := by
  by_cases hD : x ∈ D
  · exact (h.mem_final x hD).mpr ⟨x, mem_silentReach_self, hx⟩
  · exact (h.final_of_not_mem x hD).mpr hx

theorem Saturated.final_reach (h : Saturated a b D) (hx : x ∈ b.final) :
    ∃ v ∈ a.silentReach x, v ∈ a.final := by
  by_cases hD : x ∈ D
  · exact (h.mem_final x hD).mp hx
  · exact ⟨x, mem_silentReach_self, (h.final_of_not_mem x hD).mp hx⟩

/-- What a state gains from its silent reach: when a property of `s` is as in `a`, and every
state keeps it from `a` and gains it only from its reach, then `s` or another member of its
reach has it exactly when some member had it in `a`. -/
theorem exists_silentReach_iff {P Q : State → Prop} (hOwn : Q s ↔ P s) (hKeep : ∀ {t}, P t → Q t)
    (hGain : ∀ {t}, Q t → ∃ v ∈ a.silentReach t, P v) :
    (Q s ∨ ∃ t ∈ (a.silentReach s).toList, t ≠ s ∧ Q t) ↔ ∃ v ∈ a.silentReach s, P v := by
  rw [hOwn]
  constructor
  · rintro (hs | ⟨t, ht, -, hQ⟩)
    · exact ⟨s, mem_silentReach_self, hs⟩
    · obtain ⟨v, hv, hP⟩ := hGain hQ
      exact ⟨v, silentReach_trans (ExtTreeSet.mem_toList.mp ht) hv, hP⟩
  · rintro ⟨v, hv, hP⟩
    by_cases hvs : v = s
    · exact Or.inl (hvs ▸ hP)
    · exact Or.inr ⟨v, ExtTreeSet.mem_toList.mpr hv, hvs, hKeep hP⟩

/-! The state that absorbs its silent reach next ends up saturated. -/

section Step

variable (h : Saturated a b D) (hs : s ∉ D) (hc : Absorbed b c s (a.silentReach s).toList)
include h hs hc

theorem Saturated.mem_targets_absorbed :
    u ∈ c.targets s m ↔
      (m = .epsilon ∧ u ∈ a.targets s m) ∨ (m ≠ .epsilon ∧ ∃ v ∈ a.silentReach s, u ∈ a.targets v m) := by
  have hOwn : u ∈ b.targets s m ↔ u ∈ a.targets s m := by
    rw [targets_eq_of_arcs_eq (h.arcs_of_not_mem s hs)]
  rw [hc.mem_targets]
  by_cases hm : m = .epsilon
  · subst hm
    simpa using hOwn
  · simp only [hm, false_and, false_or, ne_eq, not_false_eq_true, true_and]
    exact exists_silentReach_iff (P := fun t => u ∈ a.targets t m) (Q := fun t => u ∈ b.targets t m)
      hOwn h.targets_subset (h.mem_targets_reach hm)

theorem Saturated.mem_arcs_absorbed (hm : m ∈ c.arcs s) : ∃ v ∈ a.silentReach s, m ∈ a.arcs v := by
  rcases hc.mem_arcs m hm with hOwn | ⟨t, ht, -, hmt⟩
  · rw [h.arcs_of_not_mem s hs] at hOwn
    exact ⟨s, mem_silentReach_self, hOwn⟩
  · obtain ⟨v, hv, hmv⟩ := h.mem_arcs_reach hmt
    exact ⟨v, silentReach_trans (ExtTreeSet.mem_toList.mp ht) hv, hmv⟩

theorem Saturated.mem_final_absorbed : s ∈ c.final ↔ ∃ v ∈ a.silentReach s, v ∈ a.final := by
  rw [hc.mem_final]
  exact exists_silentReach_iff (h.final_of_not_mem s hs) h.final_subset h.final_reach

/-- Step lemma of the loop on states. -/
theorem Saturated.absorbed : Saturated a c (D ++ [s]) where
  frame := by
    obtain ⟨final, table, rfl⟩ := h.frame
    obtain ⟨final', table', rfl⟩ := hc.frame
    exact ⟨final', table', rfl⟩
  arcs_of_not_mem x hx := by
    simp only [List.mem_append, List.mem_singleton, not_or] at hx
    rw [hc.arcs_of_ne x (Ne.symm hx.2), h.arcs_of_not_mem x hx.1]
  final_of_not_mem x hx := by
    simp only [List.mem_append, List.mem_singleton, not_or] at hx
    rw [hc.final_of_ne x (Ne.symm hx.2), h.final_of_not_mem x hx.1]
  mem_targets x hx m u := by
    rcases List.mem_append.mp hx with hD | hEq
    · have hsx : s ≠ x := fun hsx => hs (hsx ▸ hD)
      rw [hc.targets_of_ne hsx, h.mem_targets x hD]
    · rw [List.mem_singleton.mp hEq]
      exact h.mem_targets_absorbed hs hc
  mem_arcs x hx m hm := by
    rcases List.mem_append.mp hx with hD | hEq
    · have hsx : s ≠ x := fun hsx => hs (hsx ▸ hD)
      rw [hc.arcs_of_ne x hsx] at hm
      exact h.mem_arcs x hD m hm
    · rw [List.mem_singleton.mp hEq] at hm ⊢
      exact h.mem_arcs_absorbed hs hc hm
  mem_final x hx := by
    rcases List.mem_append.mp hx with hD | hEq
    · have hsx : s ≠ x := fun hsx => hs (hsx ▸ hD)
      rw [hc.final_of_ne x hsx, h.mem_final x hD]
    · rw [List.mem_singleton.mp hEq]
      exact h.mem_final_absorbed hs hc

end Step

/-- Run lemma of the loop on states: after the states of `R`, each once, the states of `D` and
`R` are saturated. -/
theorem saturated_foldl (R : List State) (hNodup : (D ++ R).Nodup) (hR : ∀ s ∈ R, s ∈ a.states)
    (h : Saturated a b D) :
    Saturated a (R.foldl (fun b s => (a.epsilonReach s a.states.denseIndex).foldl
      (fun b t => if t = s then b else b.absorb s t) b) b) (D ++ R) := by
  induction R generalizing D b with
  | nil => simpa using h
  | cons s R ih =>
    rw [List.append_cons] at hNodup ⊢
    have hs : s ∉ D := fun hD =>
      (List.nodup_append.mp (List.nodup_append.mp hNodup).1).2.2 s hD s
        (List.mem_singleton_self s) rfl
    -- The search from `s` lists exactly its silent reach.
    have hReach : ∀ t, t ∈ a.epsilonReach s a.states.denseIndex ↔ t ∈ (a.silentReach s).toList :=
      fun t => by
        rw [ExtTreeSet.mem_toList]
        exact mem_epsilonReach_iff_mem_silentReach (StateSet.numbers_denseIndex a.states)
          (hR s List.mem_cons_self)
    rw [List.foldl_cons]
    exact ih hNodup (fun t ht => hR t (List.mem_cons_of_mem s ht))
      (h.absorbed hs ((absorbed_foldl _ b).of_mem_iff hReach))

end Absorb

/-! ### The automaton without silent arcs -/

theorem eliminateEpsilon_of_hasEpsilon_eq_false (h : a.hasEpsilon = false) :
    a.eliminateEpsilon = a := by
  simp [eliminateEpsilon, h]

/-- With silent arcs present, the result is the automaton saturated at every state, with its
silent arcs dropped. -/
theorem eliminateEpsilon_eq_saturated (h : a.hasEpsilon = true) :
    ∃ b, Saturated a b a.states.toList ∧ a.eliminateEpsilon = { b with table := b.labelTable } := by
  refine ⟨_, ?_, by rw [eliminateEpsilon, if_pos h]⟩
  rw [ExtTreeSet.foldl_eq_foldl_toList]
  simpa using saturated_foldl (D := []) a.states.toList (StateSet.nodup_toList a.states)
    (fun _ hs => ExtTreeSet.mem_toList.mp hs) saturated_nil

/-- With silent arcs present, the result has the final states of the saturated automaton and
its arcs without the silent one. -/
theorem eliminateEpsilon_of_saturated (h : a.hasEpsilon = true) :
    ∃ b, Saturated a b a.states.toList ∧ a.eliminateEpsilon.final = b.final ∧
      ∀ x, a.eliminateEpsilon.arcs x = (b.arcs x).erase .epsilon := by
  obtain ⟨b, hb, he⟩ := eliminateEpsilon_eq_saturated h
  exact ⟨b, hb, by rw [he], fun x => by rw [he]; exact labelTable_arcs⟩

/-- Only the final states and the table change. -/
theorem eliminateEpsilon_frame :
    ∃ final table, a.eliminateEpsilon = { a with final := final, table := table } := by
  cases h : a.hasEpsilon
  · exact ⟨a.final, a.table, eliminateEpsilon_of_hasEpsilon_eq_false h⟩
  · obtain ⟨b, hb, he⟩ := eliminateEpsilon_eq_saturated h
    obtain ⟨final, table, rfl⟩ := hb.frame
    exact ⟨final, _, he⟩

@[simp]
theorem eliminateEpsilon_states : a.eliminateEpsilon.states = a.states := by
  obtain ⟨_, _, he⟩ := eliminateEpsilon_frame (a := a)
  rw [he]

@[simp]
theorem eliminateEpsilon_initial : a.eliminateEpsilon.initial = a.initial := by
  obtain ⟨_, _, he⟩ := eliminateEpsilon_frame (a := a)
  rw [he]

@[simp]
theorem eliminateEpsilon_current : a.eliminateEpsilon.current = a.current := by
  obtain ⟨_, _, he⟩ := eliminateEpsilon_frame (a := a)
  rw [he]

@[simp]
theorem eliminateEpsilon_alphabet : a.eliminateEpsilon.alphabet = a.alphabet := by
  obtain ⟨_, _, he⟩ := eliminateEpsilon_frame (a := a)
  rw [he]

theorem mem_final_eliminateEpsilon (h : a.hasEpsilon = true) {x : State} :
    x ∈ a.eliminateEpsilon.final ↔
      x ∈ a.final ∨ (x ∈ a.states ∧ ∃ v ∈ a.silentReach x, v ∈ a.final) := by
  obtain ⟨b, hb, hFinal, -⟩ := eliminateEpsilon_of_saturated h
  rw [hFinal]
  by_cases hx : x ∈ a.states
  · rw [hb.mem_final x (ExtTreeSet.mem_toList.mpr hx)]
    constructor
    · exact fun hReach => Or.inr ⟨hx, hReach⟩
    · rintro (hFinal | ⟨-, hReach⟩)
      · exact ⟨x, mem_silentReach_self, hFinal⟩
      · exact hReach
  · rw [hb.final_of_not_mem x (mt ExtTreeSet.mem_toList.mp hx)]
    simp [hx]

/-- Final states stay final. -/
theorem mem_final_eliminateEpsilon_of_mem {x : State} (hx : x ∈ a.final) :
    x ∈ a.eliminateEpsilon.final := by
  cases h : a.hasEpsilon
  · rw [eliminateEpsilon_of_hasEpsilon_eq_false h]
    exact hx
  · exact (mem_final_eliminateEpsilon h).mpr (Or.inl hx)

/-- A state ends final exactly when its silent reach held a final state. -/
theorem mem_final_eliminateEpsilon_of_state {x : State} (hx : x ∈ a.states) :
    x ∈ a.eliminateEpsilon.final ↔ ∃ v ∈ a.silentReach x, v ∈ a.final := by
  cases h : a.hasEpsilon
  · rw [eliminateEpsilon_of_hasEpsilon_eq_false h]
    simp [mem_silentReach_of_hasEpsilon_eq_false h]
  · rw [mem_final_eliminateEpsilon h]
    constructor
    · rintro (hFinal | ⟨-, hReach⟩)
      · exact ⟨x, mem_silentReach_self, hFinal⟩
      · exact hReach
    · exact fun hReach => Or.inr ⟨hx, hReach⟩

theorem mem_targets_eliminateEpsilon_of_mem (h : a.hasEpsilon = true) {x u : State} {m : Move}
    (hx : x ∈ a.states) :
    u ∈ a.eliminateEpsilon.targets x m ↔ m ≠ .epsilon ∧ ∃ v ∈ a.silentReach x, u ∈ a.targets v m := by
  obtain ⟨b, hb, -, hArcs⟩ := eliminateEpsilon_of_saturated h
  rw [targets_eq_arcs_targets, hArcs, Arcs.mem_targets_erase, ← targets_eq_arcs_targets,
    hb.mem_targets x (ExtTreeSet.mem_toList.mpr hx)]
  by_cases hm : m = .epsilon
  · simp [hm]
  · simp [hm, Ne.symm hm]

/-- A source that is not a state keeps its arcs but the silent one. -/
theorem eliminateEpsilon_arcs_of_not_mem (h : a.hasEpsilon = true) {x : State} (hx : x ∉ a.states) :
    a.eliminateEpsilon.arcs x = (a.arcs x).erase .epsilon := by
  obtain ⟨b, hb, -, hArcs⟩ := eliminateEpsilon_of_saturated h
  rw [hArcs, hb.arcs_of_not_mem x (mt ExtTreeSet.mem_toList.mp hx)]

theorem mem_targets_eliminateEpsilon_of_not_mem (h : a.hasEpsilon = true) {x u : State} {m : Move}
    (hx : x ∉ a.states) :
    u ∈ a.eliminateEpsilon.targets x m ↔ m ≠ .epsilon ∧ u ∈ a.targets x m := by
  change u ∈ (a.eliminateEpsilon.arcs x).targets m ↔ _
  rw [eliminateEpsilon_arcs_of_not_mem h hx, Arcs.mem_targets_erase]
  exact ⟨fun ⟨hm, hu⟩ => ⟨Ne.symm hm, hu⟩, fun ⟨hm, hu⟩ => ⟨Ne.symm hm, hu⟩⟩

/-- Every move left is a move, not the silent one, of a state of the silent reach. -/
theorem mem_arcs_eliminateEpsilon (h : a.hasEpsilon = true) {x : State} {m : Move}
    (hm : m ∈ a.eliminateEpsilon.arcs x) : m ≠ .epsilon ∧ ∃ v ∈ a.silentReach x, m ∈ a.arcs v := by
  obtain ⟨b, hb, -, hArcs⟩ := eliminateEpsilon_of_saturated h
  rw [hArcs, Arcs.mem_erase] at hm
  exact ⟨Ne.symm hm.1, hb.mem_arcs_reach hm.2⟩

/-- Under a move other than the silent one, a state reads what its silent reach read before. -/
theorem mem_targets_eliminateEpsilon_of_state {x u : State} {m : Move} (hx : x ∈ a.states)
    (hm : m ≠ .epsilon) :
    u ∈ a.eliminateEpsilon.targets x m ↔ ∃ v ∈ a.silentReach x, u ∈ a.targets v m := by
  cases h : a.hasEpsilon
  · rw [eliminateEpsilon_of_hasEpsilon_eq_false h]
    simp [mem_silentReach_of_hasEpsilon_eq_false h]
  · rw [mem_targets_eliminateEpsilon_of_mem h hx]
    exact and_iff_right hm

/-- No silent arc is left. -/
theorem targets_epsilon_eliminateEpsilon (x : State) :
    a.eliminateEpsilon.targets x .epsilon = ∅ := by
  cases h : a.hasEpsilon
  · rw [eliminateEpsilon_of_hasEpsilon_eq_false h]
    exact hasEpsilon_eq_false_iff.mp h x
  · apply ExtTreeSet.ext_mem
    intro u
    by_cases hx : x ∈ a.states
    · simp [mem_targets_eliminateEpsilon_of_mem h hx, ExtTreeSet.not_mem_empty]
    · simp [mem_targets_eliminateEpsilon_of_not_mem h hx, ExtTreeSet.not_mem_empty]

theorem hasEpsilon_eliminateEpsilon : a.eliminateEpsilon.hasEpsilon = false :=
  hasEpsilon_eq_false_iff.mpr targets_epsilon_eliminateEpsilon

/-- Removing silent arcs keeps an automaton well formed. -/
theorem wellFormed_eliminateEpsilon (hWF : a.WellFormed) : a.eliminateEpsilon.WellFormed := by
  cases h : a.hasEpsilon
  · rw [eliminateEpsilon_of_hasEpsilon_eq_false h]
    exact hWF
  · refine ⟨?_, ?_, ?_, ?_, ?_, ?_⟩
    · simpa using hWF.initial_mem
    · intro x hx
      rcases (mem_final_eliminateEpsilon h).mp hx with hFinal | ⟨hState, -⟩
      · simpa using hWF.final_mem x hFinal
      · simpa using hState
    · simpa using hWF.current_mem
    · intro x m hm
      rw [eliminateEpsilon_states]
      by_contra hx
      rw [eliminateEpsilon_arcs_of_not_mem h hx] at hm
      exact hx (hWF.source_mem x m (Arcs.mem_erase.mp hm).2)
    · intro x l hl
      rw [eliminateEpsilon_alphabet]
      obtain ⟨-, v, -, hv⟩ := mem_arcs_eliminateEpsilon h hl
      exact hWF.label_domain v l hv
    · intro x m u hu
      rw [eliminateEpsilon_states]
      by_cases hx : x ∈ a.states
      · obtain ⟨-, v, -, hv⟩ := (mem_targets_eliminateEpsilon_of_mem h hx).mp hu
        exact hWF.target_mem v m u hv
      · exact hWF.target_mem x m u ((mem_targets_eliminateEpsilon_of_not_mem h hx).mp hu).2

/-! ### Runs -/

/-- Run invariant: the new automaton reaches states, and their silent closure in the old
automaton is what the old automaton reaches. The induction is on the word, from its end. -/
theorem reach_eliminateEpsilon (hWF : a.WellFormed) (h : a.hasEpsilon = true) (w : List Label) :
    (∀ x ∈ a.eliminateEpsilon.reach w, x ∈ a.states) ∧
      ∀ y, y ∈ a.reach w ↔ ∃ x ∈ a.eliminateEpsilon.reach w, ReflTransGen a.table.Silent x y := by
  have hNoSilent : ∀ S, a.eliminateEpsilon.table.closure S = S :=
    Table.closure_eq_self targets_epsilon_eliminateEpsilon
  have hReach : ∀ {x v : State}, v ∈ a.silentReach x ↔ ReflTransGen a.table.Silent x v :=
    mem_silentReach_iff_of_silent_mem fun x y hxy => hWF.target_mem x .epsilon y hxy
  induction w using List.reverseRecOn with
  | nil =>
    rw [reach_nil, reach_nil, hNoSilent, eliminateEpsilon_initial]
    exact ⟨hWF.initial_mem, fun y => Table.mem_closure_iff⟩
  | append_singleton w l ih =>
    obtain ⟨hStates, hOld⟩ := ih
    rw [reach_append_singleton, reach_append_singleton, Table.read, hNoSilent]
    -- One letter from a reached state `x` goes through the silent reach of `x`.
    have hStep : ∀ z, z ∈ a.eliminateEpsilon.table.image (.label l) (a.eliminateEpsilon.reach w) ↔
        ∃ x ∈ a.eliminateEpsilon.reach w, ∃ v, ReflTransGen a.table.Silent x v ∧
          z ∈ a.targets v (.label l) := by
      intro z
      rw [Table.mem_image]
      constructor
      · rintro ⟨x, hx, hz⟩
        obtain ⟨-, v, hv, hzv⟩ := (mem_targets_eliminateEpsilon_of_mem h (hStates x hx)).mp hz
        exact ⟨x, hx, v, hReach.mp hv, hzv⟩
      · rintro ⟨x, hx, v, hxv, hzv⟩
        exact ⟨x, hx, (mem_targets_eliminateEpsilon_of_mem h (hStates x hx)).mpr
          ⟨Move.label_ne_epsilon l, v, hReach.mpr hxv, hzv⟩⟩
    constructor
    · intro z hz
      obtain ⟨-, -, v, -, hzv⟩ := (hStep z).mp hz
      exact hWF.target_mem v _ z hzv
    · intro y
      rw [Table.mem_read]
      constructor
      · rintro ⟨v, hv, z, hz, hzy⟩
        obtain ⟨x, hx, hxv⟩ := (hOld v).mp hv
        exact ⟨z, (hStep z).mpr ⟨x, hx, v, hxv, hz⟩, hzy⟩
      · rintro ⟨z, hz, hzy⟩
        obtain ⟨x, hx, v, hxv, hzv⟩ := (hStep z).mp hz
        exact ⟨v, (hOld v).mpr ⟨x, hx, hxv⟩, z, hzv, hzy⟩

/-- A well-formed automaton accepts the same words before and after silent arcs are removed. -/
theorem accepts_run_eliminateEpsilon (hWF : a.WellFormed) (w : List Label) :
    (a.eliminateEpsilon.run w).accepts = (a.run w).accepts := by
  cases h : a.hasEpsilon
  · rw [eliminateEpsilon_of_hasEpsilon_eq_false h]
  · obtain ⟨hStates, hOld⟩ := reach_eliminateEpsilon hWF h w
    have hReach : ∀ {x v : State}, v ∈ a.silentReach x ↔ ReflTransGen a.table.Silent x v :=
      mem_silentReach_iff_of_silent_mem fun x y hxy => hWF.target_mem x .epsilon y hxy
    apply Bool.eq_iff_iff.mpr
    rw [accepts_run_iff, accepts_run_iff]
    constructor
    · rintro ⟨x, hx, hFinal⟩
      rcases (mem_final_eliminateEpsilon h).mp hFinal with hOldFinal | ⟨-, v, hv, hvFinal⟩
      · exact ⟨x, (hOld x).mpr ⟨x, hx, ReflTransGen.refl⟩, hOldFinal⟩
      · exact ⟨v, (hOld v).mpr ⟨x, hx, hReach.mp hv⟩, hvFinal⟩
    · rintro ⟨y, hy, hFinal⟩
      obtain ⟨x, hx, hxy⟩ := (hOld y).mp hy
      exact ⟨x, hx, (mem_final_eliminateEpsilon h).mpr
        (Or.inr ⟨hStates x hx, y, hReach.mpr hxy, hFinal⟩)⟩

/-- Removing the silent arcs of a valid automaton leaves no silent arc, keeps it valid, keeps its
states, initial and current states and alphabet, only adds final states, and keeps the answer
of every run. -/
theorem eliminateEpsilon_keeps_runs {a : Automaton} (hValid : a.validate = none) :
    (∀ s, a.eliminateEpsilon.targets s .epsilon = ∅) ∧ a.eliminateEpsilon.hasEpsilon = false ∧
      a.eliminateEpsilon.validate = none ∧ a.eliminateEpsilon.states = a.states ∧
      a.eliminateEpsilon.initial = a.initial ∧ a.eliminateEpsilon.current = a.current ∧
      a.eliminateEpsilon.alphabet = a.alphabet ∧ (∀ s ∈ a.final, s ∈ a.eliminateEpsilon.final) ∧
      ∀ w, (a.eliminateEpsilon.run w).accepts = (a.run w).accepts := by
  have hWF := validate_eq_none_iff.mp hValid
  exact ⟨targets_epsilon_eliminateEpsilon, hasEpsilon_eliminateEpsilon,
    validate_eq_none_iff.mpr (wellFormed_eliminateEpsilon hWF), eliminateEpsilon_states,
    eliminateEpsilon_initial, eliminateEpsilon_current, eliminateEpsilon_alphabet,
    fun _ => mem_final_eliminateEpsilon_of_mem, accepts_run_eliminateEpsilon hWF⟩

/-- The theorem at a silent cycle `0 ⇄ 1` with a silent self-loop on `1`, a label arc out of
`1` to the final state `2`, and `0` initial. -/
theorem eliminateEpsilon_keeps_runs_on_silent_cycle :
    let a := ((((((((Automaton.empty {}).addState 0).addState 1).addState 2).addEpsilon 0 1
      ).addEpsilon 1 0).addEpsilon 1 1).addTransition 1 ∅ 2).markInitial 0 |>.markFinal 2
    a.validate = none ∧
      ((∀ s, a.eliminateEpsilon.targets s .epsilon = ∅) ∧ a.eliminateEpsilon.hasEpsilon = false ∧
        a.eliminateEpsilon.validate = none ∧ a.eliminateEpsilon.states = a.states ∧
        a.eliminateEpsilon.initial = a.initial ∧ a.eliminateEpsilon.current = a.current ∧
        a.eliminateEpsilon.alphabet = a.alphabet ∧ (∀ s ∈ a.final, s ∈ a.eliminateEpsilon.final) ∧
        ∀ w, (a.eliminateEpsilon.run w).accepts = (a.run w).accepts) :=
  ⟨by decide, eliminateEpsilon_keeps_runs (by decide)⟩

/-! ### Saturation of every state -/

/-- Removing the silent arcs of a valid automaton gives each state, under every move other than
the silent one, exactly the old targets of the states it reaches by silent arcs, itself
included, and makes it final exactly when one of those was final; the state keeps no silent
arc. The states absorb their reach in place, in ascending order, so a state may copy arcs and
final marks that an earlier one has just absorbed; those lie within its own reach, so the order
does not show. -/
theorem eliminateEpsilon_saturates_silent_closures (hValid : a.validate = none) (s : State)
    (hs : s ∈ a.states) :
    (∀ m, m ≠ .epsilon → ∀ u, u ∈ a.eliminateEpsilon.targets s m ↔
      ∃ t, ReflTransGen a.table.Silent s t ∧ u ∈ a.targets t m) ∧
    a.eliminateEpsilon.targets s .epsilon = ∅ ∧
    (s ∈ a.eliminateEpsilon.final ↔ ∃ t, ReflTransGen a.table.Silent s t ∧ t ∈ a.final) := by
  have hWF := validate_eq_none_iff.mp hValid
  -- In a valid automaton every silent target is a state, so the reach is the silent closure.
  have hReach : ∀ {t}, t ∈ a.silentReach s ↔ ReflTransGen a.table.Silent s t :=
    mem_silentReach_iff_of_silent_mem fun x y hxy => hWF.target_mem x .epsilon y hxy
  refine ⟨fun m hm u => ?_, targets_epsilon_eliminateEpsilon s, ?_⟩
  · rw [mem_targets_eliminateEpsilon_of_state hs hm]
    simp only [hReach]
  · rw [mem_final_eliminateEpsilon_of_state hs]
    simp only [hReach]

/-- The theorem at state `2` of the silent chain `2 → 0 → 1`, where `1` is final and reads
`{0 ↦ true}` into `3`: state `0` absorbs `1` first, and `2`, processed later, copies from `0`
what `0` has absorbed. -/
theorem eliminateEpsilon_saturates_silent_closures_along_chain :
    let a := (((((((Automaton.empty {}).addState 0).addState 1).addState 2).addState 3
      ).addEpsilon 2 0).addEpsilon 0 1).addTransition 1 ((∅ : Label).insert 0 true) 3
      |>.markInitial 2 |>.markFinal 1
    a.validate = none ∧ 2 ∈ a.states ∧
      ((∀ m, m ≠ .epsilon → ∀ u, u ∈ a.eliminateEpsilon.targets 2 m ↔
        ∃ t, ReflTransGen a.table.Silent 2 t ∧ u ∈ a.targets t m) ∧
      a.eliminateEpsilon.targets 2 .epsilon = ∅ ∧
      (2 ∈ a.eliminateEpsilon.final ↔ ∃ t, ReflTransGen a.table.Silent 2 t ∧ t ∈ a.final)) :=
  ⟨by decide, by decide, eliminateEpsilon_saturates_silent_closures (by decide) 2 (by decide)⟩

example :
    let a := (((((((Automaton.empty {}).addState 0).addState 1).addState 2).addState 3
      ).addEpsilon 2 0).addEpsilon 0 1).addTransition 1 ((∅ : Label).insert 0 true) 3
      |>.markInitial 2 |>.markFinal 1
    a.eliminateEpsilon.targets 2 (.label ((∅ : Label).insert 0 true)) = {3} ∧
      2 ∈ a.eliminateEpsilon.final := by
  decide +kernel

end Automaton

end BitAutomata
