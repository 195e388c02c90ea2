import BitAutomata.Run
import BitAutomata.Proofs.Containers
import BitAutomata.Proofs.Keys

/-!
# Targets of arcs and tables

Every operation that builds arcs (adding one target, adding a set of targets, joining two arc
maps, dropping a move) and every table update is described here by what it does to the targets
of each move: membership in the targets afterwards, in terms of the targets before. Later proofs
reason through these lemmas and never unfold the tree maps. Since keys name moves exactly, the
arcs of a state behave as a function from moves to sets of targets.
-/

namespace BitAutomata

open Std

namespace Arcs

variable {arcs other : Arcs} {m m' : Move} {t u : State} {ts : StateSet}

theorem targets_eq_getD_getElem? : arcs.targets m = arcs[m]?.getD ∅ :=
  ExtTreeMap.getD_eq_getD_getElem?

@[simp]
theorem targets_empty : (∅ : Arcs).targets m = ∅ :=
  ExtTreeMap.getD_empty

/-- An entry of the sorted list of arcs is a move with its targets. -/
theorem targets_of_mem_toList (h : (m, ts) ∈ arcs.toList) : arcs.targets m = ts := by
  rw [targets_eq_getD_getElem?, ExtTreeMap.mem_toList_iff_getElem?_eq_some.mp h]
  rfl

/-- The move of an entry of the sorted list of arcs has an arc. -/
theorem mem_of_mem_toList (h : (m, ts) ∈ arcs.toList) : m ∈ arcs :=
  ExtTreeMap.mem_iff_isSome_getElem?.mpr
    (Option.isSome_of_eq_some (ExtTreeMap.mem_toList_iff_getElem?_eq_some.mp h))

/-- A target of a move is a member of the set the move holds. -/
theorem mem_targets_iff_getElem? : u ∈ arcs.targets m ↔ ∃ ts, arcs[m]? = some ts ∧ u ∈ ts := by
  rw [targets_eq_getD_getElem?]
  cases arcs[m]? with
  | none => simp [ExtTreeSet.not_mem_empty]
  | some ts => simp

/-- A target of a move is found in the entry of that move in the sorted list of arcs. -/
theorem mem_targets_iff_exists_mem_toList :
    u ∈ arcs.targets m ↔ ∃ ts, (m, ts) ∈ arcs.toList ∧ u ∈ ts := by
  simp only [mem_targets_iff_getElem?, ExtTreeMap.mem_toList_iff_getElem?_eq_some]

theorem getElem?_eq_some_targets (h : m ∈ arcs) : arcs[m]? = some (arcs.targets m) :=
  ExtTreeMap.getElem?_eq_some_getD h

@[simp]
theorem mem_targets_add : u ∈ (arcs.add m t).targets m' ↔ (m = m' ∧ u = t) ∨ u ∈ arcs.targets m' := by
  rw [add, targets, ExtTreeMap.getD_alter]
  simp only [Std.LawfulEqCmp.compare_eq_iff_eq]
  by_cases hm : m = m'
  · subst hm
    simp only [↓reduceIte, Option.getD_some, ExtTreeSet.mem_insert,
      Std.LawfulEqCmp.compare_eq_iff_eq, targets_eq_getD_getElem?, true_and]
    rw [@eq_comm _ t u]
  · simp [hm, targets]

@[simp]
theorem mem_targets_addAll :
    u ∈ (arcs.addAll m ts).targets m' ↔ (m = m' ∧ u ∈ ts) ∨ u ∈ arcs.targets m' := by
  unfold addAll
  split
  · rename_i hEmpty
    have hNone : u ∉ ts := by
      rw [ExtTreeSet.isEmpty_iff.mp hEmpty]
      exact ExtTreeSet.not_mem_empty
    simp [hNone]
  · rw [targets, ExtTreeMap.getD_alter]
    simp only [Std.LawfulEqCmp.compare_eq_iff_eq]
    by_cases hm : m = m'
    · subst hm
      simp [ExtTreeSet.mem_union_iff, targets_eq_getD_getElem?, or_comm]
    · simp [hm, targets]

/-- Folding `addAll` over a list of entries adds the targets of every entry for its move. -/
theorem mem_targets_foldl_addAll (l : List (Move × StateSet)) (acc : Arcs) :
    u ∈ (l.foldl (fun acc e => acc.addAll e.1 e.2) acc).targets m ↔
      u ∈ acc.targets m ∨ ∃ ts, (m, ts) ∈ l ∧ u ∈ ts := by
  induction l generalizing acc with
  | nil => simp
  | cons e es ih =>
    rw [List.foldl_cons, ih, mem_targets_addAll]
    constructor
    · rintro ((⟨rfl, hu⟩ | hu) | ⟨ts, hMem, hu⟩)
      · exact Or.inr ⟨e.2, by simp, hu⟩
      · exact Or.inl hu
      · exact Or.inr ⟨ts, List.mem_cons_of_mem e hMem, hu⟩
    · rintro (hu | ⟨ts, hMem, hu⟩)
      · exact Or.inl (Or.inr hu)
      · rcases List.mem_cons.mp hMem with hHead | hTail
        · subst hHead
          exact Or.inl (Or.inl ⟨rfl, hu⟩)
        · exact Or.inr ⟨ts, hTail, hu⟩

@[simp]
theorem mem_targets_join : u ∈ (arcs.join other).targets m ↔ u ∈ arcs.targets m ∨ u ∈ other.targets m := by
  rw [join, ExtTreeMap.foldl_eq_foldl_toList]
  rw [mem_targets_foldl_addAll other.toList arcs, @mem_targets_iff_exists_mem_toList other m u]

@[simp]
theorem mem_targets_erase : u ∈ Arcs.targets (arcs.erase m) m' ↔ m ≠ m' ∧ u ∈ arcs.targets m' := by
  rw [targets, ExtTreeMap.getD_erase]
  simp only [Std.LawfulEqCmp.compare_eq_iff_eq]
  by_cases hm : m = m'
  · simp [hm]
  · simp [hm, targets]

/-- A move of `arcs.add m t` is `m` or a move of `arcs`. -/
theorem mem_add : m' ∈ arcs.add m t ↔ m = m' ∨ m' ∈ arcs := by
  rw [add, ExtTreeMap.mem_alter]
  by_cases hm : m = m'
  · simp [hm]
  · simp [hm, Std.LawfulEqCmp.compare_eq_iff_eq]

theorem mem_of_mem_addAll (h : m' ∈ arcs.addAll m ts) : m = m' ∨ m' ∈ arcs := by
  unfold addAll at h
  split at h
  · exact Or.inr h
  · rw [ExtTreeMap.mem_alter] at h
    by_cases hm : m = m'
    · exact Or.inl hm
    · simp only [Std.LawfulEqCmp.compare_eq_iff_eq, hm, if_false] at h
      exact Or.inr h

/-- A move of a join is a move of one of the joined maps. -/
theorem mem_of_mem_join (h : m ∈ arcs.join other) : m ∈ arcs ∨ m ∈ other := by
  rw [join, ExtTreeMap.foldl_eq_foldl_toList] at h
  have hFold : ∀ (l : List (Move × StateSet)) (acc : Arcs),
      m ∈ l.foldl (fun acc e => acc.addAll e.1 e.2) acc → m ∈ acc ∨ ∃ ts, (m, ts) ∈ l := by
    intro l
    induction l with
    | nil => exact fun acc h => Or.inl h
    | cons e es ih =>
      intro acc h
      rcases ih _ h with hAcc | ⟨ts, hMem⟩
      · rcases mem_of_mem_addAll hAcc with hEq | hOld
        · exact Or.inr ⟨e.2, List.mem_cons.mpr (Or.inl (by rw [← hEq]))⟩
        · exact Or.inl hOld
      · exact Or.inr ⟨ts, List.mem_cons_of_mem e hMem⟩
  rcases hFold _ _ h with hArcs | ⟨ts, hMem⟩
  · exact Or.inl hArcs
  · have hLookup := ExtTreeMap.mem_toList_iff_getElem?_eq_some.mp hMem
    exact Or.inr (ExtTreeMap.mem_iff_isSome_getElem?.mpr (by simp [hLookup]))

theorem mem_erase : m' ∈ arcs.erase m ↔ m ≠ m' ∧ m' ∈ arcs := by
  rw [ExtTreeMap.mem_erase]
  simp [Std.LawfulEqCmp.compare_eq_iff_eq]

end Arcs

namespace Table

variable {t : Table} {s s' x y u : State} {m m' : Move}

@[simp]
theorem arcs_empty : (∅ : Table).arcs s = ∅ :=
  ExtTreeMap.getD_empty

@[simp]
theorem targets_empty : (∅ : Table).targets s m = ∅ := by
  simp [targets]

theorem arcs_insert {arcs : Arcs} : Table.arcs (t.insert s arcs) s' = if s = s' then arcs else t.arcs s' := by
  rw [Table.arcs, ExtTreeMap.getD_insert]
  simp only [Std.LawfulEqCmp.compare_eq_iff_eq]
  rfl

theorem arcs_erase : Table.arcs (t.erase s) s' = if s = s' then ∅ else t.arcs s' := by
  rw [Table.arcs, ExtTreeMap.getD_erase]
  simp only [Std.LawfulEqCmp.compare_eq_iff_eq]
  rfl

theorem arcs_eq_getD_getElem? : t.arcs s = t[s]?.getD ∅ :=
  ExtTreeMap.getD_eq_getD_getElem?

/-- An entry of the sorted list of a table is a source with its arcs. -/
theorem arcs_of_mem_toList {arcs : Arcs} (h : (s, arcs) ∈ t.toList) : t.arcs s = arcs := by
  rw [arcs_eq_getD_getElem?, ExtTreeMap.mem_toList_iff_getElem?_eq_some.mp h]
  rfl

/-- A source with an arc has an entry in the sorted list of the table. -/
theorem mem_toList_of_mem_arcs (h : m ∈ t.arcs s) : (s, t.arcs s) ∈ t.toList := by
  rw [arcs_eq_getD_getElem?] at h ⊢
  cases hLookup : t[s]? with
  | none =>
    rw [hLookup] at h
    exact absurd h ExtTreeMap.not_mem_empty
  | some arcs => exact ExtTreeMap.mem_toList_iff_getElem?_eq_some.mpr hLookup

/-- A target of a move is a target of an arc, so the move has an arc. -/
theorem mem_arcs_of_mem_targets (h : y ∈ t.targets s m) : m ∈ t.arcs s := by
  obtain ⟨ts, hMem, -⟩ := Arcs.mem_targets_iff_exists_mem_toList.mp h
  have hLookup := ExtTreeMap.mem_toList_iff_getElem?_eq_some.mp hMem
  exact ExtTreeMap.mem_iff_isSome_getElem?.mpr (by simp [hLookup])

@[simp]
theorem mem_targets_addArc :
    y ∈ (t.addArc s m u).targets s' m' ↔ (s = s' ∧ m = m' ∧ y = u) ∨ y ∈ t.targets s' m' := by
  rw [targets, addArc, arcs_insert]
  by_cases hs : s = s'
  · subst hs
    simp [targets]
  · simp [hs, targets]

theorem mem_arcs_addArc : m' ∈ (t.addArc s m u).arcs s' ↔ (s = s' ∧ m = m') ∨ m' ∈ t.arcs s' := by
  rw [addArc, arcs_insert]
  by_cases hs : s = s'
  · subst hs
    simp [Arcs.mem_add]
  · simp [hs]

/-- The image of a set under a move collects the targets of that move from every member. -/
@[simp]
theorem mem_image {S : StateSet} : y ∈ t.image m S ↔ ∃ x ∈ S, y ∈ t.targets x m := by
  rw [image, ExtTreeSet.foldl_eq_foldl_toList]
  have hFold : ∀ (l : List State) (acc : StateSet),
      y ∈ l.foldl (fun acc q => acc ∪ t.targets q m) acc ↔ y ∈ acc ∨ ∃ x ∈ l, y ∈ t.targets x m := by
    intro l
    induction l with
    | nil => simp
    | cons q qs ih =>
      intro acc
      rw [List.foldl_cons, ih, ExtTreeSet.mem_union_iff]
      simp only [List.mem_cons, exists_eq_or_imp]
      tauto
  rw [hFold]
  simp [ExtTreeSet.mem_toList]

@[simp]
theorem image_empty : t.image m ∅ = ∅ := by
  apply ExtTreeSet.ext_mem
  intro y
  simp [ExtTreeSet.not_mem_empty]

@[simp]
theorem image_singleton : t.image m {x} = t.targets x m := by
  apply ExtTreeSet.ext_mem
  intro y
  simp

/-- The target set holds exactly the targets of the arcs. -/
theorem mem_targetSet : y ∈ t.targetSet ↔ ∃ s m, y ∈ t.targets s m := by
  -- Both folds take unions, so a state ends up in the result when some entry holds it.
  have hInner : ∀ (l : List (Move × StateSet)) (acc : StateSet),
      y ∈ l.foldl (fun acc e => acc ∪ e.2) acc ↔ y ∈ acc ∨ ∃ e ∈ l, y ∈ e.2 := by
    intro l
    induction l with
    | nil => simp
    | cons e es ih =>
      intro acc
      rw [List.foldl_cons, ih, ExtTreeSet.mem_union_iff]
      simp only [List.mem_cons, exists_eq_or_imp]
      tauto
  have hOuter : ∀ (l : List (State × Arcs)) (acc : StateSet),
      y ∈ l.foldl (fun acc e => e.2.foldl (fun acc _ ts => acc ∪ ts) acc) acc ↔
        y ∈ acc ∨ ∃ e ∈ l, ∃ f ∈ e.2.toList, y ∈ f.2 := by
    intro l
    induction l with
    | nil => simp
    | cons e es ih =>
      intro acc
      rw [List.foldl_cons, ih, ExtTreeMap.foldl_eq_foldl_toList, hInner]
      simp only [List.mem_cons, exists_eq_or_imp]
      exact or_assoc
  rw [targetSet, ExtTreeMap.foldl_eq_foldl_toList, hOuter]
  constructor
  · rintro (hEmpty | ⟨⟨s, arcs⟩, he, ⟨m, ts⟩, hf, hy⟩)
    · exact absurd hEmpty ExtTreeSet.not_mem_empty
    · refine ⟨s, m, ?_⟩
      rw [targets, arcs_of_mem_toList he, Arcs.targets_of_mem_toList hf]
      exact hy
  · rintro ⟨s, m, hy⟩
    obtain ⟨ts, hMem, hy⟩ := Arcs.mem_targets_iff_exists_mem_toList.mp hy
    exact Or.inr ⟨(s, t.arcs s), mem_toList_of_mem_arcs (mem_arcs_of_mem_targets
      (Arcs.mem_targets_iff_exists_mem_toList.mpr ⟨ts, hMem, hy⟩)), (m, ts), hMem, hy⟩

end Table

namespace Automaton

variable {a : Automaton}

/-- A move without an arc has no targets. -/
theorem targets_eq_empty_of_not_mem_arcs {s : State} {m : Move} (h : m ∉ a.arcs s) :
    a.targets s m = ∅ :=
  ExtTreeSet.eq_empty_iff_forall_not_mem.mpr fun _ hy => h (Table.mem_arcs_of_mem_targets hy)

/-- No silent arc has a target exactly when every state's silent targets are empty. -/
theorem hasEpsilon_eq_false_iff : a.hasEpsilon = false ↔ ∀ s, a.targets s .epsilon = ∅ := by
  rw [hasEpsilon, treeMap_any_eq_any_toList, List.any_eq_false]
  constructor
  · intro hAll s
    change (a.table.arcs s).targets .epsilon = ∅
    by_cases hs : ∃ m, m ∈ a.arcs s
    · obtain ⟨m, hm⟩ := hs
      have hEntry := hAll _ (Table.mem_toList_of_mem_arcs hm)
      simpa [Std.ExtTreeSet.isEmpty_iff] using hEntry
    · have hNoArcs : a.table.arcs s = ∅ :=
        ExtTreeMap.eq_empty_iff_forall_not_mem.mpr fun m hm => hs ⟨m, hm⟩
      rw [hNoArcs]
      exact Arcs.targets_empty
  · rintro hNone ⟨s, arcs⟩ hMem
    have hArcs : a.table.arcs s = arcs := Table.arcs_of_mem_toList hMem
    have hTargets := hNone s
    change (a.table.arcs s).targets .epsilon = ∅ at hTargets
    rw [hArcs] at hTargets
    simp [hTargets]

/-- A check run over the targets of every arc of the table holds exactly when it holds of the
targets of every move that has an arc. -/
theorem table_all_iff (p : StateSet → Bool) :
    (a.table.all fun _ arcs => arcs.all fun _ ts => p ts) = true ↔
      ∀ s m, m ∈ a.arcs s → p (a.targets s m) = true := by
  simp only [treeMap_all_eq_all_toList, List.all_eq_true]
  constructor
  · intro hAll s m hm
    change m ∈ a.table.arcs s at hm
    have hLookup : (a.table.arcs s)[m]? = some ((a.table.arcs s).targets m) := by
      rw [Arcs.targets_eq_getD_getElem?, ExtTreeMap.getElem?_eq_some_getElem hm]
      rfl
    exact hAll _ (Table.mem_toList_of_mem_arcs hm) _
      (ExtTreeMap.mem_toList_iff_getElem?_eq_some.mpr hLookup)
  · rintro hAll ⟨s, arcs⟩ hMem ⟨m, ts⟩ hArc
    have hArcs : a.table.arcs s = arcs := Table.arcs_of_mem_toList hMem
    have hTargets : a.targets s m = ts := by
      change (a.table.arcs s).targets m = ts
      rw [hArcs, Arcs.targets_of_mem_toList hArc]
    have hm : m ∈ a.arcs s := by
      change m ∈ a.table.arcs s
      rw [hArcs, ExtTreeMap.mem_iff_isSome_getElem?,
        ExtTreeMap.mem_toList_iff_getElem?_eq_some.mp hArc]
      rfl
    rw [← hTargets]
    exact hAll s m hm

/-- Every state has at most one target for each move exactly when every arc has at most one
target. -/
theorem table_all_size_le_one_iff :
    (a.table.all fun _ arcs => arcs.all fun _ ts => ts.size ≤ 1) = true ↔
      ∀ s m, (a.targets s m).size ≤ 1 := by
  rw [table_all_iff]
  simp only [decide_eq_true_eq]
  constructor
  · intro hAll s m
    by_cases hm : m ∈ a.arcs s
    · exact hAll s m hm
    · rw [targets_eq_empty_of_not_mem_arcs hm]
      simp
  · intro hAll s m _
    exact hAll s m

/-- Every arc has a target exactly when no arc's set of targets is empty. -/
theorem arcs_nonempty_iff : (∀ s m, m ∈ a.arcs s → ∃ u, u ∈ a.targets s m) ↔
    (a.table.all fun _ arcs => arcs.all fun _ ts => !ts.isEmpty) = true := by
  rw [table_all_iff]
  simp only [Bool.not_eq_true', ExtTreeSet.isEmpty_eq_false_iff,
    ExtTreeSet.eq_empty_iff_forall_not_mem, not_forall, not_not]

/-- Deterministic: at most one initial state, no silent target, and at most one target for
each state and move. -/
theorem isDeterministic_iff : a.isDeterministic = true ↔
    a.initial.size ≤ 1 ∧ a.hasEpsilon = false ∧ ∀ s m, (a.targets s m).size ≤ 1 := by
  rw [isDeterministic, Bool.and_eq_true, Bool.and_eq_true, decide_eq_true_eq, Bool.not_eq_true',
    table_all_size_le_one_iff, and_assoc]

end Automaton

end BitAutomata
