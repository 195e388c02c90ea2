import Mathlib.Algebra.BigOperators.Group.Finset.Basic
import BitAutomata.Proofs.Alphabet
import BitAutomata.Proofs.Renumber

/-!
# Renumbering states in order

`restate` numbers the states `0, 1, 2, …` in ascending order and sends anything that is not a
state to `0`. When every state the automaton refers to is one of its states (`RefersToStates`:
the marked states, every source filed in the table whether or not arcs are left there, and every
target), that numbering is the position of each state in the ascending list of states
(`restate_eq_renumberBy_position`), which is injective on the states
(`StateSet.position_injOn`).

A renaming that is injective on the states carries the whole automaton along. Each state's arcs
are filed under its new name with their targets renamed (`arcs_renumberBy_apply`), and no other
name has arcs. Runs reach the renamed states of the old runs (`reach_renumberBy`). The number of
triples, validity, acceptance and the language are kept. `restate_renames_states_in_order`
collects these facts for `restate`. Such a renaming sends no two sources to one name, so the order
in which the pass visits the sources does not matter (`renumberIn_eq_renumberBy`,
`restateIn_eq_restate`).
-/

namespace BitAutomata

open Std Relation

namespace StateSet

variable {S T : StateSet} {f g : State → State} {y : State}

/-- The position of a state in the ascending list of a set's members, as a state: on the members,
the order-preserving numbering of the set from `0`. -/
def position (S : StateSet) (s : State) : State :=
  Int64.ofNat (S.toList.idxOf s)

/-- A set holds at most `2 ^ 64` states, as many as there are 64-bit integers. -/
theorem size_le_two_pow : S.size ≤ 2 ^ 64 := by
  rw [← card_toFinset]
  calc S.toFinset.card ≤ (Finset.range (2 ^ 64)).card := by
        refine Finset.card_le_card_of_injOn (fun x : State => x.toBitVec.toNat) (fun x _ => ?_) ?_
        · simpa using x.toBitVec.isLt
        · intro x _ x' _ hEq
          exact Int64.toBitVec_inj.mp (BitVec.eq_of_toNat_eq hEq)
    _ = 2 ^ 64 := Finset.card_range _

theorem position_injOn : Set.InjOn S.position {x | x ∈ S} := by
  intro x hx x' hx' hEq
  have hLength : S.toList.length ≤ 2 ^ 64 := by
    rw [ExtTreeSet.length_toList]
    exact size_le_two_pow
  have hMem : x ∈ S.toList := ExtTreeSet.mem_toList.mpr hx
  have hMem' : x' ∈ S.toList := ExtTreeSet.mem_toList.mpr hx'
  -- Positions are below `2 ^ 64`, where distinct numbers are distinct 64-bit integers.
  have hIdx : S.toList.idxOf x = S.toList.idxOf x' :=
    (Numbering.state_inj (Nat.lt_of_lt_of_le (List.idxOf_lt_length_iff.mpr hMem) hLength)
      (Nat.lt_of_lt_of_le (List.idxOf_lt_length_iff.mpr hMem') hLength)).mp hEq
  exact (List.idxOf_inj hMem).mp hIdx

/-- Numbering the members by their positions gives the numbers below the size of the set. -/
theorem image_position : S.image S.position = ExtTreeSet.ofList ((List.range S.size).map Int64.ofNat) := by
  apply ExtTreeSet.ext_mem
  intro y
  rw [mem_image, ExtTreeSet.mem_ofList, List.contains_iff_mem, List.mem_map]
  simp only [List.mem_range]
  constructor
  · rintro ⟨x, hx, rfl⟩
    refine ⟨S.toList.idxOf x, ?_, rfl⟩
    rw [← ExtTreeSet.length_toList]
    exact List.idxOf_lt_length_iff.mpr (ExtTreeSet.mem_toList.mpr hx)
  · rintro ⟨i, hi, rfl⟩
    rw [← ExtTreeSet.length_toList] at hi
    refine ⟨S.toList[i], ExtTreeSet.mem_toList.mp (List.getElem_mem hi), ?_⟩
    rw [position, (nodup_toList S).idxOf_getElem i hi]

theorem image_congr (h : ∀ x ∈ S, f x = g x) : S.image f = S.image g := by
  apply ExtTreeSet.ext_mem
  intro y
  rw [mem_image, mem_image]
  constructor
  · rintro ⟨x, hx, rfl⟩
    exact ⟨x, hx, (h x hx).symm⟩
  · rintro ⟨x, hx, rfl⟩
    exact ⟨x, hx, h x hx⟩

theorem toFinset_image : (S.image f).toFinset = S.toFinset.image f := by
  ext y
  simp [mem_image]

/-- An injective renaming keeps the size of a set. -/
theorem size_image (hf : Set.InjOn f {x | x ∈ S}) : (S.image f).size = S.size := by
  rw [← card_toFinset, ← card_toFinset, toFinset_image, Finset.card_image_of_injOn]
  intro x hx x' hx' hEq
  exact hf (mem_toFinset.mp hx) (mem_toFinset.mp hx') hEq

/-- A renaming injective on a domain that holds two sets keeps whether they meet. -/
theorem meets_image {D : Set State} (hf : Set.InjOn f D) (hS : ∀ x ∈ S, x ∈ D)
    (hT : ∀ x ∈ T, x ∈ D) : (S.image f).meets (T.image f) = S.meets T := by
  rw [Bool.eq_iff_iff, meets_iff, meets_iff]
  simp only [mem_image]
  constructor
  · rintro ⟨_, ⟨x, hx, rfl⟩, x', hx', hEq⟩
    obtain rfl := hf (hT x' hx') (hS x hx) hEq
    exact ⟨x', hx, hx'⟩
  · rintro ⟨x, hx, hxT⟩
    exact ⟨f x, ⟨x, hx, rfl⟩, x, hxT, rfl⟩

end StateSet

namespace Arcs

variable {arcs : Arcs} {f g : State → State}

@[simp]
theorem count_empty : (∅ : Arcs).count = 0 := by
  rw [count_eq_sum, ExtTreeMap.toList_eq_nil_iff.mpr rfl]
  rfl

theorem map_image_congr (h : ∀ m, ∀ x ∈ arcs.targets m, f x = g x) :
    (arcs.map fun _ ts => ts.image f) = arcs.map fun _ ts => ts.image g := by
  apply ExtTreeMap.ext_getElem?
  intro m
  rw [ExtTreeMap.getElem?_map, ExtTreeMap.getElem?_map]
  refine Option.map_congr fun ts hts => ?_
  have hTargets : arcs.targets m = ts := by
    rw [targets_eq_getD_getElem?, hts]
    rfl
  exact StateSet.image_congr fun x hx => h m x (hTargets ▸ hx)

/-- Renaming targets injectively keeps the number of (move, target) pairs. -/
theorem count_map_image (hf : ∀ m, Set.InjOn f {x | x ∈ arcs.targets m}) :
    Arcs.count (arcs.map fun _ ts => ts.image f) = arcs.count := by
  rw [count_eq_sum, count_eq_sum, ExtTreeMap.toList_map, List.map_map]
  congr 1
  apply List.map_congr_left
  rintro ⟨m, ts⟩ hMem
  exact StateSet.size_image (targets_of_mem_toList hMem ▸ hf m)

end Arcs

namespace Table

variable {t : Table} {s : State}

theorem arcs_eq_empty_of_not_mem (h : s ∉ t) : t.arcs s = ∅ :=
  ExtTreeMap.getD_eq_fallback h

theorem fst_mem_of_mem_toList {e : State × Arcs} (h : e ∈ t.toList) : e.1 ∈ t :=
  ExtTreeMap.mem_iff_isSome_getElem?.mpr (by rw [ExtTreeMap.mem_toList_iff_getElem?_eq_some.mp h]; rfl)

theorem mem_toList_of_mem (h : s ∈ t) : (s, t.arcs s) ∈ t.toList := by
  rw [ExtTreeMap.mem_toList_iff_getElem?_eq_some, arcs_eq_getD_getElem?,
    ExtTreeMap.getElem?_eq_some_getElem h]
  rfl

/-- The triples of a table, counted source by source over any set that holds every source with
arcs. -/
theorem count_eq_sum_of_forall_not_mem (K : Finset State) (hK : ∀ s ∉ K, t.arcs s = ∅) :
    t.count = ∑ s ∈ K, (t.arcs s).count := by
  have hNodup : t.keys.Nodup :=
    ExtTreeMap.distinct_keys.imp fun hNe hEq => hNe (Std.compare_eq_iff_eq.mpr hEq)
  have hKeys : t.count = ∑ s ∈ t.keys.toFinset, (t.arcs s).count := by
    rw [count_eq_sum, List.sum_toFinset _ hNodup, ← ExtTreeMap.map_fst_toList_eq_keys, List.map_map]
    congr 1
    apply List.map_congr_left
    rintro ⟨s, arcs⟩ hMem
    simp [arcs_of_mem_toList hMem]
  -- A source outside either set has no arcs, so both sums are the sum over the union.
  calc t.count = ∑ s ∈ t.keys.toFinset, (t.arcs s).count := hKeys
    _ = ∑ s ∈ t.keys.toFinset ∪ K, (t.arcs s).count := by
        refine Finset.sum_subset Finset.subset_union_left fun s _ hs => ?_
        have hNot : s ∉ t := fun hMem => hs (List.mem_toFinset.mpr (ExtTreeMap.mem_keys.mpr hMem))
        rw [arcs_eq_empty_of_not_mem hNot, Arcs.count_empty]
    _ = ∑ s ∈ K, (t.arcs s).count := by
        refine (Finset.sum_subset Finset.subset_union_right fun s _ hs => ?_).symm
        rw [hK s hs, Arcs.count_empty]

end Table

namespace Automaton

variable {a : Automaton} {f g : State → State} {s k x y : State} {m : Move} {w : List Label}

/-- Every state the automaton refers to is one of its states: its initial, final and current
states, every source filed in its table, whether or not arcs are left there, and every target. -/
structure RefersToStates (a : Automaton) : Prop where
  initial_mem : ∀ s ∈ a.initial, s ∈ a.states
  final_mem : ∀ s ∈ a.final, s ∈ a.states
  current_mem : ∀ s ∈ a.current, s ∈ a.states
  source_mem : ∀ s ∈ a.table, s ∈ a.states
  target_mem : ∀ s m t, t ∈ a.targets s m → t ∈ a.states

/-- Validation checks only the sources that have arcs: a well-formed automaton refers to states
only when its table files no other source. -/
theorem WellFormed.refersToStates (hWF : a.WellFormed) (hTable : ∀ s ∈ a.table, s ∈ a.states) :
    a.RefersToStates :=
  ⟨hWF.initial_mem, hWF.final_mem, hWF.current_mem, hTable, hWF.target_mem⟩

namespace RefersToStates

theorem arcs_eq_empty (h : a.RefersToStates) (hs : s ∉ a.states) : a.arcs s = ∅ :=
  Table.arcs_eq_empty_of_not_mem fun hMem => hs (h.source_mem s hMem)

theorem source_mem_of_mem_arcs (h : a.RefersToStates) (hm : m ∈ a.arcs s) : s ∈ a.states := by
  by_contra hs
  rw [h.arcs_eq_empty hs] at hm
  exact ExtTreeMap.not_mem_empty hm

theorem source_mem_of_mem_targets (h : a.RefersToStates) (hy : y ∈ a.targets s m) :
    s ∈ a.states :=
  h.source_mem_of_mem_arcs (Table.mem_arcs_of_mem_targets hy)

theorem mem_states_of_mem_reach (h : a.RefersToStates) (hx : x ∈ a.reach w) : x ∈ a.states := by
  rcases ExtTreeSet.mem_union_iff.mp (mem_initial_union_targetSet_of_mem_reach hx) with hx | hx
  · exact h.initial_mem x hx
  · obtain ⟨s, m, hx⟩ := Table.mem_targetSet.mp hx
    exact h.target_mem s m x hx

theorem mem_states_of_reflTransGen (h : a.RefersToStates) (hx : x ∈ a.states)
    (hxy : ReflTransGen a.table.Silent x y) : y ∈ a.states := by
  rcases hxy.cases_tail with rfl | ⟨z, -, hzy⟩
  · exact hx
  · exact h.target_mem z _ y hzy

/-- An automaton that refers to states only is well formed exactly when its labels assign the
alphabet. -/
theorem wellFormed_iff (h : a.RefersToStates) :
    a.WellFormed ↔ ∀ s l, Move.label l ∈ a.arcs s → l.hasDomain a.alphabet = true :=
  ⟨fun hWF => hWF.label_domain, fun hLabels => ⟨h.initial_mem, h.final_mem, h.current_mem,
    fun _ _ hm => h.source_mem_of_mem_arcs hm, hLabels, h.target_mem⟩⟩

end RefersToStates

section Rename

/-- Filing renamed arcs source by source: a name no source is renamed to keeps what it had. -/
theorem arcs_foldl_rename_of_forall_ne (l : List (State × Arcs)) (init : Table)
    (hl : ∀ e ∈ l, f e.1 ≠ k) :
    Table.arcs (l.foldl (fun t e => t.insert (f e.1) (e.2.map fun _ ts => ts.image f)) init) k =
      Table.arcs init k := by
  induction l generalizing init with
  | nil => rfl
  | cons e l ih =>
    rw [List.foldl_cons, ih _ fun e' he' => hl e' (List.mem_cons_of_mem e he'), Table.arcs_insert,
      if_neg (hl e List.mem_cons_self)]

/-- Filing renamed arcs source by source: the one source renamed to a name files its arcs there. -/
theorem arcs_foldl_rename_of_mem (l : List (State × Arcs)) (init : Table) {e : State × Arcs}
    (he : e ∈ l) (hOnly : ∀ e' ∈ l, f e'.1 = f e.1 → e' = e) :
    Table.arcs (l.foldl (fun t e => t.insert (f e.1) (e.2.map fun _ ts => ts.image f)) init)
      (f e.1) = e.2.map fun _ ts => ts.image f := by
  induction l generalizing init with
  | nil => exact absurd he List.not_mem_nil
  | cons e' l ih =>
    rw [List.foldl_cons]
    by_cases hLater : e ∈ l
    · exact ih _ hLater fun e'' he'' => hOnly e'' (List.mem_cons_of_mem e' he'')
    · -- The source comes first; every later source is renamed elsewhere.
      obtain rfl : e = e' := (List.mem_cons.mp he).resolve_right hLater
      have hElsewhere : ∀ e'' ∈ l, f e''.1 ≠ f e.1 := fun e'' he'' hEq =>
        hLater (hOnly e'' (List.mem_cons_of_mem e he'') hEq ▸ he'')
      rw [arcs_foldl_rename_of_forall_ne l _ hElsewhere, Table.arcs_insert, if_pos rfl]

/-- A renaming injective on the states files each state's arcs, renamed, under its new name. -/
theorem arcs_renumberBy_apply (h : a.RefersToStates) (hf : Set.InjOn f {x | x ∈ a.states})
    (hs : s ∈ a.states) : (a.renumberBy f).arcs (f s) = (a.arcs s).map fun _ ts => ts.image f := by
  change Table.arcs (a.table.toList.foldl _ ∅) (f s) = _
  -- Any source renamed to the same name is the state itself.
  have hSame : ∀ e ∈ a.table.toList, f e.1 = f s → e.1 = s := fun e he hEq =>
    hf (h.source_mem _ (Table.fst_mem_of_mem_toList he)) hs hEq
  by_cases hSource : s ∈ a.table
  · refine arcs_foldl_rename_of_mem _ ∅ (Table.mem_toList_of_mem hSource) fun ⟨s', arcs⟩ he hEq => ?_
    obtain rfl : s' = s := hSame _ he hEq
    rw [Table.arcs_of_mem_toList he]
  · rw [arcs_foldl_rename_of_forall_ne _ ∅ fun e he hEq =>
      hSource (hSame e he hEq ▸ Table.fst_mem_of_mem_toList he), Table.arcs_empty]
    change ∅ = (a.table.arcs s).map _
    rw [Table.arcs_eq_empty_of_not_mem hSource]
    rfl

/-- Under any renaming, a name no state is renamed to has no arcs. -/
theorem arcs_renumberBy_of_forall_ne (h : a.RefersToStates) (hk : ∀ s ∈ a.states, f s ≠ k) :
    (a.renumberBy f).arcs k = ∅ := by
  change Table.arcs (a.table.toList.foldl _ ∅) k = ∅
  rw [arcs_foldl_rename_of_forall_ne _ ∅ fun e he =>
    hk e.1 (h.source_mem _ (Table.fst_mem_of_mem_toList he))]
  exact Table.arcs_empty

theorem targets_renumberBy_apply (h : a.RefersToStates) (hf : Set.InjOn f {x | x ∈ a.states})
    (hs : s ∈ a.states) : (a.renumberBy f).targets (f s) m = (a.targets s m).image f := by
  apply ExtTreeSet.ext_mem
  intro y
  change y ∈ ((a.renumberBy f).arcs (f s)).targets m ↔ _
  rw [arcs_renumberBy_apply h hf hs, Arcs.mem_targets_map_image, StateSet.mem_image]
  rfl

/-- Silent arcs of the renamed automaton from a renamed state are the renamed silent arcs. -/
theorem reflTransGen_silent_renumberBy (h : a.RefersToStates)
    (hf : Set.InjOn f {x | x ∈ a.states}) (hx : x ∈ a.states) :
    ReflTransGen (a.renumberBy f).table.Silent (f x) y ↔
      ∃ z, ReflTransGen a.table.Silent x z ∧ f z = y := by
  constructor
  · intro hxy
    induction hxy with
    | refl => exact ⟨x, .refl, rfl⟩
    | tail _ hStep ih =>
      obtain ⟨z, hxz, rfl⟩ := ih
      -- The arc leaves the new name of a state, so it renames a silent arc of that state.
      change _ ∈ (a.renumberBy f).targets (f z) .epsilon at hStep
      rw [targets_renumberBy_apply h hf (h.mem_states_of_reflTransGen hx hxz),
        StateSet.mem_image] at hStep
      obtain ⟨u, hu, rfl⟩ := hStep
      exact ⟨u, hxz.tail hu, rfl⟩
  · rintro ⟨z, hxz, rfl⟩
    refine hxz.lift f fun p q hpq => ?_
    change f q ∈ (a.renumberBy f).targets (f p) .epsilon
    rw [targets_renumberBy_apply h hf (h.source_mem_of_mem_targets hpq), StateSet.mem_image]
    exact ⟨q, hpq, rfl⟩

theorem closure_renumberBy (h : a.RefersToStates) (hf : Set.InjOn f {x | x ∈ a.states})
    {S : StateSet} (hS : ∀ x ∈ S, x ∈ a.states) :
    (a.renumberBy f).table.closure (S.image f) = (a.table.closure S).image f := by
  apply ExtTreeSet.ext_mem
  intro y
  simp only [Table.mem_closure_iff, StateSet.mem_image]
  constructor
  · rintro ⟨_, ⟨x, hx, rfl⟩, hxy⟩
    obtain ⟨z, hxz, rfl⟩ := (reflTransGen_silent_renumberBy h hf (hS x hx)).mp hxy
    exact ⟨z, ⟨x, hx, hxz⟩, rfl⟩
  · rintro ⟨z, ⟨x, hx, hxz⟩, rfl⟩
    exact ⟨f x, ⟨x, hx, rfl⟩, (reflTransGen_silent_renumberBy h hf (hS x hx)).mpr ⟨z, hxz, rfl⟩⟩

theorem image_renumberBy (h : a.RefersToStates) (hf : Set.InjOn f {x | x ∈ a.states})
    {S : StateSet} (hS : ∀ x ∈ S, x ∈ a.states) :
    (a.renumberBy f).table.image m (S.image f) = (a.table.image m S).image f := by
  apply ExtTreeSet.ext_mem
  intro y
  simp only [Table.mem_image, StateSet.mem_image]
  constructor
  · rintro ⟨_, ⟨x, hx, rfl⟩, hy⟩
    change y ∈ (a.renumberBy f).targets (f x) m at hy
    rw [targets_renumberBy_apply h hf (hS x hx), StateSet.mem_image] at hy
    obtain ⟨z, hz, rfl⟩ := hy
    exact ⟨z, ⟨x, hx, hz⟩, rfl⟩
  · rintro ⟨z, ⟨x, hx, hz⟩, rfl⟩
    refine ⟨f x, ⟨x, hx, rfl⟩, ?_⟩
    change f z ∈ (a.renumberBy f).targets (f x) m
    rw [targets_renumberBy_apply h hf (hS x hx), StateSet.mem_image]
    exact ⟨z, hz, rfl⟩

/-- Runs of the renamed automaton reach the renamed states of the old runs. -/
theorem reach_renumberBy (h : a.RefersToStates) (hf : Set.InjOn f {x | x ∈ a.states})
    (w : List Label) : (a.renumberBy f).reach w = (a.reach w).image f := by
  induction w using List.reverseRecOn with
  | nil => exact closure_renumberBy h hf h.initial_mem
  | append_singleton w l ih =>
    have hTargets : ∀ x ∈ a.table.image (.label l) (a.reach w), x ∈ a.states := by
      intro x hx
      obtain ⟨z, -, hx⟩ := Table.mem_image.mp hx
      exact h.target_mem z _ x hx
    rw [reach_append_singleton, reach_append_singleton, Table.read, Table.read, ih,
      image_renumberBy h hf fun _ hx => h.mem_states_of_mem_reach hx,
      closure_renumberBy h hf hTargets]

theorem numTransitions_renumberBy (h : a.RefersToStates) (hf : Set.InjOn f {x | x ∈ a.states}) :
    (a.renumberBy f).numTransitions = a.numTransitions := by
  have hOld : a.numTransitions = ∑ s ∈ a.states.toFinset, (a.arcs s).count :=
    Table.count_eq_sum_of_forall_not_mem _ fun s hs =>
      h.arcs_eq_empty fun hMem => hs (StateSet.mem_toFinset.mpr hMem)
  have hNew : (a.renumberBy f).numTransitions =
      ∑ k ∈ a.states.toFinset.image f, ((a.renumberBy f).arcs k).count := by
    refine Table.count_eq_sum_of_forall_not_mem _ fun k hk =>
      arcs_renumberBy_of_forall_ne h fun s hs hsk => hk ?_
    exact Finset.mem_image.mpr ⟨s, StateSet.mem_toFinset.mpr hs, hsk⟩
  rw [hNew, hOld, Finset.sum_image fun x hx x' hx' hEq =>
    hf (StateSet.mem_toFinset.mp hx) (StateSet.mem_toFinset.mp hx') hEq]
  -- Source by source, the renamed arcs have as many pairs as the old ones.
  refine Finset.sum_congr rfl fun s hs => ?_
  rw [arcs_renumberBy_apply h hf (StateSet.mem_toFinset.mp hs)]
  exact Arcs.count_map_image fun m x hx x' hx' hEq =>
    hf (h.target_mem s m x hx) (h.target_mem s m x' hx') hEq

theorem wellFormed_renumberBy_iff (h : a.RefersToStates) (hf : Set.InjOn f {x | x ∈ a.states}) :
    (a.renumberBy f).WellFormed ↔ a.WellFormed := by
  refine ⟨fun hWF => h.wellFormed_iff.mpr fun s l hl => ?_, fun hWF => wellFormed_renumberBy hWF f⟩
  -- The label is read from the new name of its source, and the alphabet is the same.
  have hl' : Move.label l ∈ (a.renumberBy f).arcs (f s) := by
    rw [arcs_renumberBy_apply h hf (h.source_mem_of_mem_arcs hl), ExtTreeMap.mem_map]
    exact hl
  exact hWF.label_domain (f s) l hl'

theorem accepts_renumberBy (h : a.RefersToStates) (hf : Set.InjOn f {x | x ∈ a.states}) :
    (a.renumberBy f).accepts = a.accepts :=
  StateSet.meets_image hf h.current_mem h.final_mem

theorem accepts_run_renumberBy (h : a.RefersToStates) (hf : Set.InjOn f {x | x ∈ a.states})
    (w : List Label) : ((a.renumberBy f).run w).accepts = (a.run w).accepts := by
  change ((a.renumberBy f).reach w).meets (a.final.image f) = (a.reach w).meets a.final
  rw [reach_renumberBy h hf]
  exact StateSet.meets_image hf (fun _ hx => h.mem_states_of_mem_reach hx) h.final_mem

/-- Renamings that agree on the states rename an automaton that refers to states only alike. -/
theorem renumberBy_congr (h : a.RefersToStates) (hfg : ∀ x ∈ a.states, f x = g x) :
    a.renumberBy f = a.renumberBy g := by
  have hImage : ∀ S : StateSet, (∀ x ∈ S, x ∈ a.states) → S.image f = S.image g :=
    fun S hS => StateSet.image_congr fun x hx => hfg x (hS x hx)
  have hTable : a.table.toList.foldl (fun (t : Table) e =>
        t.insert (f e.1) (e.2.map fun _ ts => ts.image f)) ∅ =
      a.table.toList.foldl (fun (t : Table) e =>
        t.insert (g e.1) (e.2.map fun _ ts => ts.image g)) ∅ := by
    refine List.foldl_ext _ _ _ fun t e he => ?_
    have hSource : e.1 ∈ a.states := h.source_mem _ (Table.fst_mem_of_mem_toList he)
    have hArcs : a.table.arcs e.1 = e.2 := Table.arcs_of_mem_toList he
    rw [hfg e.1 hSource, ← hArcs,
      Arcs.map_image_congr fun m x hx => hfg x (h.target_mem e.1 m x hx)]
  unfold renumberBy renumberIn
  dsimp only [MapOrder.byKey]
  rw [hImage a.states fun _ hx => hx, hImage _ h.initial_mem, hImage _ h.final_mem,
    hImage _ h.current_mem, hTable]

/-- A renaming injective on the states of an automaton that refers to states only sends no two
sources to one name, so the order the sources are visited in does not matter. -/
theorem renumberIn_eq_renumberBy (h : a.RefersToStates) (hf : Set.InjOn f {x | x ∈ a.states})
    (o : MapOrder) : a.renumberIn o f = a.renumberBy f := by
  -- Filing the renamed sources one after another is writing the renamed entries.
  have hWrites : ∀ l : List (State × Arcs),
      l.foldl (fun t e => t.insert (f e.1) (e.2.map fun _ ts => ts.image f)) ∅ =
        (∅ : Table).insertMany (l.map fun e => (f e.1, e.2.map fun _ ts => ts.image f)) :=
    fun l => by rw [ExtTreeMap.insertMany_list_eq_foldl, List.foldl_map]
  have hTable : (o.sourcesOf a.table).foldl
        (fun (t : Table) e => t.insert (f e.1) (e.2.map fun _ ts => ts.image f)) ∅ =
      a.table.toList.foldl (fun (t : Table) e => t.insert (f e.1) (e.2.map fun _ ts => ts.image f))
        ∅ := by
    rw [hWrites, hWrites]
    refine treeMap_insertMany_perm ((o.sourcesOf_perm _).map _) fun p hp q hq hpq => ?_
    obtain ⟨e, he, rfl⟩ := List.mem_map.mp hp
    obtain ⟨e', he', rfl⟩ := List.mem_map.mp hq
    -- Two sources renamed alike are one state, and the table files one entry per source.
    have hMem := (o.sourcesOf_perm _).mem_iff.mp he
    have hMem' := (o.sourcesOf_perm _).mem_iff.mp he'
    have hSame : e.1 = e'.1 := hf (h.source_mem _ (Table.fst_mem_of_mem_toList hMem))
      (h.source_mem _ (Table.fst_mem_of_mem_toList hMem')) hpq
    change e.2.map _ = e'.2.map _
    rw [← Table.arcs_of_mem_toList hMem, ← Table.arcs_of_mem_toList hMem', hSame]
  unfold renumberBy renumberIn
  dsimp only [MapOrder.byKey]
  rw [hTable]

end Rename

section Restate

/-- On the states, the numbering `restate` looks up is the position in ascending order. -/
theorem ranks_getD (hs : s ∈ a.states) : a.ranks.getD s 0 = a.states.position s := by
  have hMem : s ∈ a.states.toList := ExtTreeSet.mem_toList.mpr hs
  refine ExtTreeMap.getD_ofList_of_mem (k := s) Std.ReflCmp.compare_self ?_ ?_
  · -- The numbered states are distinct.
    have hDistinct : (a.states.toList.zipIdx.map Prod.fst).Pairwise
        fun x x' => ¬ compare x x' = .eq := by
      rw [List.zipIdx_map_fst]
      exact ExtTreeSet.distinct_toList
    rw [List.pairwise_map] at hDistinct ⊢
    exact hDistinct
  · exact List.mem_map.mpr ⟨(s, a.states.toList.idxOf s),
      List.mem_zipIdx_iff_getElem?.mpr (List.getElem?_idxOf hMem), rfl⟩

/-- Every source of an automaton that refers to states only is a state, so renumbering does not
depend on the order the sources are visited in. -/
theorem restateIn_eq_restate (h : a.RefersToStates) (o : MapOrder) : a.restateIn o = a.restate := by
  have hf : Set.InjOn (fun s => a.ranks.getD s 0) {x | x ∈ a.states} := fun x hx y hy hxy =>
    StateSet.position_injOn hx hy (by rw [← ranks_getD hx, ← ranks_getD hy]; exact hxy)
  exact renumberIn_eq_renumberBy h hf o

/-- For an automaton that refers to states only, `restate` renames each state to its position. -/
theorem restate_eq_renumberBy_position (h : a.RefersToStates) :
    a.restate = a.renumberBy a.states.position :=
  renumberBy_congr h fun _ hx => ranks_getD hx

/-- When every state an automaton refers to is a state, renumbering numbers the states `0` to
`n - 1` in ascending order and renames every marked set, every source and every target by that
numbering: each state's arcs, with the same moves and renamed targets, are filed under its number,
and no other number has arcs. The number of triples, validity, acceptance and the answer of every
run are the same as before. -/
theorem restate_renames_states_in_order (h : a.RefersToStates) :
    a.restate.states = ExtTreeSet.ofList ((List.range a.states.size).map Int64.ofNat) ∧
      a.restate.initial = a.initial.image a.states.position ∧
      a.restate.final = a.final.image a.states.position ∧
      a.restate.current = a.current.image a.states.position ∧
      (∀ s ∈ a.states, a.restate.arcs (a.states.position s) =
        (a.arcs s).map fun _ ts => ts.image a.states.position) ∧
      (∀ k, (∀ s ∈ a.states, a.states.position s ≠ k) → a.restate.arcs k = ∅) ∧
      a.restate.numTransitions = a.numTransitions ∧
      (a.restate.validate = none ↔ a.validate = none) ∧
      a.restate.accepts = a.accepts ∧
      ∀ w, (a.restate.run w).accepts = (a.run w).accepts := by
  have hf : Set.InjOn a.states.position {x | x ∈ a.states} := StateSet.position_injOn
  rw [restate_eq_renumberBy_position h, validate_eq_none_iff, validate_eq_none_iff]
  exact ⟨StateSet.image_position, rfl, rfl, rfl, fun _ hs => arcs_renumberBy_apply h hf hs,
    fun _ hk => arcs_renumberBy_of_forall_ne h hk, numTransitions_renumberBy h hf,
    wellFormed_renumberBy_iff h hf, accepts_renumberBy h hf, accepts_run_renumberBy h hf⟩

/-- The theorem at a valid automaton whose states are spread out, the least of them negative,
with a silent arc between two of them. -/
theorem restate_renames_states_in_order_from_negative_state :
    let a := (((((Automaton.empty {}).addState (-7)).addState 3).addState 12).addTransition (-7)
      ((∅ : Label).insert 0 true) 12).addEpsilon 12 3 |>.markInitial (-7) |>.markFinal 3
    a.RefersToStates ∧
      a.restate.states = ExtTreeSet.ofList ((List.range a.states.size).map Int64.ofNat) ∧
      a.restate.initial = a.initial.image a.states.position ∧
      a.restate.final = a.final.image a.states.position ∧
      a.restate.current = a.current.image a.states.position ∧
      (∀ s ∈ a.states, a.restate.arcs (a.states.position s) =
        (a.arcs s).map fun _ ts => ts.image a.states.position) ∧
      (∀ k, (∀ s ∈ a.states, a.states.position s ≠ k) → a.restate.arcs k = ∅) ∧
      a.restate.numTransitions = a.numTransitions ∧
      (a.restate.validate = none ↔ a.validate = none) ∧
      a.restate.accepts = a.accepts ∧
      ∀ w, (a.restate.run w).accepts = (a.run w).accepts := by
  intro a
  -- Checked as a boolean: over `Int64` a bounded quantifier would be decided over the whole type.
  have hSources : a.table.keys.all a.states.contains = true := by decide
  have hRefers : a.RefersToStates :=
    (validate_eq_none_iff.mp (by decide)).refersToStates fun _ hs =>
      ExtTreeSet.mem_iff_contains.mpr (List.all_eq_true.mp hSources _ (ExtTreeMap.mem_keys.mpr hs))
  exact ⟨hRefers, restate_renames_states_in_order hRefers⟩

end Restate

end Automaton

end BitAutomata
