import BitAutomata.Proofs.Filled

/-!
# Validation reports the first violation

Validation looks at the sites of an automaton in a fixed order (`Site.Before`): the initial, final
and current states, each set ascending; then the table by ascending source, at each source the
source itself, then its arcs by key, the label of an arc before its targets, targets ascending.
`Automaton.FailsAt` says which sites fail and with what violation, by what is wrong there alone:
a marked state that is not a state, a source with arcs that is not a state, a label whose
variables are not those of the alphabet, a target that is not a state.

Validation finds nothing exactly when every marked state, source with arcs and target is a state
and every label assigns exactly the alphabet; otherwise it reports the violation of the failing
site that no other failing site precedes (`validate_reports_first_violation`). The proof lists
every site in the order validation visits them (`Automaton.sites`), shows that validation is the
first hit of a search along that list (`validate_eq_findSome?`) and that the list ascends in the
order of sites (`pairwise_before_sites`).
-/

namespace BitAutomata

open Std

/-- The position of a marked set in the order of validation. -/
def Mark.rank : Mark → Nat
  | .initial => 0
  | .final => 1
  | .current => 2

/-- A place of an automaton that validation looks at. -/
inductive Site where
  /-- A state of a marked set. -/
  | mark (m : Mark) (s : State)
  /-- A source with arcs. -/
  | source (s : State)
  /-- The label read by an arc from a source. -/
  | label (s : State) (l : Label)
  /-- A target of the arc of a move from a source. -/
  | target (s : State) (m : Move) (t : State)

namespace Site

/-- Whether validation looks at site `x` before site `y`: marked states first, the initial, final
and current ones in turn, each ascending; then the table by ascending source, at each source the
source itself, then its arcs by key, the label of an arc before its targets, targets ascending. -/
def Before : Site → Site → Prop
  | mark m s, mark m' s' => m.rank < m'.rank ∨ m = m' ∧ s < s'
  | mark _ _, _ => True
  | _, mark _ _ => False
  | source s, source s' => s < s'
  | source s, label s' _ => s < s' ∨ s = s'
  | source s, target s' _ _ => s < s' ∨ s = s'
  | label s _, source s' => s < s'
  | label s l, label s' l' => s < s' ∨ s = s' ∧ l.key < l'.key
  | label s l, target s' m' _ => s < s' ∨ s = s' ∧ l.key ≤ m'.key
  | target s _ _, source s' => s < s'
  | target s m _, label s' l' => s < s' ∨ s = s' ∧ m.key < l'.key
  | target s m t, target s' m' t' => s < s' ∨ s = s' ∧ (m.key < m'.key ∨ m.key = m'.key ∧ t < t')

/-- No site comes both before and after another. -/
theorem before_asymm {x y : Site} (h : x.Before y) : ¬ y.Before x := by
  cases x <;> cases y <;> simp only [Before] at h ⊢
  all_goals grind [String.lt_asymm, String.lt_irrefl, String.not_lt, Int64.lt_asymm, Int64.lt_irrefl]

end Site

/-- The first hit of a search along a list that ascends in an asymmetric order is a hit that no
other hit precedes. -/
theorem findSome?_eq_some_iff_first {α β : Type} {R : α → α → Prop} {f : α → Option β}
    {l : List α} {b : β} (hl : l.Pairwise R) (hAsymm : ∀ x y, R x y → ¬ R y x) :
    l.findSome? f = some b ↔ ∃ x ∈ l, f x = some b ∧ ∀ y ∈ l, R y x → f y = none := by
  constructor
  · intro h
    obtain ⟨l₁, x, l₂, rfl, hx, hBefore⟩ := List.findSome?_eq_some_iff.mp h
    refine ⟨x, by simp, hx, fun y hy hyx => ?_⟩
    -- A member after `x` comes after it in the order, so not also before it.
    have hSplit := List.pairwise_append.mp hl
    rcases List.mem_append.mp hy with hy | hy
    · exact hBefore y hy
    · rcases List.mem_cons.mp hy with rfl | hy
      · exact absurd hyx (hAsymm y y hyx)
      · exact absurd hyx (hAsymm x y (List.rel_of_pairwise_cons hSplit.2.1 hy))
  · rintro ⟨x, hx, hHit, hFirst⟩
    obtain ⟨l₁, l₂, rfl⟩ := List.append_of_mem hx
    have hEarlier : ∀ y ∈ l₁, f y = none := fun y hy =>
      hFirst y (by simp [hy]) ((List.pairwise_append.mp hl).2.2 y hy x List.mem_cons_self)
    rw [List.findSome?_append, List.findSome?_eq_none_iff.mpr hEarlier, List.findSome?_cons, hHit]
    rfl

theorem findSome?_flatMap {α β γ : Type} (l : List α) (f : α → List β) (g : β → Option γ) :
    (l.flatMap f).findSome? g = l.findSome? fun x => (f x).findSome? g := by
  induction l with
  | nil => rfl
  | cons x xs ih =>
    rw [List.flatMap_cons, List.findSome?_append, ih, List.findSome?_cons]
    cases (f x).findSome? g <;> rfl

namespace Automaton

variable {a : Automaton}

/-- The states of a marked set. -/
def marked (a : Automaton) : Mark → StateSet
  | .initial => a.initial
  | .final => a.final
  | .current => a.current

/-- Site `x` of the automaton fails with violation `v`: what is wrong at the site, whatever else
is wrong elsewhere. -/
inductive FailsAt (a : Automaton) : Site → Violation → Prop
  | mark {m : Mark} {s : State} : s ∈ a.marked m → s ∉ a.states →
      FailsAt a (.mark m s) (.strayMark m s)
  | source {s : State} {m : Move} : m ∈ a.arcs s → s ∉ a.states →
      FailsAt a (.source s) (.straySource s)
  | label {s : State} {l : Label} : Move.label l ∈ a.arcs s → ¬ (∀ v, v ∈ l ↔ v ∈ a.alphabet) →
      FailsAt a (.label s l) (.labelMismatch l s a.alphabet)
  | target {s t : State} {m : Move} : t ∈ a.targets s m → t ∉ a.states →
      FailsAt a (.target s m t) (.strayTarget t s)

section Sites

/-! Every site in the order validation visits them, and what it finds at each. -/

/-- The sites of one arc: its label, if it reads one, then its targets in ascending order. -/
def arcSites (s : State) (m : Move) (ts : StateSet) : List Site :=
  (match m.label? with
    | none => []
    | some l => [.label s l]) ++ ts.toList.map (.target s m)

/-- The sites of one source: none without arcs; else the source, then its arcs in key order. -/
def sourceSites (s : State) (arcs : Arcs) : List Site :=
  if arcs.isEmpty then [] else .source s :: arcs.toList.flatMap fun e => arcSites s e.1 e.2

/-- The sites of the marked states, the initial, final and current ones in turn. -/
def markSites (a : Automaton) : List Site :=
  [Mark.initial, .final, .current].flatMap fun m => (a.marked m).toList.map (.mark m)

/-- Every site of an automaton, in the order validation visits them. -/
def sites (a : Automaton) : List Site :=
  a.markSites ++ a.table.toList.flatMap fun e => sourceSites e.1 e.2

/-- What validation finds at a site when it looks there. -/
def violationAt (a : Automaton) : Site → Option Violation
  | .mark m s => if a.contains s then none else some (.strayMark m s)
  | .source s => if a.contains s then none else some (.straySource s)
  | .label s l => if l.hasDomain a.alphabet then none else some (.labelMismatch l s a.alphabet)
  | .target s _ t => if a.contains t then none else some (.strayTarget t s)

/-- Looking for the first member of a set outside the states is a search along the sites of its
members. -/
theorem map_firstStray {set : StateSet} {site : State → Site} {g : State → Violation}
    (hSite : ∀ s, a.violationAt (site s) = if a.contains s then none else some (g s)) :
    (a.firstStray set).map g = (set.toList.map site).findSome? a.violationAt := by
  unfold firstStray
  induction set.toList with
  | nil => rfl
  | cons x xs ih =>
    by_cases hx : a.contains x = true <;> simp [hx, hSite, ih]

theorem markViolation_eq_findSome? : a.markViolation = a.markSites.findSome? a.violationAt := by
  have hMark : ∀ m, (a.firstStray (a.marked m)).map (Violation.strayMark m) =
      ((a.marked m).toList.map (.mark m)).findSome? a.violationAt :=
    fun _ => map_firstStray fun _ => rfl
  rw [markSites, findSome?_flatMap]
  simp only [← hMark]
  rfl

theorem arcViolation_eq_findSome? {s : State} {m : Move} {ts : StateSet} :
    a.arcViolation s m ts = (arcSites s m ts).findSome? a.violationAt := by
  have hTargets : (a.firstStray ts).map (fun t => Violation.strayTarget t s) =
      (ts.toList.map (.target s m)).findSome? a.violationAt := map_firstStray fun _ => rfl
  unfold arcViolation arcSites
  cases m.label? with
  | none => simpa using hTargets
  | some l =>
    by_cases hl : l.hasDomain a.alphabet = true <;> simp [hl, violationAt, hTargets]

theorem sourceViolation_eq_findSome? {s : State} {arcs : Arcs} :
    a.sourceViolation s arcs = (sourceSites s arcs).findSome? a.violationAt := by
  unfold sourceViolation sourceSites
  by_cases hEmpty : arcs.isEmpty = true
  · simp [hEmpty]
  · by_cases hs : a.contains s = true
    · simp [hEmpty, hs, violationAt, findSome?_flatMap, arcViolation_eq_findSome?]
    · simp [hEmpty, hs, violationAt]

/-- Validation is the first hit of a search along all sites. -/
theorem validate_eq_findSome? : a.validate = a.sites.findSome? a.violationAt := by
  rw [validate, sites, List.findSome?_append, findSome?_flatMap, markViolation_eq_findSome?]
  simp only [sourceViolation_eq_findSome?, Option.orElse_eq_orElse, Option.orElse_eq_or]

end Sites

section Order

/-! The list of sites ascends in the order of sites. -/

variable {s s' : State} {m m' : Move} {ts ts' : StateSet} {arcs arcs' : Arcs} {x y : Site}

theorem toList_ascending (set : StateSet) : set.toList.Pairwise (· < ·) :=
  ExtTreeSet.ordered_toList.imp compare_eq_lt.mp

theorem Arcs.toList_ascending (arcs : Arcs) :
    arcs.toList.Pairwise fun e e' => e.1.key < e'.1.key := by
  have hKeys := ExtTreeMap.ordered_keys (t := arcs)
  rw [← ExtTreeMap.map_fst_toList_eq_keys, List.pairwise_map] at hKeys
  -- Moves compare by their keys, and keys as strings.
  refine hKeys.imp fun hLt => ?_
  change compareOfLessAndEq _ _ = .lt at hLt
  exact compareOfLessAndEq_eq_lt.mp hLt

theorem Table.toList_ascending (t : Table) : t.toList.Pairwise fun e e' => e.1 < e'.1 := by
  have hKeys := ExtTreeMap.ordered_keys (t := t)
  rw [← ExtTreeMap.map_fst_toList_eq_keys, List.pairwise_map] at hKeys
  exact hKeys.imp compare_eq_lt.mp

theorem mem_arcSites : x ∈ arcSites s m ts ↔
    (∃ l, m.label? = some l ∧ x = .label s l) ∨ ∃ t ∈ ts, x = .target s m t := by
  unfold arcSites
  cases m.label? <;> simp [ExtTreeSet.mem_toList, eq_comm]

theorem mem_sourceSites : x ∈ sourceSites s arcs ↔
    arcs ≠ ∅ ∧ (x = .source s ∨ ∃ e ∈ arcs.toList, x ∈ arcSites s e.1 e.2) := by
  unfold sourceSites
  by_cases hEmpty : arcs = ∅
  · simp [hEmpty]
  · have hNotEmpty : arcs.isEmpty = false :=
      Bool.eq_false_iff.mpr fun h => hEmpty (ExtTreeMap.isEmpty_iff.mp h)
    simp [hNotEmpty, hEmpty]

/-- The sites of a source are the source itself, its labels and its targets. -/
theorem eq_of_mem_sourceSites (hx : x ∈ sourceSites s arcs) :
    x = .source s ∨ (∃ l, x = .label s l) ∨ ∃ m t, x = .target s m t := by
  obtain ⟨-, rfl | ⟨e, -, hx⟩⟩ := mem_sourceSites.mp hx
  · exact Or.inl rfl
  · rcases mem_arcSites.mp hx with ⟨l, -, rfl⟩ | ⟨t, -, rfl⟩
    · exact Or.inr (Or.inl ⟨l, rfl⟩)
    · exact Or.inr (Or.inr ⟨e.1, t, rfl⟩)

theorem mem_markSites : x ∈ a.markSites ↔ ∃ m s, s ∈ a.marked m ∧ x = .mark m s := by
  simp only [markSites, List.mem_flatMap, List.mem_map, ExtTreeSet.mem_toList]
  constructor
  · rintro ⟨m, -, s, hs, rfl⟩
    exact ⟨m, s, hs, rfl⟩
  · rintro ⟨m, s, hs, rfl⟩
    exact ⟨m, by cases m <;> simp, s, hs, rfl⟩

theorem pairwise_before_arcSites : (arcSites s m ts).Pairwise Site.Before := by
  have hTargets : (ts.toList.map (Site.target s m)).Pairwise Site.Before := by
    rw [List.pairwise_map]
    exact (toList_ascending ts).imp fun h => by simp [Site.Before, h]
  unfold arcSites
  cases hm : m.label? with
  | none => simpa using hTargets
  | some l =>
    -- The label is filed under the arc's own key, so it comes before the arc's targets.
    have hKey : m.key = l.key := Move.key_eq_of_label?_eq_some hm
    refine List.pairwise_append.mpr ⟨List.pairwise_singleton _ _, hTargets, ?_⟩
    intro x hx y hy
    obtain ⟨t, -, rfl⟩ := List.mem_map.mp hy
    rw [List.mem_singleton.mp hx]
    simp [Site.Before, hKey]

/-- Every site of an arc comes before every site of an arc with a later key from the same
source. -/
theorem before_of_mem_arcSites (h : m.key < m'.key) (hx : x ∈ arcSites s m ts)
    (hy : y ∈ arcSites s m' ts') : x.Before y := by
  rcases mem_arcSites.mp hx with ⟨l, hl, rfl⟩ | ⟨t, -, rfl⟩ <;>
    rcases mem_arcSites.mp hy with ⟨l', hl', rfl⟩ | ⟨t', -, rfl⟩
  · simp [Site.Before, ← Move.key_eq_of_label?_eq_some hl, ← Move.key_eq_of_label?_eq_some hl', h]
  · have hLe : m.key ≤ m'.key := String.not_lt.mp (String.lt_asymm h)
    simp [Site.Before, ← Move.key_eq_of_label?_eq_some hl, hLe]
  · simp [Site.Before, ← Move.key_eq_of_label?_eq_some hl', h]
  · simp [Site.Before, h]

theorem pairwise_before_sourceSites : (sourceSites s arcs).Pairwise Site.Before := by
  unfold sourceSites
  split
  · exact List.Pairwise.nil
  · refine List.pairwise_cons.mpr ⟨fun y hy => ?_, ?_⟩
    -- The source comes before the sites of its arcs.
    · obtain ⟨e, -, hy⟩ := List.mem_flatMap.mp hy
      rcases mem_arcSites.mp hy with ⟨l, -, rfl⟩ | ⟨t, -, rfl⟩ <;> simp [Site.Before]
    · refine List.pairwise_flatMap.mpr ⟨fun e _ => pairwise_before_arcSites, ?_⟩
      exact (Arcs.toList_ascending arcs).imp fun h x hx y hy => before_of_mem_arcSites h hx hy

/-- Every site of a source comes before every site of a greater source. -/
theorem before_of_mem_sourceSites (h : s < s') (hx : x ∈ sourceSites s arcs)
    (hy : y ∈ sourceSites s' arcs') : x.Before y := by
  rcases eq_of_mem_sourceSites hx with rfl | ⟨l, rfl⟩ | ⟨m, t, rfl⟩ <;>
    rcases eq_of_mem_sourceSites hy with rfl | ⟨l', rfl⟩ | ⟨m', t', rfl⟩ <;>
    simp [Site.Before, h]

theorem pairwise_before_markSites : a.markSites.Pairwise Site.Before := by
  refine List.pairwise_flatMap.mpr ⟨fun m _ => ?_, ?_⟩
  · rw [List.pairwise_map]
    exact (toList_ascending _).imp fun h => by simp [Site.Before, h]
  · -- The marked sets come in the order of their ranks.
    have hRanks : [Mark.initial, .final, .current].Pairwise fun m m' => m.rank < m'.rank := by
      decide
    refine hRanks.imp fun h x hx y hy => ?_
    obtain ⟨s, -, rfl⟩ := List.mem_map.mp hx
    obtain ⟨s', -, rfl⟩ := List.mem_map.mp hy
    simp [Site.Before, h]

/-- Validation visits the sites in ascending order. -/
theorem pairwise_before_sites : a.sites.Pairwise Site.Before := by
  refine List.pairwise_append.mpr ⟨pairwise_before_markSites, ?_, ?_⟩
  · refine List.pairwise_flatMap.mpr ⟨fun e _ => pairwise_before_sourceSites, ?_⟩
    exact (Table.toList_ascending a.table).imp fun h x hx y hy => before_of_mem_sourceSites h hx hy
  · -- Marked states come before the whole table.
    intro x hx y hy
    obtain ⟨m, s, -, rfl⟩ := mem_markSites.mp hx
    obtain ⟨e, -, hy⟩ := List.mem_flatMap.mp hy
    rcases eq_of_mem_sourceSites hy with rfl | ⟨l, rfl⟩ | ⟨m', t, rfl⟩ <;> simp [Site.Before]

end Order

section Bridge

/-! A site on the list fails exactly when validation finds a violation there. -/

variable {x : Site} {v : Violation} {s t : State} {m : Move} {l : Label} {k : Mark}

theorem contains_eq_true_iff : a.contains s = true ↔ s ∈ a.states :=
  ExtTreeSet.mem_iff_contains.symm

theorem violationAt_mark : a.violationAt (.mark k s) = some v ↔ s ∉ a.states ∧ v = .strayMark k s := by
  rw [← contains_eq_true_iff]
  by_cases hs : a.contains s = true
  · simp [violationAt, hs]
  · simp [violationAt, hs, eq_comm]

theorem violationAt_source : a.violationAt (.source s) = some v ↔ s ∉ a.states ∧ v = .straySource s := by
  rw [← contains_eq_true_iff]
  by_cases hs : a.contains s = true
  · simp [violationAt, hs]
  · simp [violationAt, hs, eq_comm]

theorem violationAt_label : a.violationAt (.label s l) = some v ↔
    ¬ (∀ u, u ∈ l ↔ u ∈ a.alphabet) ∧ v = .labelMismatch l s a.alphabet := by
  rw [← Label.hasDomain_iff]
  by_cases hl : l.hasDomain a.alphabet = true <;> simp [violationAt, hl, eq_comm]

theorem violationAt_target : a.violationAt (.target s m t) = some v ↔
    t ∉ a.states ∧ v = .strayTarget t s := by
  rw [← contains_eq_true_iff]
  by_cases ht : a.contains t = true
  · simp [violationAt, ht]
  · simp [violationAt, ht, eq_comm]

theorem ne_empty_of_mem {arcs : Arcs} (hm : m ∈ arcs) : arcs ≠ ∅ := by
  rintro rfl
  exact ExtTreeMap.not_mem_empty hm

/-- A site on the list where validation finds a violation fails with that violation. -/
theorem failsAt_of_mem_sites (hx : x ∈ a.sites) (hv : a.violationAt x = some v) : a.FailsAt x v := by
  rcases List.mem_append.mp hx with hx | hx
  · obtain ⟨k, s, hs, rfl⟩ := mem_markSites.mp hx
    obtain ⟨hState, rfl⟩ := violationAt_mark.mp hv
    exact .mark hs hState
  · obtain ⟨e, he, hx⟩ := List.mem_flatMap.mp hx
    -- An entry of the table holds the arcs of its source.
    have hArcs : a.arcs e.1 = e.2 := Table.arcs_of_mem_toList he
    obtain ⟨hNonempty, rfl | ⟨e', he', hx⟩⟩ := mem_sourceSites.mp hx
    · obtain ⟨hState, rfl⟩ := violationAt_source.mp hv
      obtain ⟨m, hm⟩ : ∃ m, m ∈ e.2 := by
        by_contra hNone
        exact hNonempty (ExtTreeMap.eq_empty_iff_forall_not_mem.mpr fun m hm => hNone ⟨m, hm⟩)
      exact .source (hArcs ▸ hm) hState
    · have hMem : e'.1 ∈ a.arcs e.1 := hArcs ▸
        ExtTreeMap.mem_iff_isSome_getElem?.mpr (by rw [ExtTreeMap.mem_toList_iff_getElem?_eq_some.mp he']; rfl)
      rcases mem_arcSites.mp hx with ⟨l, hl, rfl⟩ | ⟨t, ht, rfl⟩
      · obtain ⟨hDomain, rfl⟩ := violationAt_label.mp hv
        rw [Move.eq_label_of_label?_eq_some hl] at hMem
        exact .label hMem hDomain
      · obtain ⟨hState, rfl⟩ := violationAt_target.mp hv
        have hTargets : a.targets e.1 e'.1 = e'.2 := by
          change (a.arcs e.1).targets e'.1 = e'.2
          rw [hArcs]
          exact Arcs.targets_of_mem_toList he'
        exact .target (hTargets ▸ ht) hState

/-- A failing site is on the list, and validation finds its violation there. -/
theorem mem_sites_of_failsAt (h : a.FailsAt x v) : x ∈ a.sites ∧ a.violationAt x = some v := by
  -- The sites of the table are found through the entry of their source and of their arc.
  have hTable : ∀ {s m y}, m ∈ a.arcs s → y ∈ arcSites s m (a.targets s m) ∨ y = .source s →
      y ∈ a.sites := by
    intro s m y hm hy
    refine List.mem_append_right _ (List.mem_flatMap.mpr ⟨_, Table.mem_toList_of_mem_arcs hm, ?_⟩)
    refine mem_sourceSites.mpr ⟨ne_empty_of_mem hm, ?_⟩
    rcases hy with hy | rfl
    · exact Or.inr ⟨(m, a.targets s m), ExtTreeMap.mem_toList_iff_getElem?_eq_some.mpr
        (Arcs.getElem?_eq_some_targets hm), hy⟩
    · exact Or.inl rfl
  cases h with
  | mark hs hState =>
    exact ⟨List.mem_append_left _ (mem_markSites.mpr ⟨_, _, hs, rfl⟩), violationAt_mark.mpr ⟨hState, rfl⟩⟩
  | source hm hState => exact ⟨hTable hm (Or.inr rfl), violationAt_source.mpr ⟨hState, rfl⟩⟩
  | label hm hDomain =>
    exact ⟨hTable hm (Or.inl (mem_arcSites.mpr (Or.inl ⟨_, rfl, rfl⟩))),
      violationAt_label.mpr ⟨hDomain, rfl⟩⟩
  | target ht hState =>
    exact ⟨hTable (Table.mem_arcs_of_mem_targets ht) (Or.inl (mem_arcSites.mpr (Or.inr ⟨_, ht, rfl⟩))),
      violationAt_target.mpr ⟨hState, rfl⟩⟩

theorem failsAt_iff : a.FailsAt x v ↔ x ∈ a.sites ∧ a.violationAt x = some v :=
  ⟨mem_sites_of_failsAt, fun h => failsAt_of_mem_sites h.1 h.2⟩

end Bridge

/-- Validation finds nothing exactly when every marked state, every source with an arc and every
target is a state and every label read assigns exactly the alphabet's variables. -/
theorem validate_eq_none_iff_sites_pass : a.validate = none ↔
    (∀ k, ∀ s ∈ a.marked k, s ∈ a.states) ∧ (∀ s m, m ∈ a.arcs s → s ∈ a.states) ∧
      (∀ s l, Move.label l ∈ a.arcs s → ∀ u, u ∈ l ↔ u ∈ a.alphabet) ∧
      (∀ s m t, t ∈ a.targets s m → t ∈ a.states) := by
  rw [validate_eq_none_iff]
  constructor
  · intro h
    refine ⟨fun k => ?_, h.source_mem, fun s l hl => Label.hasDomain_iff.mp (h.label_domain s l hl),
      h.target_mem⟩
    cases k
    exacts [h.initial_mem, h.final_mem, h.current_mem]
  · rintro ⟨hMarked, hSource, hLabel, hTarget⟩
    exact ⟨hMarked .initial, hMarked .final, hMarked .current, hSource,
      fun s l hl => Label.hasDomain_iff.mpr (hLabel s l hl), hTarget⟩

/-- Validation reports a violation exactly when it fails a site that no failing site precedes. -/
theorem validate_eq_some_iff_first {v : Violation} :
    a.validate = some v ↔ ∃ x, a.FailsAt x v ∧ ∀ y w, a.FailsAt y w → ¬ y.Before x := by
  rw [validate_eq_findSome?, findSome?_eq_some_iff_first pairwise_before_sites
    fun _ _ => Site.before_asymm]
  constructor
  · rintro ⟨x, hx, hv, hFirst⟩
    refine ⟨x, failsAt_of_mem_sites hx hv, fun y w hy hBefore => ?_⟩
    obtain ⟨hyMem, hw⟩ := mem_sites_of_failsAt hy
    rw [hFirst y hyMem hBefore] at hw
    cases hw
  · rintro ⟨x, hx, hFirst⟩
    obtain ⟨hxMem, hv⟩ := mem_sites_of_failsAt hx
    refine ⟨x, hxMem, hv, fun y hy hBefore => ?_⟩
    -- A site before the first failing one passes.
    cases hw : a.violationAt y with
    | none => rfl
    | some w => exact absurd hBefore (hFirst y w (failsAt_of_mem_sites hy hw))

/-- Validation finds nothing exactly when every marked state, every source with an arc and every
target is a state and every label read assigns exactly the alphabet's variables. Otherwise it
reports a violation exactly when that violation fails a site that no failing site precedes in the
order validation looks: initial, final and current states ascending, then sources ascending, at
each source its arcs by key, the label of an arc before its targets, targets ascending. -/
theorem validate_reports_first_violation (a : Automaton) :
    (a.validate = none ↔ (∀ k, ∀ s ∈ a.marked k, s ∈ a.states) ∧
      (∀ s m, m ∈ a.arcs s → s ∈ a.states) ∧
      (∀ s l, Move.label l ∈ a.arcs s → ∀ u, u ∈ l ↔ u ∈ a.alphabet) ∧
      (∀ s m t, t ∈ a.targets s m → t ∈ a.states)) ∧
    ∀ v, a.validate = some v ↔ ∃ x, a.FailsAt x v ∧ ∀ y w, a.FailsAt y w → ¬ y.Before x :=
  ⟨validate_eq_none_iff_sites_pass, fun _ => validate_eq_some_iff_first⟩

end Automaton

end BitAutomata
