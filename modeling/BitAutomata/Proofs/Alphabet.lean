import Mathlib.Algebra.BigOperators.Ring.List
import Mathlib.Algebra.Order.BigOperators.Group.List
import BitAutomata.Alphabet
import BitAutomata.Proofs.Complement

/-!
# Growing and shrinking the alphabet

Both rewrites of the arcs fold the arcs of a state into new ones: projecting files the targets
of each label under the label without the variable (`Move.forgetVar`), and extending files them
under the label with the variable set either way (`Move.assignVar`); silent arcs keep their
targets. `Arcs.mem_targets_forget` and `Arcs.mem_targets_extend` say so; the latter where no
label assigns the variable.

On a well-formed automaton every label assigns the projected variable, so a projected letter
leads where the letter with the variable set one way or the other led (`mem_targets_project`).
Runs then reach what the old runs reach on some choice of values for the variable at every
position (`mem_reach_project_iff`), and the projection accepts exactly such words
(`project_quantifies_variable`).

Extending writes the arcs that each arc splits into, one arc after another in the order the pass
visits them, each write replacing what its move held (`Arcs.splitIn`). Whatever the order, every
move written holds the targets of an arc that splits into it, so extending keeps an automaton
well formed (`wellFormed_addVarIn`). Where no two arcs split into one move, in particular where
no label assigns the variable (`Automaton.SplitsApart`), the order does not matter
(`SplitsApart.addVarIn_eq_addVar`). Extending by a variable that no label assigns splits each
labelled triple in two and keeps the silent ones (`numTransitions_addVar`); a letter is read as
the letter without the variable, and only letters that assign it are read at all
(`mem_reach_addVar_iff`, `addVar_ignores_variable`).
-/

namespace BitAutomata

open Std Relation

namespace Label

variable {l : Label} {v : Var} {x : Bool} {vs : VarSet}

theorem hasDomain_erase (h : l.hasDomain vs = true) :
    Label.hasDomain (l.erase v) (vs.erase v) = true := by
  rw [hasDomain_iff] at h ⊢
  intro u
  rw [ExtTreeMap.mem_erase, ExtTreeSet.mem_erase, h]

theorem hasDomain_insert (h : l.hasDomain vs = true) :
    Label.hasDomain (l.insert v x) (vs.insert v) = true := by
  rw [hasDomain_iff] at h ⊢
  intro u
  rw [ExtTreeMap.mem_insert, ExtTreeSet.mem_insert, h]

end Label

namespace Move

/-- The move that an arc takes once `v` is projected away: a label loses `v`. -/
def forgetVar (v : Var) (m : Move) : Move :=
  match m.label? with
  | none => m
  | some l => .label (l.erase v)

/-- The move that an arc takes once `v` is added with value `x`: a label gains `v = x`. -/
def assignVar (v : Var) (x : Bool) (m : Move) : Move :=
  match m.label? with
  | none => m
  | some l => .label (l.insert v x)

variable {v : Var} {x : Bool} {l L : Label} {m : Move}

@[simp]
theorem epsilon_ne_label (l : Label) : Move.epsilon ≠ Move.label l :=
  (label_ne_epsilon l).symm

@[simp]
theorem forgetVar_epsilon : Move.epsilon.forgetVar v = .epsilon := rfl

@[simp]
theorem forgetVar_label : (Move.label l).forgetVar v = .label (l.erase v) := rfl

@[simp]
theorem assignVar_epsilon : Move.epsilon.assignVar v x = .epsilon := rfl

@[simp]
theorem assignVar_label : (Move.label l).assignVar v x = .label (l.insert v x) := rfl

theorem forgetVar_eq_epsilon_iff : m.forgetVar v = .epsilon ↔ m = .epsilon := by
  rcases eq_epsilon_or_eq_label m with rfl | ⟨l, rfl⟩ <;> simp

theorem forgetVar_eq_label_iff : m.forgetVar v = .label L ↔ ∃ l, m = .label l ∧ l.erase v = L := by
  rcases eq_epsilon_or_eq_label m with rfl | ⟨l, rfl⟩ <;> simp

theorem assignVar_eq_epsilon_iff : m.assignVar v x = .epsilon ↔ m = .epsilon := by
  rcases eq_epsilon_or_eq_label m with rfl | ⟨l, rfl⟩ <;> simp

theorem assignVar_eq_label_iff :
    m.assignVar v x = .label L ↔ ∃ l, m = .label l ∧ l.insert v x = L := by
  rcases eq_epsilon_or_eq_label m with rfl | ⟨l, rfl⟩ <;> simp

/-- Forgetting a variable undoes assigning it to a move whose label did not assign it. -/
theorem forgetVar_assignVar (h : ∀ l, m = .label l → v ∉ l) : (m.assignVar v x).forgetVar v = m := by
  rcases eq_epsilon_or_eq_label m with rfl | ⟨l, rfl⟩
  · rfl
  · simp [Label.erase_insert_of_not_mem (h l rfl)]

/-- Two labelled moves that do not assign `v` stay apart when `v` is added to them, with equal
or different values. -/
theorem assignVar_inj {m' : Move} {x' : Bool} (hNe : m ≠ .epsilon)
    (hm : ∀ l, m = .label l → v ∉ l) (hm' : ∀ l, m' = .label l → v ∉ l)
    (h : m.assignVar v x = m'.assignVar v x') : m = m' ∧ x = x' := by
  obtain ⟨l, rfl⟩ := (eq_epsilon_or_eq_label m).resolve_left hNe
  rcases eq_epsilon_or_eq_label m' with rfl | ⟨l', rfl⟩
  · simp at h
  · obtain ⟨rfl, rfl⟩ := Label.insert_inj_of_not_mem (hm l rfl) (hm' l' rfl) (label_inj.mp h)
    exact ⟨rfl, rfl⟩

/-- Two moves whose labels do not assign `v` are told apart after `v` is added to them. -/
theorem eq_of_assignVar_eq {m' : Move} {x' : Bool} (hm : ∀ l, m = .label l → v ∉ l)
    (hm' : ∀ l, m' = .label l → v ∉ l) (h : m.assignVar v x = m'.assignVar v x') : m = m' := by
  rcases eq_epsilon_or_eq_label m with rfl | ⟨l, rfl⟩
  · exact (assignVar_eq_epsilon_iff.mp h.symm).symm
  · exact (assignVar_inj (label_ne_epsilon l) hm hm' h).1

end Move

namespace Arcs

variable {arcs acc : Arcs} {m m' : Move} {ts : StateSet} {u : State} {v : Var}

/-- Every arc has a target. -/
def Filled (arcs : Arcs) : Prop :=
  ∀ m ∈ arcs, ∃ u, u ∈ arcs.targets m

/-- A move with a target has an arc. -/
theorem mem_of_mem_targets (h : u ∈ arcs.targets m) : m ∈ arcs := by
  by_contra hm
  rw [targets, ExtTreeMap.getD_eq_fallback hm] at h
  exact ExtTreeSet.not_mem_empty h

theorem filled_empty : (∅ : Arcs).Filled :=
  fun _ hm => absurd hm ExtTreeMap.not_mem_empty

/-- Adding a set of targets never leaves an arc without one: an empty set adds no arc. -/
theorem Filled.addAll (h : arcs.Filled) : (arcs.addAll m ts).Filled := by
  intro m' hm'
  by_cases hOld : m' ∈ arcs
  · obtain ⟨u, hu⟩ := h m' hOld
    exact ⟨u, mem_targets_addAll.mpr (Or.inr hu)⟩
  · have hNew : m = m' ∧ ts.isEmpty = false := by
      unfold Arcs.addAll at hm'
      split at hm'
      · exact absurd hm' hOld
      · rename_i hEmpty
        rcases mem_of_mem_addAll (by
          unfold Arcs.addAll
          rw [if_neg hEmpty]
          exact hm') with hEq | hMem
        · exact ⟨hEq, Bool.eq_false_iff.mpr hEmpty⟩
        · exact absurd hMem hOld
    obtain ⟨rfl, hNonempty⟩ := hNew
    obtain ⟨u, hu⟩ : ∃ u, u ∈ ts := by
      by_contra hNone
      exact absurd (ExtTreeSet.isEmpty_iff.mpr
        (ExtTreeSet.eq_empty_iff_forall_not_mem.mpr fun u hu => hNone ⟨u, hu⟩)) (by simp [hNonempty])
    exact ⟨u, mem_targets_addAll.mpr (Or.inl ⟨rfl, hu⟩)⟩

section Refile

/-! Folds that file the targets of each arc under moves related to the arc's own move. -/

variable {R : Move → Move → Prop} {f : Arcs → Move → StateSet → Arcs}

theorem mem_targets_foldl_refile
    (hf : ∀ acc m ts m' u, u ∈ (f acc m ts).targets m' ↔ u ∈ acc.targets m' ∨ (R m m' ∧ u ∈ ts))
    (l : List (Move × StateSet)) (acc : Arcs) :
    u ∈ (l.foldl (fun acc e => f acc e.1 e.2) acc).targets m' ↔
      u ∈ acc.targets m' ∨ ∃ e ∈ l, R e.1 m' ∧ u ∈ e.2 := by
  induction l generalizing acc with
  | nil => simp
  | cons e es ih =>
    rw [List.foldl_cons, ih, hf]
    simp only [List.mem_cons, exists_eq_or_imp]
    tauto

/-- Refiling all arcs from scratch: a target is filed under `m'` exactly when it is a target of a
move related to `m'`. -/
theorem mem_targets_refile
    (hf : ∀ acc m ts m' u, u ∈ (f acc m ts).targets m' ↔ u ∈ acc.targets m' ∨ (R m m' ∧ u ∈ ts))
    (arcs : Arcs) :
    u ∈ (arcs.foldl f ∅).targets m' ↔ ∃ m, R m m' ∧ u ∈ arcs.targets m := by
  rw [ExtTreeMap.foldl_eq_foldl_toList, mem_targets_foldl_refile hf]
  simp only [targets_empty, ExtTreeSet.not_mem_empty, false_or, mem_targets_iff_exists_mem_toList]
  constructor
  · rintro ⟨⟨m, ts⟩, hMem, hR, hu⟩
    exact ⟨m, hR, ts, hMem, hu⟩
  · rintro ⟨m, hR, ts, hMem, hu⟩
    exact ⟨(m, ts), hMem, hR, hu⟩

theorem filled_refile (hf : ∀ acc m ts, acc.Filled → (f acc m ts).Filled) (arcs : Arcs) :
    (arcs.foldl f ∅).Filled := by
  rw [ExtTreeMap.foldl_eq_foldl_toList]
  suffices h : ∀ (l : List (Move × StateSet)) (acc : Arcs), acc.Filled →
      (l.foldl (fun acc e => f acc e.1 e.2) acc).Filled from h _ _ filled_empty
  intro l
  induction l with
  | nil => exact fun _ h => h
  | cons e es ih => exact fun acc h => ih _ (hf _ _ _ h)

end Refile

theorem mem_targets_forget : u ∈ (arcs.forget v).targets m' ↔ ∃ m, m.forgetVar v = m' ∧ u ∈ arcs.targets m := by
  refine mem_targets_refile (fun acc m ts m'' u => ?_) arcs
  cases hm : m.label? with
  | none => simp [Move.forgetVar, hm, or_comm]
  | some l => simp [Move.forgetVar, hm, or_comm]

theorem filled_forget : (arcs.forget v).Filled := by
  refine filled_refile (fun acc m ts h => ?_) arcs
  cases m.label? with
  | none => exact h.addAll
  | some l => exact h.addAll

section Split

/-! Splitting writes, for each arc visited, the arcs it splits into; each write replaces what its
move held. A move then holds the targets of the last arc visited that splits into it, and where
all the arcs that split into a move split from one arc, it holds that arc's targets whatever the
order of the visit. -/

variable {es : List (Move × StateSet)} {e : Move × StateSet} {x : Bool}

theorem mem_splitEntry {p : Move × StateSet} :
    p ∈ splitEntry v e ↔ (∃ x, e.1.assignVar v x = p.1) ∧ p.2 = e.2 := by
  obtain ⟨m, ts⟩ := e
  obtain ⟨m', ts'⟩ := p
  unfold splitEntry Move.assignVar
  cases m.label? with
  | none => simp [eq_comm]
  | some l => simp [Bool.exists_bool, or_and_right, eq_comm]

/-- What a move holds after the split is the targets of an arc visited that splits into it. -/
theorem getElem?_splitIn_sound (h : (splitIn v es)[m']? = some ts) :
    ∃ e ∈ es, (∃ x, e.1.assignVar v x = m') ∧ ts = e.2 := by
  rw [splitIn, ExtTreeMap.ofList_eq_insertMany_empty] at h
  rcases treeMap_getElem?_insertMany_sound h with hEmpty | hMem
  · simp at hEmpty
  · obtain ⟨e, he, hp⟩ := List.mem_flatMap.mp hMem
    obtain ⟨hx, hts⟩ := mem_splitEntry.mp hp
    exact ⟨e, he, hx, hts⟩

theorem mem_splitIn_sound (h : m' ∈ splitIn v es) : ∃ e ∈ es, ∃ x, e.1.assignVar v x = m' := by
  obtain ⟨e, he, hx, -⟩ := getElem?_splitIn_sound (getElem?_eq_some_targets h)
  exact ⟨e, he, hx⟩

theorem mem_targets_splitIn_sound (h : u ∈ (splitIn v es).targets m') :
    ∃ e ∈ es, (∃ x, e.1.assignVar v x = m') ∧ u ∈ e.2 := by
  obtain ⟨ts, hts, hu⟩ := mem_targets_iff_getElem?.mp h
  obtain ⟨e, he, hx, rfl⟩ := getElem?_splitIn_sound hts
  exact ⟨e, he, hx, hu⟩

/-- Where every arc visited that splits into `m'` is `e`, `m'` holds the targets of `e`. -/
theorem getElem?_splitIn_of_unique (he : e ∈ es) (hx : e.1.assignVar v x = m')
    (hUnique : ∀ e' ∈ es, (∃ x', e'.1.assignVar v x' = m') → e' = e) :
    (splitIn v es)[m']? = some e.2 := by
  rw [splitIn, ExtTreeMap.ofList_eq_insertMany_empty]
  refine treeMap_getElem?_insertMany_of_forall (fun p hp hpm => ?_) (Or.inr ⟨(m', e.2), ?_, rfl⟩)
  · obtain ⟨e', he', hp'⟩ := List.mem_flatMap.mp hp
    obtain ⟨hx', hts⟩ := mem_splitEntry.mp hp'
    rw [hts, hUnique e' he' (hpm ▸ hx')]
  · exact List.mem_flatMap.mpr ⟨e, he, mem_splitEntry.mpr ⟨⟨x, hx⟩, rfl⟩⟩

/-- The arcs of `arcs` that split into `m'` on `v` all split from one move. -/
def SplitsApart (arcs : Arcs) (v : Var) (m' : Move) : Prop :=
  ∀ m₁ ∈ arcs, ∀ m₂ ∈ arcs, ∀ x₁ x₂, m₁.assignVar v x₁ = m' → m₂.assignVar v x₂ = m' → m₁ = m₂

/-- Only the silent arc splits into the silent move. -/
theorem splitsApart_epsilon : arcs.SplitsApart v .epsilon := by
  intro m₁ _ m₂ _ x₁ x₂ h₁ h₂
  rw [Move.assignVar_eq_epsilon_iff.mp h₁, Move.assignVar_eq_epsilon_iff.mp h₂]

/-- Where no label assigns `v`, no two arcs split into one move. -/
theorem SplitsApart.of_not_mem_label (hLabels : ∀ l, Move.label l ∈ arcs → v ∉ l) :
    arcs.SplitsApart v m' := by
  intro m₁ h₁ m₂ h₂ x₁ x₂ hx₁ hx₂
  exact Move.eq_of_assignVar_eq (fun l hl => hLabels l (hl ▸ h₁)) (fun l hl => hLabels l (hl ▸ h₂))
    (hx₁.trans hx₂.symm)

section Visit

variable (hPerm : es.Perm arcs.toList)
include hPerm

/-- Visiting the arcs of a map in any order, a move whose arcs split apart holds the targets of the
arc that splits into it. -/
theorem getElem?_splitIn_eq_some (hApart : arcs.SplitsApart v m') :
    (splitIn v es)[m']? = some ts ↔ ∃ m x, m.assignVar v x = m' ∧ (m, ts) ∈ arcs.toList := by
  constructor
  · intro h
    obtain ⟨e, he, ⟨x, hx⟩, rfl⟩ := getElem?_splitIn_sound h
    exact ⟨e.1, x, hx, hPerm.mem_iff.mp he⟩
  · rintro ⟨m, x, hx, hMem⟩
    refine getElem?_splitIn_of_unique (e := (m, ts)) (hPerm.mem_iff.mpr hMem) hx ?_
    rintro ⟨m₂, ts₂⟩ he₂ ⟨x₂, hx₂⟩
    -- The other arc splits from the same move, and a map holds one entry per move.
    have hMem₂ : (m₂, ts₂) ∈ arcs.toList := hPerm.mem_iff.mp he₂
    have hm : m₂ = m := hApart m₂ (Arcs.mem_of_mem_toList hMem₂) m
      (Arcs.mem_of_mem_toList hMem) x₂ x hx₂ hx
    subst hm
    rw [← targets_of_mem_toList hMem₂, targets_of_mem_toList hMem]

theorem mem_targets_splitIn (hApart : arcs.SplitsApart v m') :
    u ∈ (splitIn v es).targets m' ↔ ∃ m x, m.assignVar v x = m' ∧ u ∈ arcs.targets m := by
  rw [mem_targets_iff_getElem?]
  constructor
  · rintro ⟨ts, hts, hu⟩
    obtain ⟨m, x, hx, hMem⟩ := (getElem?_splitIn_eq_some hPerm hApart).mp hts
    exact ⟨m, x, hx, mem_targets_iff_exists_mem_toList.mpr ⟨ts, hMem, hu⟩⟩
  · rintro ⟨m, x, hx, hu⟩
    obtain ⟨ts, hMem, hu⟩ := mem_targets_iff_exists_mem_toList.mp hu
    exact ⟨ts, (getElem?_splitIn_eq_some hPerm hApart).mpr ⟨m, x, hx, hMem⟩, hu⟩

/-- The silent arc keeps its targets. -/
theorem targets_splitIn_epsilon : (splitIn v es).targets .epsilon = arcs.targets .epsilon := by
  ext u
  rw [mem_targets_splitIn hPerm splitsApart_epsilon]
  simp [Move.assignVar_eq_epsilon_iff]

/-- An arc split from an arc with targets has targets. -/
theorem Filled.splitIn (h : arcs.Filled) : (splitIn v es).Filled := by
  intro m' hm'
  have hts := getElem?_eq_some_targets hm'
  obtain ⟨e, he, -, hEq⟩ := getElem?_splitIn_sound hts
  have hMem : (e.1, e.2) ∈ arcs.toList := hPerm.mem_iff.mp he
  obtain ⟨u, hu⟩ := h e.1 (mem_of_mem_toList hMem)
  rw [targets_of_mem_toList hMem, ← hEq] at hu
  exact ⟨u, hu⟩

/-- Where no label assigns `v`, the order of the visit does not matter. -/
theorem splitIn_eq_extend (hLabels : ∀ l, Move.label l ∈ arcs → v ∉ l) :
    splitIn v es = arcs.extend v := by
  refine ExtTreeMap.ext_getElem? fun m' => Option.ext fun ts => ?_
  rw [getElem?_splitIn_eq_some hPerm (SplitsApart.of_not_mem_label hLabels), extend,
    getElem?_splitIn_eq_some (List.Perm.refl _) (SplitsApart.of_not_mem_label hLabels)]

end Visit

theorem mem_targets_extend (hLabels : ∀ l, Move.label l ∈ arcs → v ∉ l) :
    u ∈ (arcs.extend v).targets m' ↔ ∃ m x, m.assignVar v x = m' ∧ u ∈ arcs.targets m :=
  mem_targets_splitIn (List.Perm.refl _) (SplitsApart.of_not_mem_label hLabels)

end Split

section Count

/-- Every (move, target) pair of the arcs of a state. -/
def pairs (arcs : Arcs) : Finset (Move × State) :=
  (arcs.toList.flatMap fun e => e.2.toList.map fun u => (e.1, u)).toFinset

@[simp]
theorem mem_pairs : (m, u) ∈ arcs.pairs ↔ u ∈ arcs.targets m := by
  simp only [pairs, List.mem_toFinset, List.mem_flatMap, List.mem_map, Prod.mk.injEq,
    mem_targets_iff_exists_mem_toList, ExtTreeSet.mem_toList]
  constructor
  · rintro ⟨⟨m', ts⟩, hMem, u', hu', rfl, rfl⟩
    exact ⟨ts, hMem, hu'⟩
  · rintro ⟨ts, hMem, hu⟩
    exact ⟨(m, ts), hMem, u, hu, rfl, rfl⟩

theorem count_eq_sum : arcs.count = (arcs.toList.map fun e => e.2.size).sum := by
  rw [count, ExtTreeMap.foldl_eq_foldl_toList, List.sum_eq_foldl, List.foldl_map]

/-- The arcs count each (move, target) pair once: moves are distinct and so are the targets of
each. -/
theorem count_eq_card_pairs : arcs.count = arcs.pairs.card := by
  have hNodup : (arcs.toList.flatMap fun e => e.2.toList.map fun u => (e.1, u)).Nodup := by
    rw [List.nodup_flatMap]
    refine ⟨fun e _ => (StateSet.nodup_toList e.2).map fun u u' h => (Prod.mk.inj h).2, ?_⟩
    refine ExtTreeMap.distinct_keys_toList.imp fun {e e'} hNe p hp hp' => ?_
    obtain ⟨u, -, rfl⟩ := List.mem_map.mp hp
    obtain ⟨u', -, hEq⟩ := List.mem_map.mp hp'
    exact hNe (Move.compare_eq_iff.mpr (Prod.mk.inj hEq).1.symm)
  rw [pairs, List.toFinset_card_of_nodup hNodup, List.length_flatMap, count_eq_sum]
  simp [ExtTreeSet.length_toList]

/-- The silent pairs are the silent targets. -/
theorem card_filter_epsilon_pairs :
    (arcs.pairs.filter (·.1 = .epsilon)).card = (arcs.targets .epsilon).size := by
  have hImage : arcs.pairs.filter (·.1 = .epsilon) =
      (arcs.targets .epsilon).toFinset.image fun u => (Move.epsilon, u) := by
    ext ⟨m, u⟩
    simp only [Finset.mem_filter, mem_pairs, Finset.mem_image, StateSet.mem_toFinset,
      Prod.mk.injEq]
    constructor
    · rintro ⟨hu, rfl⟩
      exact ⟨u, hu, rfl, rfl⟩
    · rintro ⟨u', hu', rfl, rfl⟩
      exact ⟨hu', rfl⟩
  rw [hImage, Finset.card_image_of_injective _ fun u u' h => (Prod.mk.inj h).2,
    StateSet.card_toFinset]

theorem size_targets_epsilon_le_count : (arcs.targets .epsilon).size ≤ arcs.count := by
  rw [← card_filter_epsilon_pairs, count_eq_card_pairs]
  exact Finset.card_filter_le _ _

/-- Extending keeps the silent pairs and puts each labelled pair in twice, once for each value
of the new variable. -/
theorem pairs_extend (hLabels : ∀ l, Move.label l ∈ arcs → v ∉ l) :
    (arcs.extend v).pairs = arcs.pairs.filter (·.1 = .epsilon) ∪
      ((arcs.pairs.filter (¬ ·.1 = .epsilon)).image (Prod.map (Move.assignVar v false) id) ∪
        (arcs.pairs.filter (¬ ·.1 = .epsilon)).image (Prod.map (Move.assignVar v true) id)) := by
  ext ⟨m', u⟩
  simp only [mem_pairs, mem_targets_extend hLabels, Finset.mem_union, Finset.mem_filter, Finset.mem_image,
    Prod.exists, Prod.map, id, Prod.mk.injEq]
  constructor
  · rintro ⟨m, x, rfl, hu⟩
    by_cases hm : m = .epsilon
    · subst hm
      exact Or.inl ⟨hu, by simp⟩
    · right
      cases x
      · exact Or.inl ⟨m, u, ⟨hu, hm⟩, rfl, rfl⟩
      · exact Or.inr ⟨m, u, ⟨hu, hm⟩, rfl, rfl⟩
  · rintro (⟨hu, rfl⟩ | ⟨m, u', ⟨hu, -⟩, rfl, rfl⟩ | ⟨m, u', ⟨hu, -⟩, rfl, rfl⟩)
    · exact ⟨.epsilon, false, rfl, hu⟩
    · exact ⟨m, false, rfl, hu⟩
    · exact ⟨m, true, rfl, hu⟩

/-- Extending by a variable that no label assigns keeps the silent pairs and puts two pairs in
place of each labelled one, all distinct. -/
theorem count_extend (hLabels : ∀ l, Move.label l ∈ arcs → v ∉ l) :
    (arcs.extend v).count + (arcs.targets .epsilon).size = 2 * arcs.count := by
  set N := arcs.pairs.filter (¬ ·.1 = .epsilon)
  -- Labelled pairs read labels without `v`, so adding `v` keeps them and their two copies apart.
  have hApart : ∀ p ∈ N, ∀ q ∈ N, ∀ x x', Prod.map (Move.assignVar v x) id p =
      Prod.map (Move.assignVar v x') id q → p = q ∧ x = x' := by
    rintro ⟨m, u⟩ hp ⟨m', u'⟩ hq x x' h
    obtain ⟨hp, hm⟩ := Finset.mem_filter.mp hp
    have hq := (Finset.mem_filter.mp hq).1
    obtain ⟨hMove, rfl⟩ := Prod.mk.inj h
    obtain ⟨rfl, rfl⟩ := Move.assignVar_inj hm
      (fun l hl => hLabels l (hl ▸ mem_of_mem_targets (mem_pairs.mp hp)))
      (fun l hl => hLabels l (hl ▸ mem_of_mem_targets (mem_pairs.mp hq))) hMove
    exact ⟨rfl, rfl⟩
  have hCopies : Disjoint (N.image (Prod.map (Move.assignVar v false) id))
      (N.image (Prod.map (Move.assignVar v true) id)) := by
    rw [Finset.disjoint_left]
    intro _ hFalse hTrue
    obtain ⟨p, hp, rfl⟩ := Finset.mem_image.mp hFalse
    obtain ⟨q, hq, hEq⟩ := Finset.mem_image.mp hTrue
    exact absurd (hApart q hq p hp true false hEq).2 (by decide)
  have hSilent : Disjoint (arcs.pairs.filter (·.1 = .epsilon))
      (N.image (Prod.map (Move.assignVar v false) id) ∪
        N.image (Prod.map (Move.assignVar v true) id)) := by
    rw [Finset.disjoint_left]
    intro p hp hCopy
    have hEps := (Finset.mem_filter.mp hp).2
    rcases Finset.mem_union.mp hCopy with hCopy | hCopy <;>
    · obtain ⟨q, hq, rfl⟩ := Finset.mem_image.mp hCopy
      exact (Finset.mem_filter.mp hq).2 (Move.assignVar_eq_epsilon_iff.mp hEps)
  have hParts : (arcs.pairs.filter (·.1 = .epsilon)).card + N.card = arcs.pairs.card :=
    Finset.card_filter_add_card_filter_not _
  rw [count_eq_card_pairs, count_eq_card_pairs, pairs_extend hLabels,
    Finset.card_union_of_disjoint hSilent,
    Finset.card_union_of_disjoint hCopies,
    Finset.card_image_of_injOn fun p hp q hq h => (hApart p hp q hq _ _ h).1,
    Finset.card_image_of_injOn fun p hp q hq h => (hApart p hp q hq _ _ h).1,
    ← card_filter_epsilon_pairs]
  omega

end Count

end Arcs

namespace Table

/-- Rewriting the arcs of every source: a rewrite that keeps no arcs as no arcs acts on the arcs
of every state, sources or not. -/
theorem arcs_map {f : State → Arcs → Arcs} (hf : ∀ s, f s ∅ = ∅) (t : Table) (s : State) :
    Table.arcs (t.map f) s = f s (t.arcs s) := by
  rw [Table.arcs, ExtTreeMap.getD_map, Table.arcs, ExtTreeMap.getD_eq_getD_getElem?]
  cases t[s]? with
  | none => exact (hf s).symm
  | some arcs => rfl

/-- Two rewrites of the arcs of every source give the same table when they agree on the arcs of
every state. -/
theorem map_congr_arcs {f g : State → Arcs → Arcs} {t : Table}
    (h : ∀ s, f s (t.arcs s) = g s (t.arcs s)) : t.map f = t.map g := by
  refine ExtTreeMap.ext_getElem? fun s => ?_
  rw [ExtTreeMap.getElem?_map, ExtTreeMap.getElem?_map]
  cases hArcs : t[s]? with
  | none => rfl
  | some arcs =>
    have hEq : t.arcs s = arcs := by rw [Table.arcs_eq_getD_getElem?, hArcs]; rfl
    rw [Option.map_some, Option.map_some, ← hEq, h s]

theorem count_eq_sum (t : Table) : t.count = (t.toList.map fun e => e.2.count).sum := by
  rw [count, ExtTreeMap.foldl_eq_foldl_toList, List.sum_eq_foldl, List.foldl_map]

end Table

namespace Automaton

variable {a : Automaton} {v : Var} {s u y : State} {m : Move} {L : Label} {w : List Label}

section Project

theorem project_of_mem (hv : v ∈ a.alphabet) :
    a.project v =
      { a with table := a.table.map fun _ arcs => arcs.forget v, alphabet := a.alphabet.erase v } := by
  rw [project, if_pos (ExtTreeSet.mem_iff_contains.mp hv)]

theorem project_of_not_mem (hv : v ∉ a.alphabet) : a.project v = a := by
  rw [project, if_neg fun h => hv (ExtTreeSet.mem_iff_contains.mpr h)]

@[simp]
theorem states_project : (a.project v).states = a.states := by
  unfold project; split <;> rfl

@[simp]
theorem initial_project : (a.project v).initial = a.initial := by
  unfold project; split <;> rfl

@[simp]
theorem final_project : (a.project v).final = a.final := by
  unfold project; split <;> rfl

@[simp]
theorem current_project : (a.project v).current = a.current := by
  unfold project; split <;> rfl

theorem alphabet_project (hv : v ∈ a.alphabet) : (a.project v).alphabet = a.alphabet.erase v := by
  rw [project_of_mem hv]

theorem arcs_project (hv : v ∈ a.alphabet) (s : State) : (a.project v).arcs s = (a.arcs s).forget v := by
  rw [project_of_mem hv]
  exact Table.arcs_map (fun _ => rfl) a.table s

theorem mem_targets_project (hv : v ∈ a.alphabet) :
    u ∈ (a.project v).targets s m ↔ ∃ m', m'.forgetVar v = m ∧ u ∈ a.targets s m' := by
  change u ∈ ((a.project v).arcs s).targets m ↔ _
  rw [arcs_project hv, Arcs.mem_targets_forget]
  rfl

/-- Projecting keeps every silent arc. -/
theorem silent_project (hv : v ∈ a.alphabet) : (a.project v).table.Silent = a.table.Silent := by
  funext x y
  apply propext
  change y ∈ (a.project v).targets x .epsilon ↔ y ∈ a.targets x .epsilon
  simp [mem_targets_project hv, Move.forgetVar_eq_epsilon_iff]

/-- A projected letter leads where the letter with either value for the variable led; a letter
that still assigns the variable leads nowhere. -/
theorem mem_targets_project_label (hWF : a.WellFormed) (hv : v ∈ a.alphabet) :
    u ∈ (a.project v).targets s (.label L) ↔ v ∉ L ∧ ∃ x, u ∈ a.targets s (.label (L.insert v x)) := by
  rw [mem_targets_project hv]
  constructor
  · rintro ⟨m, hm, hu⟩
    obtain ⟨l, rfl, rfl⟩ := Move.forgetVar_eq_label_iff.mp hm
    -- The label read assigns `v`, as it assigns the whole alphabet.
    have hvl : v ∈ l :=
      (Label.hasDomain_iff.mp (hWF.label_domain s l (Table.mem_arcs_of_mem_targets hu)) v).mpr hv
    refine ⟨by simp [ExtTreeMap.mem_erase], l[v], ?_⟩
    rw [Label.insert_erase_getElem hvl]
    exact hu
  · rintro ⟨hvL, x, hu⟩
    exact ⟨.label (L.insert v x), by simp [Label.erase_insert_of_not_mem hvL], hu⟩

/-- A choice of values for the variable at every position of `w ++ [L]` is a choice for `w` and
one for `L`. -/
theorem exists_bools_append_singleton {P : List Label → Prop} :
    (∃ xs : List Bool, xs.length = (w ++ [L]).length ∧
        P (List.zipWith (fun l x => l.insert v x) (w ++ [L]) xs)) ↔
      ∃ xs : List Bool, xs.length = w.length ∧
        ∃ x, P (List.zipWith (fun l x => l.insert v x) w xs ++ [L.insert v x]) := by
  constructor
  · rintro ⟨xs, hLen, hP⟩
    rcases List.eq_nil_or_concat xs with rfl | ⟨xs, x, rfl⟩
    · simp at hLen
    · have hLen' : w.length = xs.length := by simpa using hLen.symm
      rw [List.concat_eq_append, List.zipWith_append hLen'] at hP
      exact ⟨xs, hLen'.symm, x, by simpa using hP⟩
  · rintro ⟨xs, hLen, x, hP⟩
    refine ⟨xs ++ [x], by simp [hLen], ?_⟩
    rw [List.zipWith_append hLen.symm]
    simpa using hP

/-- The run of the projection reaches a state exactly when no letter assigns the variable and
the old run reaches the state on the word with some value for the variable in each letter. -/
theorem mem_reach_project_iff (hWF : a.WellFormed) (hv : v ∈ a.alphabet) :
    y ∈ (a.project v).reach w ↔ (∀ l ∈ w, v ∉ l) ∧
      ∃ xs : List Bool, xs.length = w.length ∧
        y ∈ a.reach (List.zipWith (fun l x => l.insert v x) w xs) := by
  induction w using List.reverseRecOn generalizing y with
  | nil =>
    simp only [reach_nil, Table.mem_closure_iff, silent_project hv, initial_project,
      List.not_mem_nil, IsEmpty.forall_iff, implies_true, List.length_nil, List.length_eq_zero_iff,
      true_and, exists_eq_left, List.zipWith_nil_left]
  | append_singleton w L ih =>
    rw [exists_bools_append_singleton (P := fun w' => y ∈ a.reach w'), reach_append_singleton,
      Table.mem_read, silent_project hv]
    simp only [ih, reach_append_singleton, Table.mem_read, List.mem_append, List.mem_singleton]
    change (∃ x, _ ∧ ∃ z ∈ (a.project v).targets x (.label L), _) ↔ _
    simp only [mem_targets_project_label hWF hv]
    constructor
    · rintro ⟨x, ⟨hw, xs, hLen, hx⟩, z, ⟨hvL, b, hz⟩, hzy⟩
      exact ⟨fun l hl => (hl.elim (hw l) fun h => h ▸ hvL), xs, hLen, b, x, hx, z, hz, hzy⟩
    · rintro ⟨hw, xs, hLen, b, x, hx, z, hz, hzy⟩
      exact ⟨x, ⟨fun l hl => hw l (Or.inl hl), xs, hLen, hx⟩, z, ⟨hw L (Or.inr rfl), b, hz⟩, hzy⟩

theorem accepts_run_project_iff (hWF : a.WellFormed) (hv : v ∈ a.alphabet) (w : List Label) :
    ((a.project v).run w).accepts = true ↔ (∀ l ∈ w, v ∉ l) ∧
      ∃ xs : List Bool, xs.length = w.length ∧
        (a.run (List.zipWith (fun l x => l.insert v x) w xs)).accepts = true := by
  simp only [accepts_run_iff, mem_reach_project_iff hWF hv, final_project]
  constructor
  · rintro ⟨y, ⟨hw, xs, hLen, hy⟩, hFinal⟩
    exact ⟨hw, xs, hLen, y, hy, hFinal⟩
  · rintro ⟨hw, xs, hLen, y, hy, hFinal⟩
    exact ⟨y, ⟨hw, xs, hLen, hy⟩, hFinal⟩

/-- Projecting keeps an automaton well formed: every label loses the variable the alphabet
loses, and no state or arc is added. -/
theorem wellFormed_project (hWF : a.WellFormed) : (a.project v).WellFormed := by
  by_cases hv : v ∈ a.alphabet
  · refine ⟨by simpa using hWF.initial_mem, by simpa using hWF.final_mem,
      by simpa using hWF.current_mem, ?_, ?_, ?_⟩
    · intro s m hm
      rw [arcs_project hv] at hm
      obtain ⟨u, hu⟩ := Arcs.filled_forget m hm
      obtain ⟨m', -, hu'⟩ := Arcs.mem_targets_forget.mp hu
      rw [states_project]
      exact hWF.source_mem s m' (Table.mem_arcs_of_mem_targets hu')
    · intro s L hL
      rw [arcs_project hv] at hL
      obtain ⟨u, hu⟩ := Arcs.filled_forget _ hL
      obtain ⟨m', hm', hu'⟩ := Arcs.mem_targets_forget.mp hu
      obtain ⟨l, rfl, rfl⟩ := Move.forgetVar_eq_label_iff.mp hm'
      rw [alphabet_project hv]
      exact Label.hasDomain_erase (hWF.label_domain s l (Table.mem_arcs_of_mem_targets hu'))
    · intro s m u hu
      obtain ⟨m', -, hu'⟩ := (mem_targets_project hv).mp hu
      rw [states_project]
      exact hWF.target_mem s m' u hu'
  · rw [project_of_not_mem hv]
    exact hWF

/-- Projecting a variable of the alphabet of a valid automaton removes it from the alphabet,
keeps the automaton valid, and quantifies the variable existentially letter by letter: a word is
accepted afterwards exactly when none of its letters assigns the variable and the automaton
accepted the word with some value for the variable put into each letter. -/
theorem project_quantifies_variable (hValid : a.validate = none) (hv : v ∈ a.alphabet) :
    (a.project v).alphabet = a.alphabet.erase v ∧ (a.project v).validate = none ∧
      ∀ w, ((a.project v).run w).accepts = true ↔ (∀ l ∈ w, v ∉ l) ∧
        ∃ xs : List Bool, xs.length = w.length ∧
          (a.run (List.zipWith (fun l x => l.insert v x) w xs)).accepts = true := by
  have hWF := validate_eq_none_iff.mp hValid
  exact ⟨alphabet_project hv, validate_eq_none_iff.mpr (wellFormed_project hWF),
    accepts_run_project_iff hWF hv⟩

/-- The theorem at an automaton whose two arcs from the start differ only in the projected
variable and merge into one. -/
theorem project_quantifies_variable_on_merged_arcs :
    let a := ((((((Automaton.empty {}).addState 0).addState 1).addState 2).addTransition 0
      (((∅ : Label).insert 0 false).insert 1 false) 1).addTransition 0
      (((∅ : Label).insert 0 false).insert 1 true) 2).addTransition 0
      (((∅ : Label).insert 0 true).insert 1 true) 2 |>.markInitial 0 |>.markFinal 2
    a.validate = none ∧ (1 : Var) ∈ a.alphabet ∧
      (a.project 1).alphabet = a.alphabet.erase 1 ∧ (a.project 1).validate = none ∧
      ∀ w, ((a.project 1).run w).accepts = true ↔ (∀ l ∈ w, (1 : Var) ∉ l) ∧
        ∃ xs : List Bool, xs.length = w.length ∧
          (a.run (List.zipWith (fun l x => l.insert 1 x) w xs)).accepts = true := by
  intro a
  have hValid : a.validate = none := by decide
  have hv : (1 : Var) ∈ a.alphabet := by decide
  exact ⟨hValid, hv, project_quantifies_variable hValid hv⟩

end Project

section Extend

section Order

variable {o : MapOrder}

theorem addVarIn_of_not_mem (hv : v ∉ a.alphabet) :
    a.addVarIn o v =
      { a with
        table := a.table.map fun s arcs => Arcs.splitIn v (o.arcsOf s arcs)
        alphabet := a.alphabet.insert v } := by
  rw [addVarIn, if_neg fun h => hv (ExtTreeSet.mem_iff_contains.mpr h)]

theorem addVarIn_of_mem (hv : v ∈ a.alphabet) : a.addVarIn o v = a := by
  rw [addVarIn, if_pos (ExtTreeSet.mem_iff_contains.mp hv)]

@[simp]
theorem states_addVarIn : (a.addVarIn o v).states = a.states := by
  unfold addVarIn; split <;> rfl

@[simp]
theorem initial_addVarIn : (a.addVarIn o v).initial = a.initial := by
  unfold addVarIn; split <;> rfl

@[simp]
theorem final_addVarIn : (a.addVarIn o v).final = a.final := by
  unfold addVarIn; split <;> rfl

@[simp]
theorem current_addVarIn : (a.addVarIn o v).current = a.current := by
  unfold addVarIn; split <;> rfl

theorem alphabet_addVarIn (hv : v ∉ a.alphabet) : (a.addVarIn o v).alphabet = a.alphabet.insert v := by
  rw [addVarIn_of_not_mem hv]

/-- A map with no arcs is visited as the empty list, which splits into no arcs. -/
theorem splitIn_arcsOf_empty (s : State) : Arcs.splitIn v (o.arcsOf s ∅) = ∅ := by
  rw [List.perm_nil.mp ((o.arcsOf_perm s ∅).trans (by simp))]
  rfl

theorem arcs_addVarIn (hv : v ∉ a.alphabet) (s : State) :
    (a.addVarIn o v).arcs s = Arcs.splitIn v (o.arcsOf s (a.arcs s)) := by
  rw [addVarIn_of_not_mem hv]
  exact Table.arcs_map splitIn_arcsOf_empty a.table s

/-- Extending keeps an automaton well formed, whatever the order of the visit: every label
gains the variable the alphabet gains, and every arc written splits from an arc of the same
source. -/
theorem wellFormed_addVarIn (hWF : a.WellFormed) : (a.addVarIn o v).WellFormed := by
  by_cases hv : v ∈ a.alphabet
  · rw [addVarIn_of_mem hv]
    exact hWF
  · refine ⟨by simpa using hWF.initial_mem, by simpa using hWF.final_mem,
      by simpa using hWF.current_mem, ?_, ?_, ?_⟩
    · intro s m hm
      rw [arcs_addVarIn hv] at hm
      obtain ⟨e, he, -⟩ := Arcs.mem_splitIn_sound hm
      have hMem := (o.arcsOf_perm s _).mem_iff.mp he
      rw [states_addVarIn]
      exact hWF.source_mem s e.1 (Arcs.mem_of_mem_toList hMem)
    · intro s L hL
      rw [arcs_addVarIn hv] at hL
      obtain ⟨e, he, x, hx⟩ := Arcs.mem_splitIn_sound hL
      have hMem := (o.arcsOf_perm s _).mem_iff.mp he
      obtain ⟨l, hl, rfl⟩ := Move.assignVar_eq_label_iff.mp hx
      rw [alphabet_addVarIn hv]
      exact Label.hasDomain_insert (hWF.label_domain s l (hl ▸ Arcs.mem_of_mem_toList hMem))
    · intro s m u hu
      change u ∈ ((a.addVarIn o v).arcs s).targets m at hu
      rw [arcs_addVarIn hv] at hu
      obtain ⟨e, he, -, hu⟩ := Arcs.mem_targets_splitIn_sound hu
      have hMem : (e.1, e.2) ∈ (a.arcs s).toList := (o.arcsOf_perm s _).mem_iff.mp he
      rw [states_addVarIn]
      exact hWF.target_mem s e.1 u (by
        change u ∈ (a.arcs s).targets e.1
        rw [Arcs.targets_of_mem_toList hMem]
        exact hu)

/-- A property that adding one variable keeps, in any order of the visit, is kept by adding the
variables of another automaton's alphabet one after another. -/
theorem addVarsOfIn_preserves {P : Automaton → Prop}
    (hStep : ∀ a o v, P a → P (a.addVarIn o v)) (ha : P a) (b : Automaton) (o : Var → MapOrder) :
    P (a.addVarsOfIn b o) := by
  unfold addVarsOfIn
  induction b.alphabet.toList generalizing a with
  | nil => exact ha
  | cons v vs ih => exact ih (hStep a (o v) v ha)

end Order

/-- Adding `v` splits no two arcs into one move: unless `v` is already in the alphabet, when
nothing is added, no label assigns it. -/
def SplitsApart (a : Automaton) (v : Var) : Prop :=
  v ∉ a.alphabet → ∀ s l, Move.label l ∈ a.arcs s → v ∉ l

/-- A variable outside the alphabet of a well-formed automaton is assigned by no label. -/
theorem WellFormed.not_mem_label (hWF : a.WellFormed) (hv : v ∉ a.alphabet) :
    ∀ s l, Move.label l ∈ a.arcs s → v ∉ l :=
  fun s l hl hvl => hv ((Label.hasDomain_iff.mp (hWF.label_domain s l hl) v).mp hvl)

theorem WellFormed.splitsApart (hWF : a.WellFormed) (v : Var) : a.SplitsApart v :=
  hWF.not_mem_label

/-- Where adding the variable splits arcs apart, the order in which each source's arcs are
visited does not matter. -/
theorem SplitsApart.addVarIn_eq_addVar (h : a.SplitsApart v) (o : MapOrder) :
    a.addVarIn o v = a.addVar v := by
  by_cases hv : v ∈ a.alphabet
  · rw [addVar, addVarIn_of_mem hv, addVarIn_of_mem hv]
  · rw [addVar, addVarIn_of_not_mem hv, addVarIn_of_not_mem hv]
    congr 1
    -- The arcs of a source are the arcs of that state, whose labels lack the variable.
    exact Table.map_congr_arcs fun s =>
      Arcs.splitIn_eq_extend (o.arcsOf_perm s _) fun l hl => h hv s l hl

theorem addVar_of_not_mem (hv : v ∉ a.alphabet) :
    a.addVar v =
      { a with table := a.table.map fun _ arcs => arcs.extend v, alphabet := a.alphabet.insert v } :=
  addVarIn_of_not_mem hv

theorem addVar_of_mem (hv : v ∈ a.alphabet) : a.addVar v = a :=
  addVarIn_of_mem hv

@[simp]
theorem states_addVar : (a.addVar v).states = a.states :=
  states_addVarIn

@[simp]
theorem initial_addVar : (a.addVar v).initial = a.initial :=
  initial_addVarIn

@[simp]
theorem final_addVar : (a.addVar v).final = a.final :=
  final_addVarIn

@[simp]
theorem current_addVar : (a.addVar v).current = a.current :=
  current_addVarIn

theorem alphabet_addVar (hv : v ∉ a.alphabet) : (a.addVar v).alphabet = a.alphabet.insert v :=
  alphabet_addVarIn hv

theorem arcs_addVar (hv : v ∉ a.alphabet) (s : State) : (a.addVar v).arcs s = (a.arcs s).extend v :=
  arcs_addVarIn hv s

theorem mem_targets_addVar (hv : v ∉ a.alphabet) (hLabels : ∀ s l, Move.label l ∈ a.arcs s → v ∉ l) :
    u ∈ (a.addVar v).targets s m ↔ ∃ m' x, m'.assignVar v x = m ∧ u ∈ a.targets s m' := by
  change u ∈ ((a.addVar v).arcs s).targets m ↔ _
  rw [arcs_addVar hv, Arcs.mem_targets_extend (hLabels s)]
  rfl

/-- Extending keeps every silent arc. -/
theorem silent_addVar (hv : v ∉ a.alphabet) : (a.addVar v).table.Silent = a.table.Silent := by
  funext x y
  apply propext
  change y ∈ ((a.addVar v).arcs x).targets .epsilon ↔ y ∈ a.targets x .epsilon
  rw [arcs_addVar hv, Arcs.extend, Arcs.targets_splitIn_epsilon (List.Perm.refl _)]
  rfl

/-- After extending by a variable that no label assigns, a letter that assigns it leads where the
letter without it led, and any other letter leads nowhere. -/
theorem mem_targets_addVar_label (hv : v ∉ a.alphabet)
    (hLabels : ∀ s l, Move.label l ∈ a.arcs s → v ∉ l) :
    u ∈ (a.addVar v).targets s (.label L) ↔ v ∈ L ∧ u ∈ a.targets s (.label (L.erase v)) := by
  rw [mem_targets_addVar hv hLabels]
  constructor
  · rintro ⟨m, x, hm, hu⟩
    obtain ⟨l, rfl, rfl⟩ := Move.assignVar_eq_label_iff.mp hm
    have hvl : v ∉ l := hLabels s l (Table.mem_arcs_of_mem_targets hu)
    refine ⟨by simp [ExtTreeMap.mem_insert], ?_⟩
    rw [Label.erase_insert_of_not_mem hvl]
    exact hu
  · rintro ⟨hvL, hu⟩
    exact ⟨.label (L.erase v), L[v], by simp [Label.insert_erase_getElem hvL], hu⟩

/-- After extending, a run reaches a state exactly when every letter assigns the variable and
the old run reaches the state on the word with the variable removed from each letter. -/
theorem mem_reach_addVar_iff (hv : v ∉ a.alphabet)
    (hLabels : ∀ s l, Move.label l ∈ a.arcs s → v ∉ l) :
    y ∈ (a.addVar v).reach w ↔ (∀ l ∈ w, v ∈ l) ∧ y ∈ a.reach (w.map (·.erase v)) := by
  induction w using List.reverseRecOn generalizing y with
  | nil =>
    simp only [reach_nil, Table.mem_closure_iff, silent_addVar hv, initial_addVar,
      List.not_mem_nil, IsEmpty.forall_iff, implies_true, List.map_nil, true_and]
  | append_singleton w L ih =>
    rw [reach_append_singleton, Table.mem_read, silent_addVar hv, List.map_append,
      List.map_singleton, reach_append_singleton, Table.mem_read]
    simp only [ih, List.mem_append, List.mem_singleton]
    change (∃ x, _ ∧ ∃ z ∈ (a.addVar v).targets x (.label L), _) ↔ _
    simp only [mem_targets_addVar_label hv hLabels]
    constructor
    · rintro ⟨x, ⟨hw, hx⟩, z, ⟨hvL, hz⟩, hzy⟩
      exact ⟨fun l hl => hl.elim (hw l) fun h => h ▸ hvL, x, hx, z, hz, hzy⟩
    · rintro ⟨hw, x, hx, z, hz, hzy⟩
      exact ⟨x, ⟨fun l hl => hw l (Or.inl hl), hx⟩, z, ⟨hw L (Or.inr rfl), hz⟩, hzy⟩

theorem accepts_run_addVar_iff (hv : v ∉ a.alphabet)
    (hLabels : ∀ s l, Move.label l ∈ a.arcs s → v ∉ l) (w : List Label) :
    ((a.addVar v).run w).accepts = true ↔
      (∀ l ∈ w, v ∈ l) ∧ (a.run (w.map (·.erase v))).accepts = true := by
  simp only [accepts_run_iff, mem_reach_addVar_iff hv hLabels, final_addVar]
  constructor
  · rintro ⟨y, ⟨hw, hy⟩, hFinal⟩
    exact ⟨hw, y, hy, hFinal⟩
  · rintro ⟨hw, y, hy, hFinal⟩
    exact ⟨y, ⟨hw, hy⟩, hFinal⟩

theorem wellFormed_addVar (hWF : a.WellFormed) : (a.addVar v).WellFormed :=
  wellFormed_addVarIn hWF

/-- No more silent triples than triples. -/
theorem silentCount_le_numTransitions : a.table.silentCount ≤ a.numTransitions := by
  rw [Table.silentCount_eq_sum, numTransitions, Table.count_eq_sum]
  exact List.sum_le_sum fun e _ => Arcs.size_targets_epsilon_le_count

/-- Extending by a variable that no label assigns doubles the labelled triples and keeps the
silent ones. -/
theorem numTransitions_addVar (hv : v ∉ a.alphabet)
    (hLabels : ∀ s l, Move.label l ∈ a.arcs s → v ∉ l) :
    (a.addVar v).numTransitions + a.table.silentCount = 2 * a.numTransitions := by
  rw [addVar_of_not_mem hv]
  change Table.count (a.table.map _) + _ = 2 * a.table.count
  rw [Table.count_eq_sum, Table.count_eq_sum, Table.silentCount_eq_sum, ExtTreeMap.toList_map,
    List.map_map, ← List.sum_map_add, ← List.sum_map_mul_left]
  refine congrArg List.sum (List.map_congr_left fun e he => ?_)
  -- Each source's arcs are the table's arcs of that source, whose labels lack `v`.
  have hArcs : a.arcs e.1 = e.2 := Table.arcs_of_mem_toList he
  exact Arcs.count_extend fun l hl => hLabels e.1 l (hArcs ▸ hl)

/-- Adding a variable that is not in the alphabet and that no label assigns puts it into the
alphabet, doubles the labelled triples and keeps the silent ones, keeps a valid automaton valid,
and makes the automaton ignore the variable: a word is accepted afterwards exactly when each of
its letters assigns the variable and the automaton accepted the word with the variable removed
from each letter. -/
theorem addVar_ignores_variable (hv : v ∉ a.alphabet)
    (hLabels : ∀ s l, Move.label l ∈ a.arcs s → v ∉ l) :
    (a.addVar v).alphabet = a.alphabet.insert v ∧
      (a.addVar v).numTransitions =
        2 * (a.numTransitions - a.table.silentCount) + a.table.silentCount ∧
      (a.validate = none → (a.addVar v).validate = none) ∧
      ∀ w, ((a.addVar v).run w).accepts = true ↔
        (∀ l ∈ w, v ∈ l) ∧ (a.run (w.map (·.erase v))).accepts = true := by
  have hCount := numTransitions_addVar hv hLabels
  have hSilent : a.table.silentCount ≤ a.numTransitions := silentCount_le_numTransitions
  refine ⟨alphabet_addVar hv, by omega, fun hValid => ?_, accepts_run_addVar_iff hv hLabels⟩
  exact validate_eq_none_iff.mpr (wellFormed_addVar (validate_eq_none_iff.mp hValid))

/-- The theorem at an automaton with a silent arc back to the start, extended by a new variable. -/
theorem addVar_ignores_variable_beside_silent_arc :
    let a := (((((Automaton.empty {}).addState 0).addState 1).addTransition 0
      ((∅ : Label).insert 0 true) 1).addTransition 0 ((∅ : Label).insert 0 false) 0).addEpsilon 1 0
      |>.markInitial 0 |>.markFinal 1
    (2 : Var) ∉ a.alphabet ∧ (∀ s l, Move.label l ∈ a.arcs s → (2 : Var) ∉ l) ∧
      (a.addVar 2).alphabet = a.alphabet.insert 2 ∧
      (a.addVar 2).numTransitions =
        2 * (a.numTransitions - a.table.silentCount) + a.table.silentCount ∧
      (a.validate = none → (a.addVar 2).validate = none) ∧
      ∀ w, ((a.addVar 2).run w).accepts = true ↔
        (∀ l ∈ w, (2 : Var) ∈ l) ∧ (a.run (w.map (·.erase 2))).accepts = true := by
  intro a
  have hv : (2 : Var) ∉ a.alphabet := by decide
  have hLabels := (validate_eq_none_iff.mp (by decide : a.validate = none)).not_mem_label hv
  exact ⟨hv, hLabels, addVar_ignores_variable hv hLabels⟩

end Extend

end Automaton

end BitAutomata
