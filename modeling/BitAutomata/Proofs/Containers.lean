import Mathlib.Data.Set.Card
import BitAutomata.Automaton.Basic

/-!
# Sets and maps of states through their lists

The model keeps states in sorted tree sets and arcs in sorted tree maps. Their `any` and `all`
queries run loops with an early exit; here they are read as the same queries on the sorted
lists of members. A set of states is also seen as a `Finset`, with the same members and as many
of them as the set's size, so that counting arguments can use Mathlib's cardinalities. A pass
that writes entries into a tree map one after another leaves under each key the last entry
written there; where the entries agree on every key they share, the order of the writes does not
matter (`treeMap_insertMany_perm`).
-/

namespace BitAutomata

open Std

section Queries

variable {α : Type} {cmp : α → α → Ordering}

/-- The early-exit `any` loop of a tree map answers as `List.any` on its entries. -/
private theorem dTreeMap_any_eq_any_toList {β : α → Type} (m : DTreeMap α β cmp)
    (p : (a : α) → β a → Bool) :
    m.any p = m.toList.any (fun e => p e.1 e.2) := by
  unfold DTreeMap.any DTreeMap.Internal.Impl.any
  simp only [Id.run]
  change (do let s ← m.inner.forIn _ _; _) = _
  rw [DTreeMap.Internal.Impl.forIn_eq_forIn_toListModel]
  change _ = m.inner.toList.any _
  rw [DTreeMap.Internal.Impl.toList_eq_toListModel]
  induction m.inner.toListModel with
  | nil => rfl
  | cons e es ih =>
    simp only [List.forIn_cons, List.any_cons]
    by_cases hp : p e.1 e.2 = true
    · simp [hp]
      rfl
    · simp [hp]
      exact ih

/-- The early-exit `all` loop of a tree map answers as `List.all` on its entries. -/
private theorem dTreeMap_all_eq_all_toList {β : α → Type} (m : DTreeMap α β cmp)
    (p : (a : α) → β a → Bool) :
    m.all p = m.toList.all (fun e => p e.1 e.2) := by
  unfold DTreeMap.all DTreeMap.Internal.Impl.all
  simp only [Id.run]
  change (do let s ← m.inner.forIn _ _; _) = _
  rw [DTreeMap.Internal.Impl.forIn_eq_forIn_toListModel]
  change _ = m.inner.toList.all _
  rw [DTreeMap.Internal.Impl.toList_eq_toListModel]
  induction m.inner.toListModel with
  | nil => rfl
  | cons e es ih =>
    simp only [List.forIn_cons, List.all_cons]
    by_cases hp : p e.1 e.2 = true
    · simp [hp]
      exact ih
    · simp [hp]
      rfl

variable [TransCmp cmp]

theorem treeSet_any_eq_any_toList (t : ExtTreeSet α cmp) (p : α → Bool) :
    t.any p = t.toList.any p := by
  rcases t with ⟨⟨⟨q⟩⟩⟩
  induction q using Quotient.inductionOn with
  | h m =>
    change m.any _ = m.keys.any p
    rw [dTreeMap_any_eq_any_toList, ← DTreeMap.map_fst_toList_eq_keys, List.any_map]
    rfl

theorem treeSet_all_eq_all_toList (t : ExtTreeSet α cmp) (p : α → Bool) :
    t.all p = t.toList.all p := by
  rcases t with ⟨⟨⟨q⟩⟩⟩
  induction q using Quotient.inductionOn with
  | h m =>
    change m.all _ = m.keys.all p
    rw [dTreeMap_all_eq_all_toList, ← DTreeMap.map_fst_toList_eq_keys, List.all_map]
    rfl

theorem treeMap_any_eq_any_toList {β : Type} (t : ExtTreeMap α β cmp) (p : α → β → Bool) :
    t.any p = t.toList.any (fun e => p e.1 e.2) := by
  rcases t with ⟨⟨q⟩⟩
  induction q using Quotient.inductionOn with
  | h m =>
    change m.any _ = (DTreeMap.Internal.Impl.Const.toList m.inner).any _
    rw [dTreeMap_any_eq_any_toList]
    change m.inner.toList.any _ = _
    rw [DTreeMap.Internal.Impl.Const.toList_eq_toListModel_map,
      DTreeMap.Internal.Impl.toList_eq_toListModel, List.any_map]
    rfl

theorem treeMap_all_eq_all_toList {β : Type} (t : ExtTreeMap α β cmp) (p : α → β → Bool) :
    t.all p = t.toList.all (fun e => p e.1 e.2) := by
  rcases t with ⟨⟨q⟩⟩
  induction q using Quotient.inductionOn with
  | h m =>
    change m.all _ = (DTreeMap.Internal.Impl.Const.toList m.inner).all _
    rw [dTreeMap_all_eq_all_toList]
    change m.inner.toList.all _ = _
    rw [DTreeMap.Internal.Impl.Const.toList_eq_toListModel_map,
      DTreeMap.Internal.Impl.toList_eq_toListModel, List.all_map]
    rfl

variable [LawfulEqCmp cmp]

/-- `any` on a tree set holds exactly when some member satisfies the test. -/
theorem treeSet_any_iff {t : ExtTreeSet α cmp} {p : α → Bool} :
    t.any p = true ↔ ∃ x ∈ t, p x = true := by
  simp [treeSet_any_eq_any_toList, ExtTreeSet.mem_toList]

/-- `all` on a tree set holds exactly when every member satisfies the test. -/
theorem treeSet_all_iff {t : ExtTreeSet α cmp} {p : α → Bool} :
    t.all p = true ↔ ∀ x ∈ t, p x = true := by
  simp [treeSet_all_eq_all_toList, ExtTreeSet.mem_toList]

end Queries

section Writes

/-! A pass that writes a list of entries into a tree map one after the other, each write
replacing what its key held. -/

variable {α β : Type} {cmp : α → α → Ordering} [TransCmp cmp] [LawfulEqCmp cmp]
  {t : ExtTreeMap α β cmp} {l : List (α × β)} {k : α} {w : β}

/-- What a key holds after the writes was written under it or held before. -/
theorem treeMap_getElem?_insertMany_sound (h : (t.insertMany l)[k]? = some w) :
    t[k]? = some w ∨ (k, w) ∈ l := by
  induction l generalizing t with
  | nil => exact Or.inl h
  | cons e es ih =>
    obtain ⟨k', w'⟩ := e
    rw [ExtTreeMap.insertMany_cons] at h
    rcases ih h with hOld | hMem
    · rw [ExtTreeMap.getElem?_insert] at hOld
      by_cases hk : cmp k' k = .eq
      · rw [if_pos hk] at hOld
        cases LawfulEqCmp.eq_of_compare hk
        cases Option.some.inj hOld
        exact Or.inr List.mem_cons_self
      · rw [if_neg hk] at hOld
        exact Or.inl hOld
    · exact Or.inr (List.mem_cons_of_mem _ hMem)

/-- A key holds `w` after the writes when every write under it writes `w` and there is one, or
when there is none and the key held `w` before. -/
theorem treeMap_getElem?_insertMany_of_forall (hAll : ∀ p ∈ l, p.1 = k → p.2 = w)
    (hInit : t[k]? = some w ∨ ∃ p ∈ l, p.1 = k) : (t.insertMany l)[k]? = some w := by
  induction l generalizing t with
  | nil => simpa using hInit
  | cons e es ih =>
    obtain ⟨k', w'⟩ := e
    rw [ExtTreeMap.insertMany_cons]
    refine ih (fun p hp => hAll p (List.mem_cons_of_mem _ hp)) ?_
    by_cases hk : k' = k
    · -- The head writes under `k`, so it writes `w` and the tail starts from `w`.
      subst hk
      have hw : w' = w := hAll (k', w') List.mem_cons_self rfl
      rw [ExtTreeMap.getElem?_insert_self, hw]
      exact Or.inl rfl
    · rw [ExtTreeMap.getElem?_insert, if_neg fun h => hk (LawfulEqCmp.eq_of_compare h)]
      rcases hInit with h | ⟨p, hp, hpk⟩
      · exact Or.inl h
      · rcases List.mem_cons.mp hp with rfl | hp
        · exact absurd hpk hk
        · exact Or.inr ⟨p, hp, hpk⟩

/-- A key no write names holds what it held before. -/
theorem treeMap_getElem?_insertMany_of_forall_ne (h : ∀ p ∈ l, p.1 ≠ k) :
    (t.insertMany l)[k]? = t[k]? := by
  induction l generalizing t with
  | nil => rfl
  | cons e es ih =>
    obtain ⟨k', w'⟩ := e
    rw [ExtTreeMap.insertMany_cons, ih fun p hp => h p (List.mem_cons_of_mem _ hp),
      ExtTreeMap.getElem?_insert,
      if_neg fun hk => h _ List.mem_cons_self (LawfulEqCmp.eq_of_compare hk)]

/-- Writes that agree wherever their keys meet give the same map in any order. -/
theorem treeMap_insertMany_perm {l' : List (α × β)} (hPerm : l.Perm l')
    (hAgree : ∀ p ∈ l, ∀ q ∈ l, p.1 = q.1 → p.2 = q.2) : t.insertMany l = t.insertMany l' := by
  refine ExtTreeMap.ext_getElem? fun k => ?_
  by_cases hk : ∃ p ∈ l, p.1 = k
  · obtain ⟨p, hp, rfl⟩ := hk
    rw [treeMap_getElem?_insertMany_of_forall (w := p.2) (fun q hq hqk => hAgree q hq p hp hqk)
        (Or.inr ⟨p, hp, rfl⟩),
      treeMap_getElem?_insertMany_of_forall (w := p.2)
        (fun q hq hqk => hAgree q (hPerm.mem_iff.mpr hq) p hp hqk) (Or.inr ⟨p, hPerm.mem_iff.mp hp, rfl⟩)]
  · simp only [not_exists, not_and] at hk
    rw [treeMap_getElem?_insertMany_of_forall_ne hk,
      treeMap_getElem?_insertMany_of_forall_ne fun q hq => hk q (hPerm.mem_iff.mpr hq)]

end Writes

/-- Distinct lists, each the image of a member of `X` under an injective map, are at most as
many as `X`. -/
theorem length_le_encard_of_injective {α : Type} {f : α → List State} (hf : Function.Injective f)
    {X : Set α} {L : List (List State)} (hL : L.Nodup) (hX : ∀ t ∈ L, ∃ s ∈ X, f s = t) :
    (L.length : ℕ∞) ≤ X.encard := by
  have hSub : (L.toFinset : Set (List State)) ⊆ f '' X := by
    intro t ht
    obtain ⟨s, hs, hst⟩ := hX t (List.mem_toFinset.mp ht)
    exact ⟨s, hs, hst⟩
  calc (L.length : ℕ∞)
      = (L.toFinset : Set (List State)).encard := by
        rw [Set.encard_coe_eq_coe_finsetCard, List.toFinset_card_of_nodup hL]
    _ ≤ (f '' X).encard := Set.encard_le_encard hSub
    _ = X.encard := hf.encard_image X

namespace StateSet

/-- Two sets meet exactly when they share a member. -/
theorem meets_iff {s t : StateSet} : s.meets t = true ↔ ∃ x ∈ s, x ∈ t := by
  simp [meets, treeSet_any_iff, ExtTreeSet.contains_iff_mem]

/-- The test the widening loops stop on: every member of `next` is already in `s`. -/
theorem all_contains_iff {next s : StateSet} :
    (next.all fun x => s.contains x) = true ↔ ∀ x ∈ next, x ∈ s := by
  simp [treeSet_all_iff, ExtTreeSet.contains_iff_mem]

@[simp]
theorem mem_filter {s : StateSet} {p : State → Bool} {x : State} :
    x ∈ s.filter p ↔ x ∈ s ∧ p x = true := by
  rw [ExtTreeSet.mem_filter]
  constructor
  · rintro ⟨hx, hp⟩
    rw [ExtTreeSet.get_eq hx] at hp
    exact ⟨hx, hp⟩
  · rintro ⟨hx, hp⟩
    exact ⟨hx, by rw [ExtTreeSet.get_eq hx]; exact hp⟩

@[simp]
theorem mem_singleton {s x : State} : x ∈ ({s} : StateSet) ↔ x = s := by
  rw [ExtTreeSet.singleton_eq_insert, ExtTreeSet.mem_insert, Std.LawfulEqCmp.compare_eq_iff_eq]
  simp [ExtTreeSet.not_mem_empty, eq_comm]

theorem size_singleton {x : State} : ({x} : StateSet).size = 1 := by
  rw [ExtTreeSet.singleton_eq_insert, ExtTreeSet.size_insert]
  simp

/-- A set of states as a `Finset`, for counting. -/
noncomputable def toFinset (s : StateSet) : Finset State :=
  s.toList.toFinset

@[simp]
theorem mem_toFinset {s : StateSet} {x : State} : x ∈ s.toFinset ↔ x ∈ s := by
  simp [toFinset, ExtTreeSet.mem_toList]

theorem nodup_toList (s : StateSet) : s.toList.Nodup := by
  have hDistinct : s.toList.Pairwise (fun x y => ¬compare x y = .eq) :=
    ExtTreeSet.distinct_toList
  refine hDistinct.imp ?_
  intro x y hxy hEq
  subst hEq
  exact hxy (ReflCmp.compare_self)

@[simp]
theorem card_toFinset (s : StateSet) : s.toFinset.card = s.size := by
  rw [toFinset, List.toFinset_card_of_nodup (nodup_toList s), ExtTreeSet.length_toList]

/-- A set whose members are all equal has at most one member. -/
theorem size_le_one {s : StateSet} (h : ∀ x ∈ s, ∀ y ∈ s, x = y) : s.size ≤ 1 := by
  rw [← card_toFinset]
  exact Finset.card_le_one.mpr fun x hx y hy => h x (mem_toFinset.mp hx) y (mem_toFinset.mp hy)

/-- A set of at most one member that holds `x` is `{x}`. -/
theorem eq_singleton_of_mem {s : StateSet} {x : State} (hx : x ∈ s) (h : s.size ≤ 1) :
    s = {x} := by
  apply ExtTreeSet.ext_mem
  intro y
  rw [mem_singleton]
  constructor
  · intro hy
    rw [← card_toFinset] at h
    exact Finset.card_le_one.mp h y (mem_toFinset.mpr hy) x (mem_toFinset.mpr hx)
  · rintro rfl
    exact hx

theorem eq_empty_or_eq_singleton {s : StateSet} (h : s.size ≤ 1) : s = ∅ ∨ ∃ x, s = {x} := by
  by_cases hMember : ∃ x, x ∈ s
  · obtain ⟨x, hx⟩ := hMember
    exact Or.inr ⟨x, eq_singleton_of_mem hx h⟩
  · exact Or.inl (ExtTreeSet.eq_empty_iff_forall_not_mem.mpr fun x hx => hMember ⟨x, hx⟩)

theorem size_le_size {s t : StateSet} (h : ∀ x ∈ s, x ∈ t) : s.size ≤ t.size := by
  rw [← card_toFinset, ← card_toFinset]
  exact Finset.card_le_card fun x hx => mem_toFinset.mpr (h x (mem_toFinset.mp hx))

theorem toFinset_injective : Function.Injective toFinset := by
  intro s t hEq
  apply ExtTreeSet.ext_mem
  intro x
  rw [← mem_toFinset, hEq, mem_toFinset]

theorem toList_injective : Function.Injective (fun s : StateSet => s.toList) :=
  fun _ _ hEq => ExtTreeSet.toList_inj.mp hEq

/-- The sets of states inside `r` are at most `2 ^ r.size` many. -/
theorem encard_subsets_le (r : StateSet) : {s : StateSet | ∀ x ∈ s, x ∈ r}.encard ≤ 2 ^ r.size := by
  calc {s : StateSet | ∀ x ∈ s, x ∈ r}.encard
      = (toFinset '' {s : StateSet | ∀ x ∈ s, x ∈ r}).encard :=
        (toFinset_injective.encard_image _).symm
    _ ≤ (r.toFinset.powerset : Set (Finset State)).encard := by
        apply Set.encard_le_encard
        rintro _ ⟨s, hs, rfl⟩
        simp only [Finset.coe_powerset, Set.mem_preimage, Set.mem_powerset_iff, Finset.coe_subset]
        intro x hx
        exact mem_toFinset.mpr (hs x (mem_toFinset.mp hx))
    _ = 2 ^ r.size := by
        rw [Set.encard_coe_eq_coe_finsetCard, Finset.card_powerset, card_toFinset]
        norm_cast

/-- Distinct lists of the members of sets from a family are at most as many as the family. -/
theorem length_le_encard {X : Set StateSet} {L : List (List State)} (hL : L.Nodup)
    (hX : ∀ t ∈ L, ∃ s ∈ X, s.toList = t) : (L.length : ℕ∞) ≤ X.encard :=
  length_le_encard_of_injective toList_injective hL hX

end StateSet

end BitAutomata
