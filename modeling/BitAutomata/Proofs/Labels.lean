import Mathlib.Algebra.Group.Nat.Defs
import Mathlib.Data.List.Induction
import Mathlib.Data.Finset.Card
import Mathlib.Data.List.Nodup
import BitAutomata.Proofs.Keys

/-!
# Labels over a list of variables

A label is edited one variable at a time: putting a value at a variable the label does not
assign and erasing it again gives the label back, so extending distinct labels gives distinct
labels (`Label.insert_inj_of_not_mem`).

`Label.all vs` doubles its list at every variable of `vs`, each label so far followed by its
extension with `false`, then with `true`. Over distinct variables it lists exactly the labels
that assign the variables of `vs` and no others (`Label.mem_all_iff`), each once, so there are
`2 ^ vs.length` of them and their keys are distinct (`Label.all_lists_each_total_label_once`).
A label matches an alphabet exactly when it assigns the alphabet's variables
(`Label.hasDomain_iff`); completion takes the labels it must fill from this list.
-/

namespace BitAutomata

open Std

namespace Label

variable {l l' : Label} {v : Var} {x x' : Bool}

/-! ### Editing one variable -/

theorem erase_insert_of_not_mem (h : v ∉ l) : (l.insert v x).erase v = l := by
  apply ExtTreeMap.ext_getElem?
  intro u
  rw [ExtTreeMap.getElem?_erase, ExtTreeMap.getElem?_insert]
  simp only [Std.compare_eq_iff_eq]
  by_cases hu : v = u
  · subst hu
    rw [if_pos rfl, ExtTreeMap.getElem?_eq_none h]
  · rw [if_neg hu, if_neg hu]

theorem getElem?_insert_self : (l.insert v x)[v]? = some x := by
  rw [ExtTreeMap.getElem?_insert]
  simp

/-- Extending labels that do not assign `v` by a value for `v` loses nothing. -/
theorem insert_inj_of_not_mem (hl : v ∉ l) (hl' : v ∉ l') (h : l.insert v x = l'.insert v x') :
    l = l' ∧ x = x' := by
  constructor
  · rw [← erase_insert_of_not_mem (x := x) hl, ← erase_insert_of_not_mem (x := x') hl', h]
  · have hGet := congrArg (·[v]?) h
    simpa [getElem?_insert_self] using hGet

/-- A label assigning `v` is the label without `v` with the value of `v` put back. -/
theorem insert_erase_getElem {l : Label} {v : Var} (hv : v ∈ l) : (l.erase v).insert v l[v] = l := by
  apply ExtTreeMap.ext_getElem?
  intro u
  rw [ExtTreeMap.getElem?_insert, ExtTreeMap.getElem?_erase]
  simp only [Std.compare_eq_iff_eq]
  by_cases hu : v = u
  · subst hu
    rw [if_pos rfl, ExtTreeMap.getElem?_eq_some_getElem hv]
  · rw [if_neg hu, if_neg hu]

/-! ### Every total label, once -/

theorem all_append_singleton (vs : List Var) (v : Var) :
    all (vs ++ [v]) = (all vs).flatMap fun l => [l.insert v false, l.insert v true] := by
  rw [all, List.foldl_append]
  rfl

/-- Each variable doubles the list. -/
theorem length_all (vs : List Var) : (all vs).length = 2 ^ vs.length := by
  induction vs using List.reverseRecOn with
  | nil => rfl
  | append_singleton vs v ih =>
    rw [all_append_singleton, List.length_flatMap, List.length_append, List.length_singleton,
      pow_succ, ← ih]
    simp only [List.length_cons, List.length_nil, List.map_const', List.sum_replicate_nat]

/-- Over distinct variables, `all vs` lists exactly the labels that assign the variables of `vs`
and no others. -/
theorem mem_all_iff {vs : List Var} (hvs : vs.Nodup) {l : Label} :
    l ∈ all vs ↔ ∀ v, v ∈ l ↔ v ∈ vs := by
  induction vs using List.reverseRecOn generalizing l with
  | nil =>
    simp only [all, List.foldl_nil, List.mem_singleton, List.not_mem_nil, iff_false]
    exact ExtTreeMap.eq_empty_iff_forall_not_mem
  | append_singleton vs v ih =>
    obtain ⟨hvs', hvNew⟩ : vs.Nodup ∧ ∀ u ∈ vs, u ≠ v := by
      simpa [List.nodup_append] using hvs
    have hv : v ∉ vs := fun hMem => hvNew v hMem rfl
    rw [all_append_singleton, List.mem_flatMap]
    constructor
    · rintro ⟨l', hl', hl⟩
      -- `l` is a label over `vs` with a value put at `v`.
      have hVars := (ih hvs').mp hl'
      obtain ⟨b, rfl⟩ : ∃ b, l = l'.insert v b := by
        simp only [List.mem_cons, List.not_mem_nil, or_false] at hl
        rcases hl with rfl | rfl
        · exact ⟨false, rfl⟩
        · exact ⟨true, rfl⟩
      intro u
      rw [ExtTreeMap.mem_insert, Std.compare_eq_iff_eq, hVars, List.mem_append,
        List.mem_singleton, eq_comm, or_comm]
    · intro hVars
      have hvl : v ∈ l := (hVars v).mpr (by simp)
      -- Erasing `v` gives a label over `vs`; putting its value back gives `l`.
      refine ⟨l.erase v, (ih hvs').mpr fun u => ?_, ?_⟩
      · rw [ExtTreeMap.mem_erase, ne_eq, Std.compare_eq_iff_eq, hVars, List.mem_append,
          List.mem_singleton]
        constructor
        · rintro ⟨hvu, hu | rfl⟩
          · exact hu
          · exact absurd rfl hvu
        · intro hu
          exact ⟨fun hvu => hv (hvu ▸ hu), Or.inl hu⟩
      · have hBack := insert_erase_getElem hvl
        cases hb : l[v] <;> rw [hb] at hBack <;> simp [hBack]

/-- Over distinct variables no label is listed twice: the two extensions of a label differ at
the new variable, and extensions of distinct labels, none of which assigns it, stay distinct. -/
theorem nodup_all {vs : List Var} (hvs : vs.Nodup) : (all vs).Nodup := by
  induction vs using List.reverseRecOn with
  | nil => exact List.nodup_singleton ∅
  | append_singleton vs v ih =>
    obtain ⟨hvs', hvNew⟩ : vs.Nodup ∧ ∀ u ∈ vs, u ≠ v := by
      simpa [List.nodup_append] using hvs
    have hFree : ∀ l ∈ all vs, v ∉ l := fun l hl hv =>
      hvNew v (((mem_all_iff hvs').mp hl v).mp hv) rfl
    -- A member of a label's two extensions is that label with some value at `v`.
    have hExt : ∀ {l e : Label}, e ∈ [l.insert v false, l.insert v true] →
        ∃ b, e = l.insert v b := by
      intro l e he
      simp only [List.mem_cons, List.not_mem_nil, or_false] at he
      rcases he with rfl | rfl
      · exact ⟨false, rfl⟩
      · exact ⟨true, rfl⟩
    rw [all_append_singleton, List.nodup_flatMap]
    refine ⟨fun l hl => ?_, (ih hvs').imp_of_mem fun {l l'} hl hl' hNe => ?_⟩
    · have hBits : l.insert v false ≠ l.insert v true := fun h => by
        simpa using (insert_inj_of_not_mem (hFree l hl) (hFree l hl) h).2
      simpa using hBits
    · intro e he he'
      obtain ⟨b, rfl⟩ := hExt he
      obtain ⟨b', hb'⟩ := hExt he'
      exact hNe (insert_inj_of_not_mem (hFree l hl) (hFree l' hl') hb').1

/-- A label's domain is the set of a list of variables iff it assigns exactly those. -/
theorem domain_eq_ofList_iff {l : Label} {vs : List Var} :
    l.domain = ExtTreeSet.ofList vs ↔ ∀ v, v ∈ l ↔ v ∈ vs := by
  constructor
  · intro h v
    rw [← mem_domain, h, ExtTreeSet.mem_ofList]
    simp
  · intro h
    apply ExtTreeSet.ext_mem
    intro v
    rw [mem_domain, h, ExtTreeSet.mem_ofList]
    simp

/-- Over distinct variables, `all vs` lists every label whose domain is exactly the variables of
`vs`, and each once: `2 ^ vs.length` labels with distinct keys. Over no variables that is the
empty label alone. -/
theorem all_lists_each_total_label_once {vs : List Var} (hvs : vs.Nodup) :
    (all vs).length = 2 ^ vs.length ∧ ((all vs).map key).Nodup ∧
      ∀ l : Label, l ∈ all vs ↔ l.domain = ExtTreeSet.ofList vs := by
  refine ⟨length_all vs, (nodup_all hvs).map key_injective, fun l => ?_⟩
  rw [mem_all_iff hvs, domain_eq_ofList_iff]

/-- The theorem over the variables `3, 0, 7`, given out of order. -/
theorem all_lists_each_total_label_once_out_of_order :
    ([3, 0, 7] : List Var).Nodup ∧
      ((all [3, 0, 7]).length = 2 ^ 3 ∧ ((all [3, 0, 7]).map key).Nodup ∧
        ∀ l : Label, l ∈ all [3, 0, 7] ↔ l.domain = ExtTreeSet.ofList ([3, 0, 7] : List Var)) :=
  ⟨by decide, all_lists_each_total_label_once (by decide)⟩

/-! ### Labels that match an alphabet -/

/-- The variables of an alphabet are listed once each. -/
theorem nodup_toList_vars (vs : VarSet) : vs.toList.Nodup :=
  ExtTreeSet.distinct_toList.imp fun hNe hEq => hNe (Std.compare_eq_iff_eq.mpr hEq)

/-- A label matches an alphabet exactly when it assigns the alphabet's variables and no others.
Counting is what makes one-way membership enough: the keys of a label are distinct, so a label
with as many keys as the alphabet, all in the alphabet, has every variable of the alphabet. -/
theorem hasDomain_iff {l : Label} {vs : VarSet} : l.hasDomain vs = true ↔ ∀ v, v ∈ l ↔ v ∈ vs := by
  have hVars : vs.toList.toFinset.card = vs.size := by
    rw [List.toFinset_card_of_nodup (nodup_toList_vars vs), ExtTreeSet.length_toList]
  have hKeys : l.keys.toFinset.card = l.size := by
    rw [List.toFinset_card_of_nodup ExtTreeMap.nodup_keys, ExtTreeMap.length_keys]
  simp only [hasDomain, Bool.and_eq_true, beq_iff_eq, List.all_eq_true, ExtTreeMap.mem_keys,
    ExtTreeSet.contains_iff_mem]
  constructor
  · rintro ⟨hSize, hSub⟩ v
    have hSame : l.keys.toFinset = vs.toList.toFinset := by
      refine Finset.eq_of_subset_of_card_le (fun u hu => ?_) (by rw [hVars, hKeys, hSize])
      rw [List.mem_toFinset, ExtTreeMap.mem_keys] at hu
      exact List.mem_toFinset.mpr (ExtTreeSet.mem_toList.mpr (hSub u hu))
    have hMem := congrArg (v ∈ ·) hSame
    simpa only [List.mem_toFinset, ExtTreeMap.mem_keys, ExtTreeSet.mem_toList, eq_iff_iff] using hMem
  · intro h
    have hSame : l.keys.toFinset = vs.toList.toFinset := by
      ext v
      rw [List.mem_toFinset, List.mem_toFinset, ExtTreeMap.mem_keys, ExtTreeSet.mem_toList, h]
    refine ⟨?_, fun v hv => (h v).mp hv⟩
    rw [← hKeys, ← hVars, hSame]

/-- Completion enumerates exactly the labels over the alphabet. -/
theorem mem_all_toList_iff {l : Label} {vs : VarSet} : l ∈ all vs.toList ↔ l.hasDomain vs = true := by
  rw [mem_all_iff (nodup_toList_vars vs), hasDomain_iff]
  simp only [ExtTreeSet.mem_toList]

end Label

end BitAutomata
