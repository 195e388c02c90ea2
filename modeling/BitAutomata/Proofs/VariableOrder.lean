import BitAutomata.Proofs.Filled

/-!
# Variables added or projected in either order

Projecting a variable away files the targets of each arc under its label without the variable,
so projecting two variables files them under the label without both, whichever goes first
(`Arcs.forget_comm`). Adding a variable writes each arc under its label with the variable set
either way; where no label assigns either of two different variables, no writes collide, and
adding both files each arc's targets under the four labels with both set, whichever goes first
(`Arcs.extend_comm`). Each operation leaves an automaton alone when the variable is not, or is
already, in the alphabet, and it never changes whether another variable is there; hence projecting
commutes on whole automata (`project_comm`), and so does adding variables that are in the
alphabet or in no label (`Automaton.SplitsApart`, `addVar_comm`). Adding one such variable keeps
the others such (`SplitsApart.addVar`), so a list of them gives the same automaton in every order
(`foldl_addVar_perm`), whatever order each pass visits arcs in.
-/

namespace BitAutomata

open Std

namespace Label

variable {l : Label} {u v : Var} {x y : Bool}

theorem erase_erase_comm : (l.erase u).erase v = (l.erase v).erase u := by
  apply ExtTreeMap.ext_getElem?
  intro w
  simp only [ExtTreeMap.getElem?_erase, Std.compare_eq_iff_eq]
  by_cases hu : u = w <;> by_cases hv : v = w <;> simp [hu, hv]

theorem insert_insert_comm (h : u ≠ v) : (l.insert u x).insert v y = (l.insert v y).insert u x := by
  apply ExtTreeMap.ext_getElem?
  intro w
  simp only [ExtTreeMap.getElem?_insert, Std.compare_eq_iff_eq]
  by_cases hu : u = w <;> by_cases hv : v = w
  · exact absurd (hu.trans hv.symm) h
  all_goals simp [hu, hv]

end Label

namespace Move

variable {m : Move} {u v : Var} {x y : Bool}

theorem forgetVar_comm : (m.forgetVar u).forgetVar v = (m.forgetVar v).forgetVar u := by
  rcases eq_epsilon_or_eq_label m with rfl | ⟨l, rfl⟩
  · rfl
  · simp [Label.erase_erase_comm]

theorem assignVar_comm (h : u ≠ v) :
    (m.assignVar u x).assignVar v y = (m.assignVar v y).assignVar u x := by
  rcases eq_epsilon_or_eq_label m with rfl | ⟨l, rfl⟩
  · rfl
  · simp [Label.insert_insert_comm h]

end Move

namespace Arcs

variable {arcs : Arcs} {m : Move} {t : State} {u v : Var} {ts : StateSet}

theorem mem_targets_forget_forget :
    t ∈ ((arcs.forget u).forget v).targets m ↔
      ∃ m₀, (m₀.forgetVar u).forgetVar v = m ∧ t ∈ arcs.targets m₀ := by
  simp only [mem_targets_forget]
  constructor
  · rintro ⟨m₁, rfl, m₀, rfl, ht⟩
    exact ⟨m₀, rfl, ht⟩
  · rintro ⟨m₀, rfl, ht⟩
    exact ⟨m₀.forgetVar u, rfl, m₀, rfl, ht⟩

/-- Splitting on `u` keeps `v` out of every label when no label assigned it. -/
theorem not_mem_label_extend (hv : ∀ l, Move.label l ∈ arcs → v ∉ l) (h : u ≠ v) :
    ∀ l, Move.label l ∈ arcs.extend u → v ∉ l := by
  intro l hl hvl
  obtain ⟨e, he, x, hx⟩ := mem_splitIn_sound hl
  obtain ⟨l₀, hl₀, rfl⟩ := Move.assignVar_eq_label_iff.mp hx
  rcases ExtTreeMap.mem_insert.mp hvl with hEq | hIn
  · exact h (Std.compare_eq_iff_eq.mp hEq)
  · exact hv l₀ (hl₀ ▸ mem_of_mem_toList he) hIn

/-- Splitting on two different variables that no label assigns, a move holds the targets of the
one arc that the two splits lead to it from. -/
theorem getElem?_extend_extend (hu : ∀ l, Move.label l ∈ arcs → u ∉ l)
    (hv : ∀ l, Move.label l ∈ arcs → v ∉ l) (h : u ≠ v) :
    ((arcs.extend u).extend v)[m]? = some ts ↔
      ∃ m₀ x y, (m₀.assignVar u x).assignVar v y = m ∧ (m₀, ts) ∈ arcs.toList := by
  have hSplit : ∀ m₁, (arcs.extend u)[m₁]? = some ts ↔
      ∃ m₀ x, m₀.assignVar u x = m₁ ∧ (m₀, ts) ∈ arcs.toList :=
    fun _ => getElem?_splitIn_eq_some (List.Perm.refl _) (SplitsApart.of_not_mem_label hu)
  rw [extend, getElem?_splitIn_eq_some (List.Perm.refl _)
    (SplitsApart.of_not_mem_label (not_mem_label_extend hv h))]
  constructor
  · rintro ⟨m₁, y, rfl, hMem⟩
    obtain ⟨m₀, x, rfl, hMem₀⟩ := (hSplit _).mp (ExtTreeMap.mem_toList_iff_getElem?_eq_some.mp hMem)
    exact ⟨m₀, x, y, rfl, hMem₀⟩
  · rintro ⟨m₀, x, y, rfl, hMem₀⟩
    exact ⟨m₀.assignVar u x, y, rfl,
      ExtTreeMap.mem_toList_iff_getElem?_eq_some.mpr ((hSplit _).mpr ⟨m₀, x, rfl, hMem₀⟩)⟩

/-- Projecting two variables away merges the same arcs in either order. -/
theorem forget_comm (arcs : Arcs) (u v : Var) : (arcs.forget u).forget v = (arcs.forget v).forget u := by
  refine filled_forget.ext filled_forget fun m => ExtTreeSet.ext_mem fun t => ?_
  simp only [mem_targets_forget_forget, Move.forgetVar_comm]

/-- Adding two different variables that no label assigns splits each label arc into the same
four arcs in either order. -/
theorem extend_comm (h : u ≠ v) (hu : ∀ l, Move.label l ∈ arcs → u ∉ l)
    (hv : ∀ l, Move.label l ∈ arcs → v ∉ l) :
    (arcs.extend u).extend v = (arcs.extend v).extend u := by
  refine ExtTreeMap.ext_getElem? fun m => Option.ext fun ts => ?_
  rw [getElem?_extend_extend hu hv h, getElem?_extend_extend hv hu (Ne.symm h)]
  simp only [Move.assignVar_comm h]
  constructor
  · rintro ⟨m₀, x, y, hm, hMem⟩
    exact ⟨m₀, y, x, hm, hMem⟩
  · rintro ⟨m₀, y, x, hm, hMem⟩
    exact ⟨m₀, x, y, hm, hMem⟩

end Arcs

namespace Automaton

variable {a : Automaton} {u v : Var}

theorem mem_alphabet_project (h : u ≠ v) : v ∈ (a.project u).alphabet ↔ v ∈ a.alphabet := by
  by_cases hu : u ∈ a.alphabet
  · rw [alphabet_project hu, ExtTreeSet.mem_erase, Ne, Std.compare_eq_iff_eq]
    exact and_iff_right h
  · rw [project_of_not_mem hu]

theorem mem_alphabet_addVar_of_ne (h : u ≠ v) : v ∈ (a.addVar u).alphabet ↔ v ∈ a.alphabet := by
  by_cases hu : u ∈ a.alphabet
  · rw [addVar_of_mem hu]
  · rw [alphabet_addVar hu, ExtTreeSet.mem_insert, Std.compare_eq_iff_eq]
    exact or_iff_right h

/-- Projecting two variables away gives the same automaton in either order. -/
theorem project_comm (a : Automaton) (u v : Var) :
    (a.project u).project v = (a.project v).project u := by
  by_cases hEq : u = v
  · rw [hEq]
  -- A variable outside the alphabet is projected away by doing nothing, before or after the other.
  by_cases hv : v ∈ a.alphabet
  · by_cases hu : u ∈ a.alphabet
    · have hv' : v ∈ (a.project u).alphabet := (mem_alphabet_project hEq).mpr hv
      have hu' : u ∈ (a.project v).alphabet := (mem_alphabet_project (Ne.symm hEq)).mpr hu
      rw [project_of_mem hv', project_of_mem hu', project_of_mem hu, project_of_mem hv]
      simp only [ExtTreeMap.map_map, Arcs.forget_comm _ u v]
      congr 1
      exact ExtTreeSet.ext_mem fun w => by simp only [ExtTreeSet.mem_erase]; tauto
    · have hu' : u ∉ (a.project v).alphabet := mt (mem_alphabet_project (Ne.symm hEq)).mp hu
      rw [project_of_not_mem hu', project_of_not_mem hu]
  · have hv' : v ∉ (a.project u).alphabet := mt (mem_alphabet_project hEq).mp hv
    rw [project_of_not_mem hv', project_of_not_mem hv]

/-- Adding `v` keeps adding `u` apart: the labels gain `v` and nothing else. -/
theorem SplitsApart.addVar (hu : a.SplitsApart u) (v : Var) : (a.addVar v).SplitsApart u := by
  intro huA s l hl
  have huA₀ : u ∉ a.alphabet := fun h => huA (by
    by_cases hv : v ∈ a.alphabet
    · rwa [addVar_of_mem hv]
    · rw [alphabet_addVar hv]
      exact ExtTreeSet.mem_insert.mpr (Or.inr h))
  by_cases hv : v ∈ a.alphabet
  · rw [addVar_of_mem hv] at hl
    exact hu huA₀ s l hl
  · have hEq : v ≠ u := fun hvu => huA (by
      rw [alphabet_addVar hv, hvu]
      exact ExtTreeSet.mem_insert_self)
    rw [arcs_addVar hv] at hl
    exact Arcs.not_mem_label_extend (hu huA₀ s) hEq l hl

/-- Adding two variables that each split arcs apart gives the same automaton in either order. -/
theorem addVar_comm (hu : a.SplitsApart u) (hv : a.SplitsApart v) :
    (a.addVar u).addVar v = (a.addVar v).addVar u := by
  by_cases hEq : u = v
  · rw [hEq]
  -- A variable already in the alphabet is added by doing nothing, before or after the other.
  by_cases hvA : v ∈ a.alphabet
  · have hv' : v ∈ (a.addVar u).alphabet := (mem_alphabet_addVar_of_ne hEq).mpr hvA
    rw [addVar_of_mem hv', addVar_of_mem hvA]
  · by_cases huA : u ∈ a.alphabet
    · have hu' : u ∈ (a.addVar v).alphabet := (mem_alphabet_addVar_of_ne (Ne.symm hEq)).mpr huA
      rw [addVar_of_mem hu', addVar_of_mem huA]
    · have hv' : v ∉ (a.addVar u).alphabet := mt (mem_alphabet_addVar_of_ne hEq).mp hvA
      have hu' : u ∉ (a.addVar v).alphabet := mt (mem_alphabet_addVar_of_ne (Ne.symm hEq)).mp huA
      rw [addVar_of_not_mem hv', addVar_of_not_mem hu', addVar_of_not_mem huA,
        addVar_of_not_mem hvA]
      simp only [ExtTreeMap.map_map]
      congr 1
      · exact Table.map_congr_arcs fun s => Arcs.extend_comm hEq (hu huA s) (hv hvA s)
      · exact ExtTreeSet.ext_mem fun w => by simp only [ExtTreeSet.mem_insert]; tauto

/-- Adding a list of variables that each split arcs apart gives the same automaton in every
order of the list. -/
theorem foldl_addVar_perm {vs ws : List Var} (h : vs.Perm ws) (a : Automaton)
    (hApart : ∀ v ∈ vs, a.SplitsApart v) : vs.foldl addVar a = ws.foldl addVar a := by
  -- Induction on the permutation; each variable added keeps the others apart.
  induction h generalizing a with
  | nil => rfl
  | cons x _ ih =>
    exact ih (a.addVar x) fun v hv => (hApart v (List.mem_cons_of_mem x hv)).addVar x
  | swap x y l =>
    rw [List.foldl_cons, List.foldl_cons, List.foldl_cons, List.foldl_cons,
      addVar_comm (hApart y List.mem_cons_self)
        (hApart x (List.mem_cons_of_mem y List.mem_cons_self))]
  | trans h₁₂ _ ih₁ ih₂ =>
    exact (ih₁ a hApart).trans (ih₂ a fun v hv => hApart v (h₁₂.mem_iff.mpr hv))

/-- Adding a list of variables that each split arcs apart, each pass visiting arcs in its own
order, gives the automaton of the passes in key order. -/
theorem foldl_addVarIn_eq (o : Var → MapOrder) (vs : List Var) (a : Automaton)
    (hApart : ∀ v ∈ vs, a.SplitsApart v) :
    vs.foldl (fun b v => b.addVarIn (o v) v) a = vs.foldl addVar a := by
  induction vs generalizing a with
  | nil => rw [List.foldl_nil, List.foldl_nil]
  | cons v vs ih =>
    rw [List.foldl_cons, List.foldl_cons, (hApart v List.mem_cons_self).addVarIn_eq_addVar]
    exact ih _ fun w hw => (hApart w (List.mem_cons_of_mem v hw)).addVar v

/-- Projecting away two variables gives the same automaton in either order. Adding two
variables, each already in the alphabet or assigned by no label, gives the same automaton in
either order, whatever order each pass visits arcs in. Hence, when every variable of another
automaton's alphabet is in the alphabet or assigned by no label, adding them builds the same
automaton in whatever order the variables are added and the arcs visited. -/
theorem project_and_addVar_commute (a other : Automaton) (u v : Var) :
    (a.project u).project v = (a.project v).project u ∧
      (a.SplitsApart u → a.SplitsApart v → ∀ o₁ o₂ o₃ o₄ : MapOrder,
        (a.addVarIn o₁ u).addVarIn o₂ v = (a.addVarIn o₃ v).addVarIn o₄ u) ∧
      ((∀ w ∈ other.alphabet, a.SplitsApart w) → ∀ (vs : List Var) (o : Var → MapOrder),
        vs.Perm other.alphabet.toList →
          vs.foldl (fun b w => b.addVarIn (o w) w) a = a.addVarsOf other) := by
  refine ⟨project_comm a u v, fun hu hv o₁ o₂ o₃ o₄ => ?_, fun hOther vs o hPerm => ?_⟩
  · rw [hu.addVarIn_eq_addVar, (hv.addVar u).addVarIn_eq_addVar, hv.addVarIn_eq_addVar,
      (hu.addVar v).addVarIn_eq_addVar]
    exact addVar_comm hu hv
  · have hApart : ∀ w ∈ vs, a.SplitsApart w :=
      fun w hw => hOther w (ExtTreeSet.mem_toList.mp (hPerm.mem_iff.mp hw))
    rw [foldl_addVarIn_eq o vs a hApart]
    exact foldl_addVar_perm hPerm a hApart

/-- The theorem at a valid automaton with two label arcs and a silent arc, projected and extended
by its own variable and a new one with passes in either key order, and with the variables of
another automaton added in descending order. -/
theorem project_and_addVar_commute_beside_silent_arc :
    let a := (((((Automaton.empty {}).addState 0).addState 1).addTransition 0
      ((∅ : Label).insert 0 true) 1).addTransition 0 ((∅ : Label).insert 0 false) 0).addEpsilon 1 0
    let other := ((Automaton.empty {}).addState 0).addTransition 0
      (((∅ : Label).insert 1 true).insert 2 false) 0
    (a.project 0).project 2 = (a.project 2).project 0 ∧
      (a.addVarIn .byKeyDesc 0).addVarIn .byKey 2 = (a.addVarIn .byKey 2).addVarIn .byKeyDesc 0 ∧
      [2, 1].Perm other.alphabet.toList ∧
      [2, 1].foldl (fun b w => b.addVarIn .byKeyDesc w) a = a.addVarsOf other := by
  intro a other
  obtain ⟨hProject, hAdd, hOrder⟩ := project_and_addVar_commute a other 0 2
  have hWF : a.WellFormed := validate_eq_none_iff.mp (by decide)
  have hPerm : [2, 1].Perm other.alphabet.toList := by decide
  exact ⟨hProject, hAdd (hWF.splitsApart 0) (hWF.splitsApart 2) _ _ _ _, hPerm,
    hOrder (fun w _ => hWF.splitsApart w) _ (fun _ => .byKeyDesc) hPerm⟩

end Automaton

end BitAutomata
