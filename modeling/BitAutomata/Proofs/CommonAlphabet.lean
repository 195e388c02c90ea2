import BitAutomata.Proofs.Session

/-!
# A common alphabet for two automata

Adding another automaton's variables to the alphabet (`addVarsOf`) adds them one at a time. A
valid automaton assigns its alphabet in every label, so each variable added is assigned by no label
yet, also after the variables added before it. Afterwards the automaton reads a letter over the
union of the two alphabets as it read that letter restricted to its own alphabet
(`mem_reach_addVarsOf`), and its alphabet is the union (`alphabet_addVarsOf`).

Growing each of two valid automata by the other's variables, in turn, gives both the union as
alphabet. The product of the grown automata then accepts a word over the union exactly when the
first automaton accepts the word restricted to its variables and the second the word restricted
to its own (`common_alphabet_product_reads_both`).
-/

namespace BitAutomata

open Std

namespace Label

variable {l : Label} {v u : Var} {vs : VarSet}

/-- The assignments of a label to the variables of a set. -/
def restrict (l : Label) (vs : VarSet) : Label :=
  l.filter fun v _ => vs.contains v

theorem getElem?_restrict : (l.restrict vs)[u]? = if u ∈ vs then l[u]? else none := by
  rw [restrict, ExtTreeMap.getElem?_filter']
  cases l[u]? with
  | none => simp
  | some b => by_cases hu : u ∈ vs <;> simp [Option.filter_some, hu, ExtTreeSet.contains_iff_mem]

@[simp]
theorem mem_restrict : u ∈ l.restrict vs ↔ u ∈ l ∧ u ∈ vs := by
  rw [ExtTreeMap.mem_iff_isSome_getElem?, getElem?_restrict, ExtTreeMap.mem_iff_isSome_getElem?]
  by_cases hu : u ∈ vs <;> simp [hu]

/-- Restricting to variables that hold all the label assigns keeps the label. -/
theorem restrict_eq_self (h : ∀ u ∈ l, u ∈ vs) : l.restrict vs = l := by
  apply ExtTreeMap.ext_getElem?
  intro u
  rw [getElem?_restrict]
  by_cases hu : u ∈ vs
  · rw [if_pos hu]
  · rw [if_neg hu, ExtTreeMap.getElem?_eq_none fun hMem => hu (h u hMem)]

/-- Restricting to one variable more and then erasing it is restricting without it. -/
theorem restrict_insert_erase (hv : v ∉ vs) : (l.restrict (vs.insert v)).erase v = l.restrict vs := by
  apply ExtTreeMap.ext_getElem?
  intro u
  rw [ExtTreeMap.getElem?_erase, getElem?_restrict, getElem?_restrict]
  by_cases hu : v = u
  · subst hu
    simp [hv]
  · have hMem : u ∈ vs.insert v ↔ u ∈ vs := by
      rw [ExtTreeSet.mem_insert, Std.compare_eq_iff_eq]
      simp [hu]
    simp [hu, hMem]

end Label

namespace Automaton

variable {a b : Automaton} {v u : Var} {w : List Label} {y : State}

theorem mem_alphabet_addVar : u ∈ (a.addVar v).alphabet ↔ u ∈ a.alphabet ∨ u = v := by
  by_cases hv : v ∈ a.alphabet
  · rw [addVar_of_mem hv]
    constructor
    · exact Or.inl
    · rintro (hu | rfl)
      · exact hu
      · exact hv
  · rw [alphabet_addVar hv, ExtTreeSet.mem_insert, Std.compare_eq_iff_eq, eq_comm, or_comm]

theorem mem_alphabet_foldl_addVar (vs : List Var) :
    u ∈ (vs.foldl addVar a).alphabet ↔ u ∈ a.alphabet ∨ u ∈ vs := by
  induction vs generalizing a with
  | nil => simp
  | cons v vs ih =>
    rw [List.foldl_cons, ih, mem_alphabet_addVar, List.mem_cons]
    tauto

/-- Growing the alphabet by another automaton's gives the union of the two. -/
theorem alphabet_addVarsOf : (a.addVarsOf b).alphabet = a.alphabet ∪ b.alphabet := by
  apply ExtTreeSet.ext_mem
  intro u
  rw [addVarsOf, mem_alphabet_foldl_addVar, ExtTreeSet.mem_union_iff, ExtTreeSet.mem_toList]

/-- Growing the second automaton by the grown first one gives it the same union. -/
theorem alphabet_addVarsOf_addVarsOf :
    (b.addVarsOf (a.addVarsOf b)).alphabet = a.alphabet ∪ b.alphabet := by
  apply ExtTreeSet.ext_mem
  intro u
  simp only [alphabet_addVarsOf, ExtTreeSet.mem_union_iff]
  tauto

theorem states_foldl_addVar (vs : List Var) : (vs.foldl addVar a).states = a.states := by
  induction vs generalizing a with
  | nil => rfl
  | cons v vs ih => rw [List.foldl_cons, ih, states_addVar]

theorem final_foldl_addVar (vs : List Var) : (vs.foldl addVar a).final = a.final := by
  induction vs generalizing a with
  | nil => rfl
  | cons v vs ih => rw [List.foldl_cons, ih, final_addVar]

theorem states_addVarsOf : (a.addVarsOf b).states = a.states :=
  states_foldl_addVar _

theorem final_addVarsOf : (a.addVarsOf b).final = a.final :=
  final_foldl_addVar _

/-- Growing a well-formed automaton's alphabet variable by variable, a word whose letters assign
exactly the old and the new variables is read as the word restricted to the old alphabet. -/
theorem mem_reach_foldl_addVar (hWF : a.WellFormed) (vs : List Var)
    (hw : ∀ l ∈ w, ∀ u, u ∈ l ↔ u ∈ a.alphabet ∨ u ∈ vs) :
    y ∈ (vs.foldl addVar a).reach w ↔ y ∈ a.reach (w.map (·.restrict a.alphabet)) := by
  induction vs generalizing a with
  | nil =>
    -- Every letter assigns exactly the alphabet, so restricting it changes nothing.
    have hSame : w.map (·.restrict a.alphabet) = w :=
      calc w.map (·.restrict a.alphabet) = w.map id := List.map_congr_left fun l hl =>
            Label.restrict_eq_self fun u hu => ((hw l hl u).mp hu).resolve_right List.not_mem_nil
        _ = w := List.map_id w
    rw [List.foldl_nil, hSame]
  | cons v vs ih =>
    have hw' : ∀ l ∈ w, ∀ u, u ∈ l ↔ u ∈ (a.addVar v).alphabet ∨ u ∈ vs := by
      intro l hl u
      rw [hw l hl u, mem_alphabet_addVar, List.mem_cons]
      tauto
    rw [List.foldl_cons, ih (wellFormed_addVar hWF) hw']
    by_cases hv : v ∈ a.alphabet
    · rw [addVar_of_mem hv]
    · -- Every letter assigns the new variable, and erasing it leaves the old restriction.
      have hAssigned : ∀ l ∈ w.map (·.restrict (a.alphabet.insert v)), v ∈ l := by
        intro l hl
        obtain ⟨l₀, hl₀, rfl⟩ := List.mem_map.mp hl
        exact Label.mem_restrict.mpr
          ⟨(hw l₀ hl₀ v).mpr (Or.inr List.mem_cons_self), ExtTreeSet.mem_insert_self⟩
      have hErase : (w.map (·.restrict (a.alphabet.insert v))).map (·.erase v) =
          w.map (·.restrict a.alphabet) := by
        rw [List.map_map]
        exact List.map_congr_left fun l _ => Label.restrict_insert_erase hv
      rw [alphabet_addVar hv, mem_reach_addVar_iff hv (hWF.not_mem_label hv), hErase]
      exact and_iff_right hAssigned

/-- After growing a well-formed automaton's alphabet by another automaton's, a word whose letters
assign exactly the union of the two alphabets is read as the word restricted to the old
alphabet. -/
theorem mem_reach_addVarsOf (hWF : a.WellFormed)
    (hw : ∀ l ∈ w, l.hasDomain (a.alphabet ∪ b.alphabet) = true) :
    y ∈ (a.addVarsOf b).reach w ↔ y ∈ a.reach (w.map (·.restrict a.alphabet)) :=
  mem_reach_foldl_addVar hWF _ fun l hl u => by
    rw [Label.hasDomain_iff.mp (hw l hl) u, ExtTreeSet.mem_union_iff, ExtTreeSet.mem_toList]

theorem accepts_run_addVarsOf (hWF : a.WellFormed)
    (hw : ∀ l ∈ w, l.hasDomain (a.alphabet ∪ b.alphabet) = true) :
    ((a.addVarsOf b).run w).accepts = (a.run (w.map (·.restrict a.alphabet))).accepts := by
  rw [Bool.eq_iff_iff, accepts_run_iff, accepts_run_iff, final_addVarsOf]
  simp only [mem_reach_addVarsOf hWF hw]

/-- Two well-formed automata reach on common words at most as many pairs as they have pairs of
states. -/
theorem WellFormed.encard_pairRuns_le {x : Automaton} (hx : x.WellFormed) (hy : b.WellFormed) :
    (x.pairRuns b).encard ≤ (x.states.size * b.states.size : ℕ) := by
  have hSub : x.pairRuns b ⊆ (x.states.toFinset ×ˢ b.states.toFinset : Finset _) := by
    rintro ⟨p, q⟩ ⟨w, hp, hq⟩
    simp only [Finset.coe_product, Set.mem_prod, Finset.mem_coe, StateSet.mem_toFinset]
    exact ⟨hx.mem_states_of_mem_reach hp, hy.mem_states_of_mem_reach hq⟩
  calc (x.pairRuns b).encard
      ≤ ((x.states.toFinset ×ˢ b.states.toFinset : Finset _) : Set (State × State)).encard :=
        Set.encard_le_encard hSub
    _ = (x.states.size * b.states.size : ℕ) := by
        rw [Set.encard_coe_eq_coe_finsetCard, Finset.card_product, StateSet.card_toFinset,
          StateSet.card_toFinset]

/-- Growing each of two valid automata by the other's variables, first the one and then the
other, gives both the union of their alphabets; so does the product of the two grown automata.
All three are valid, and the product accepts a word whose letters assign exactly the union when
the first automaton accepts the word restricted to its variables and the second the word
restricted to its own, and only then. Pair states are 64-bit numbers, so the two automata are
taken to have at most `2 ^ 64` pairs of states. -/
theorem common_alphabet_product_reads_both {a₀ b₀ : Automaton} (hA : a₀.validate = none)
    (hB : b₀.validate = none) (hCap : a₀.states.size * b₀.states.size ≤ 2 ^ 64)
    (recv : Automaton) :
    let a := a₀.addVarsOf b₀
    let b := b₀.addVarsOf a
    let c := recv.intersect a b
    a.alphabet = a₀.alphabet ∪ b₀.alphabet ∧ b.alphabet = a₀.alphabet ∪ b₀.alphabet ∧
      c.alphabet = a₀.alphabet ∪ b₀.alphabet ∧
      a.validate = none ∧ b.validate = none ∧ c.validate = none ∧
      ∀ w, (∀ l ∈ w, l.hasDomain (a₀.alphabet ∪ b₀.alphabet) = true) →
        (c.run w).accepts = ((a₀.run (w.map (·.restrict a₀.alphabet))).accepts &&
          (b₀.run (w.map (·.restrict b₀.alphabet))).accepts) := by
  intro a b c
  have hWFa₀ := validate_eq_none_iff.mp hA
  have hWFb₀ := validate_eq_none_iff.mp hB
  have hWFa : a.WellFormed := wellFormed_addVarsOf hWFa₀ b₀
  have hWFb : b.WellFormed := wellFormed_addVarsOf hWFb₀ a
  have hAlphabetA : a.alphabet = a₀.alphabet ∪ b₀.alphabet := alphabet_addVarsOf
  have hAlphabetB : b.alphabet = a₀.alphabet ∪ b₀.alphabet := alphabet_addVarsOf_addVarsOf
  have hPairs : (a.pairRuns b).encard ≤ 2 ^ 64 := by
    refine hWFa.encard_pairRuns_le hWFb |>.trans ?_
    have hStatesA : a.states = a₀.states := states_addVarsOf
    have hStatesB : b.states = b₀.states := states_addVarsOf
    rw [hStatesA, hStatesB]
    exact_mod_cast hCap
  refine ⟨hAlphabetA, hAlphabetB, (alphabet_productConstruction recv a b).trans hAlphabetA,
    validate_eq_none_iff.mpr hWFa, validate_eq_none_iff.mpr hWFb,
    validate_eq_none_iff.mpr (wellFormed_intersect hWFa.label_domain), fun w hw => ?_⟩
  -- The second automaton was grown by the grown first one: the same union, written the other way.
  have hSame : b₀.alphabet ∪ a.alphabet = a₀.alphabet ∪ b₀.alphabet :=
    alphabet_addVarsOf.symm.trans hAlphabetB
  rw [accepts_run_intersect hPairs, accepts_run_addVarsOf hWFa₀ hw,
    accepts_run_addVarsOf hWFb₀ (hSame ▸ hw)]

/-- The theorem at two automata over disjoint alphabets, one reading variable `0` once, the other
variable `1` any number of times. -/
theorem common_alphabet_product_reads_both_of_disjoint_alphabets :
    let a₀ := (((Automaton.empty {}).addState 0).addState 1).addTransition 0
      ((∅ : Label).insert 0 true) 1 |>.markInitial 0 |>.markFinal 1
    let b₀ := ((Automaton.empty {}).addState 5).addTransition 5 ((∅ : Label).insert 1 false) 5
      |>.markInitial 5 |>.markFinal 5
    a₀.validate = none ∧ b₀.validate = none ∧ a₀.states.size * b₀.states.size ≤ 2 ^ 64 ∧
      let a := a₀.addVarsOf b₀
      let b := b₀.addVarsOf a
      let c := (Automaton.empty {}).intersect a b
      a.alphabet = a₀.alphabet ∪ b₀.alphabet ∧ b.alphabet = a₀.alphabet ∪ b₀.alphabet ∧
        c.alphabet = a₀.alphabet ∪ b₀.alphabet ∧
        a.validate = none ∧ b.validate = none ∧ c.validate = none ∧
        ∀ w, (∀ l ∈ w, l.hasDomain (a₀.alphabet ∪ b₀.alphabet) = true) →
          (c.run w).accepts = ((a₀.run (w.map (·.restrict a₀.alphabet))).accepts &&
            (b₀.run (w.map (·.restrict b₀.alphabet))).accepts) := by
  intro a₀ b₀
  have hA : a₀.validate = none := by decide
  have hB : b₀.validate = none := by decide
  have hCap : a₀.states.size * b₀.states.size ≤ 2 ^ 64 := by decide
  exact ⟨hA, hB, hCap, common_alphabet_product_reads_both hA hB hCap _⟩

end Automaton

end BitAutomata
