import BitAutomata.Epsilon
import BitAutomata.Proofs.Closure
import BitAutomata.Proofs.WellFormed

/-!
# The silent reach of a state

Silent-arc removal follows silent arcs between states only (`Automaton.SilentWithin`). The states
so reached from a state, widened in rounds (`Automaton.silentReach`), are the
reflexive-transitive closure of those moves (`mem_silentReach`).

The removal lists each state's reach by a depth-first search (`Automaton.epsilonReach`) over a
numbering of the states: the search marks the number of every state it meets and never pushes a
marked state again. Between expansions the states met are distinct and reached from the start,
the marked numbers are exactly theirs, and every silent move out of an expanded state leads to a
state met (`SilentSearch.Invariant`, kept by each expansion: `Invariant.expand`). Once the stack
is empty the expanded states are closed under silent moves, so the search lists every state of
the reach exactly once, the start first (`mem_epsilonReach_iff`, `nodup_epsilonReach`). When
every silent target is a state, this is the silent closure that runs follow
(`epsilonReach_lists_silent_closure`).
-/

namespace BitAutomata

open Relation Std

namespace Automaton

variable {a : Automaton}

/-- The states reached from a set by silent moves through states. -/
def silentStep (a : Automaton) (s : StateSet) : StateSet :=
  (a.table.image .epsilon s).filter fun t => a.states.contains t

/-- The states reached from a state by silent moves through states, the state itself included,
widened in rounds: the reference the depth-first search is measured against. Every round that
adds something adds a state, so one round more than there are states reaches the fixed point. -/
def silentReach (a : Automaton) (s : State) : StateSet :=
  StateSet.saturate a.silentStep (a.states.size + 1) {s}

/-- A silent arc whose target is a state: the moves that silent-arc removal follows. -/
def SilentWithin (a : Automaton) (x y : State) : Prop :=
  a.table.Silent x y ∧ y ∈ a.states

theorem mem_silentStep {S : StateSet} {y : State} :
    y ∈ a.silentStep S ↔ ∃ x ∈ S, a.SilentWithin x y := by
  simp only [silentStep, StateSet.mem_filter, Table.mem_image, SilentWithin, Table.Silent,
    ExtTreeSet.contains_iff_mem]
  constructor
  · rintro ⟨⟨x, hx, hxy⟩, hy⟩
    exact ⟨x, hx, hxy, hy⟩
  · rintro ⟨x, hx, hxy, hy⟩
    exact ⟨⟨x, hx, hxy⟩, hy⟩

/-- The silent reach of a state: the states reached from it by silent arcs between states. -/
theorem mem_silentReach {s v : State} : v ∈ a.silentReach s ↔ ReflTransGen a.SilentWithin s v := by
  have hBound : ∀ x y, a.SilentWithin x y → y ∈ a.states.toFinset :=
    fun _ _ hxy => StateSet.mem_toFinset.mpr hxy.2
  rw [silentReach, StateSet.mem_saturate_iff (fun _ _ => mem_silentStep) hBound
    (by rw [StateSet.card_toFinset]; omega)]
  simp

/-- When every silent target is a state, the silent reach of a state is its silent closure. -/
theorem mem_silentReach_iff_of_silent_mem (hTargets : ∀ x y, a.table.Silent x y → y ∈ a.states)
    {s v : State} : v ∈ a.silentReach s ↔ ReflTransGen a.table.Silent s v := by
  rw [mem_silentReach]
  constructor
  · exact ReflTransGen.mono (fun x y (hxy : a.SilentWithin x y) => hxy.1) s v
  · exact ReflTransGen.mono (fun x y (hxy : a.table.Silent x y) => ⟨hxy, hTargets x y hxy⟩) s v

theorem mem_silentReach_self {s : State} : s ∈ a.silentReach s :=
  mem_silentReach.mpr ReflTransGen.refl

/-- What a member of the silent reach reaches is in the reach. -/
theorem silentReach_trans {s t v : State} (ht : t ∈ a.silentReach s) (hv : v ∈ a.silentReach t) :
    v ∈ a.silentReach s :=
  mem_silentReach.mpr ((mem_silentReach.mp ht).trans (mem_silentReach.mp hv))

/-- Without silent arcs a state reaches only itself. -/
theorem mem_silentReach_of_hasEpsilon_eq_false (h : a.hasEpsilon = false) {s v : State} :
    v ∈ a.silentReach s ↔ s = v := by
  rw [mem_silentReach]
  constructor
  · intro hsv
    rcases hsv.cases_head with hEq | ⟨t, hst, -⟩
    · exact hEq
    · have hNone : a.table.targets s .epsilon = ∅ := hasEpsilon_eq_false_iff.mp h s
      exact absurd hst.1 (by simp [Table.Silent, hNone])
  · rintro rfl
    exact ReflTransGen.refl

/-- From a state, silent moves through states lead to states. -/
theorem mem_states_of_silentWithin {s t : State} (hs : s ∈ a.states)
    (h : ReflTransGen a.SilentWithin s t) : t ∈ a.states := by
  rcases h.cases_tail with rfl | ⟨_, -, hLast⟩
  · exact hs
  · exact hLast.2

end Automaton

/-! ### Numberings of the states -/

namespace StateSet

/-- `index` numbers exactly the members of `S`, distinct members by distinct numbers. -/
structure Numbers (S : StateSet) (index : ExtTreeMap State Nat) : Prop where
  mem_iff : ∀ x, x ∈ index ↔ x ∈ S
  injective : ∀ (x y : State) (i : Nat), index[x]? = some i → index[y]? = some i → x = y

variable {S : StateSet} {index : ExtTreeMap State Nat} {x : State} {i : Nat}

theorem Numbers.mem_of_getElem? (h : S.Numbers index) (hx : index[x]? = some i) : x ∈ S :=
  (h.mem_iff x).mp (ExtTreeMap.mem_iff_isSome_getElem?.mpr (by simp [hx]))

theorem Numbers.exists_getElem? (h : S.Numbers index) (hx : x ∈ S) : ∃ i, index[x]? = some i :=
  Option.isSome_iff_exists.mp (ExtTreeMap.mem_iff_isSome_getElem?.mp ((h.mem_iff x).mpr hx))

theorem mem_denseIndex : x ∈ S.denseIndex ↔ x ∈ S := by
  rw [denseIndex, ExtTreeMap.mem_ofList, List.zipIdx_map_fst, List.contains_iff_mem,
    ExtTreeSet.mem_toList]

/-- A member is numbered by its position in ascending order. -/
theorem getElem?_denseIndex (hx : x ∈ S) : S.denseIndex[x]? = some (S.toList.idxOf x) := by
  refine ExtTreeMap.getElem?_ofList_of_mem ReflCmp.compare_self ?_ ?_
  · -- The numbered states are distinct.
    have hDistinct : (S.toList.zipIdx.map Prod.fst).Pairwise
        fun x x' => ¬ compare x x' = .eq := by
      rw [List.zipIdx_map_fst]
      exact ExtTreeSet.distinct_toList
    rw [List.pairwise_map] at hDistinct
    exact hDistinct
  · exact List.mem_zipIdx_iff_getElem?.mpr (List.getElem?_idxOf (ExtTreeSet.mem_toList.mpr hx))

/-- The dense numbering numbers every member, each by a number of its own. -/
theorem numbers_denseIndex (S : StateSet) : S.Numbers S.denseIndex where
  mem_iff _ := mem_denseIndex
  injective x y i hx hy := by
    have hxS : x ∈ S := mem_denseIndex.mp (ExtTreeMap.mem_iff_isSome_getElem?.mpr (by simp [hx]))
    have hyS : y ∈ S := mem_denseIndex.mp (ExtTreeMap.mem_iff_isSome_getElem?.mpr (by simp [hy]))
    rw [getElem?_denseIndex hxS] at hx
    rw [getElem?_denseIndex hyS] at hy
    exact (List.idxOf_inj (ExtTreeSet.mem_toList.mpr hxS)).mp (Option.some.inj (hx.trans hy.symm))

end StateSet

/-! ### The depth-first search -/

namespace SilentSearch

variable {a : Automaton} {index : ExtTreeMap State Nat} {s n t x : State} {σ : SilentSearch}
  {ts : List State}

/-- The states a search has met: the expanded ones, then those on the stack. -/
def met (σ : SilentSearch) : List State :=
  σ.out ++ σ.stack

theorem mem_met_pushed {v : ExtTreeSet Nat} :
    x ∈ ({ σ with visited := v, stack := t :: σ.stack } : SilentSearch).met ↔ x = t ∨ x ∈ σ.met := by
  simp only [met, List.mem_append, List.mem_cons, or_left_comm]

/-- A push passes over a target without a number or with a marked number, and otherwise marks the
target's number and puts it on the stack. -/
theorem push_cases (index : ExtTreeMap State Nat) (σ : SilentSearch) (t : State) :
    (index[t]? = none ∧ σ.push index t = σ) ∨
      (∃ i, index[t]? = some i ∧ i ∈ σ.visited ∧ σ.push index t = σ) ∨
      ∃ i, index[t]? = some i ∧ i ∉ σ.visited ∧
        σ.push index t = { σ with visited := σ.visited.insert i, stack := t :: σ.stack } := by
  unfold push
  split
  · rename_i ht
    exact Or.inl ⟨ht, rfl⟩
  · rename_i i ht
    split
    · rename_i hi
      exact Or.inr (Or.inl ⟨i, ht, ExtTreeSet.contains_iff_mem.mp hi, rfl⟩)
    · rename_i hi
      exact Or.inr (Or.inr ⟨i, ht, fun hMem => hi (ExtTreeSet.contains_iff_mem.mpr hMem), rfl⟩)

theorem out_push : (σ.push index t).out = σ.out := by
  rcases push_cases index σ t with ⟨-, hEq⟩ | ⟨_, -, -, hEq⟩ | ⟨_, -, -, hEq⟩ <;>
    rw [hEq]

theorem out_foldl_push : (ts.foldl (push index) σ).out = σ.out := by
  induction ts generalizing σ with
  | nil => rfl
  | cons t ts ih => rw [List.foldl_cons, ih, out_push]

/-- A push keeps every state met. -/
theorem mem_met_push_of_mem (hx : x ∈ σ.met) : x ∈ (σ.push index t).met := by
  rcases push_cases index σ t with ⟨-, hEq⟩ | ⟨_, -, -, hEq⟩ | ⟨_, -, -, hEq⟩
  · rwa [hEq]
  · rwa [hEq]
  · rw [hEq, mem_met_pushed]
    exact Or.inr hx

theorem mem_met_foldl_push_of_mem (hx : x ∈ σ.met) : x ∈ (ts.foldl (push index) σ).met := by
  induction ts generalizing σ with
  | nil => exact hx
  | cons t ts ih => exact ih (mem_met_push_of_mem hx)

/-- Taking the top of the stack off and outputting it leaves the states met as they were. -/
theorem met_popped {v : ExtTreeSet Nat} {rest out : List State} :
    (⟨v, rest, out ++ [n]⟩ : SilentSearch).met = (⟨v, n :: rest, out⟩ : SilentSearch).met := by
  simp [met]

theorem out_expand : (σ.expand a index n).out = σ.out ++ [n] := by
  rw [expand, out_foldl_push]

/-- Expanding the top of the stack keeps every state met. -/
theorem mem_met_expand_of_mem {v : ExtTreeSet Nat} {rest out : List State}
    (hx : x ∈ (⟨v, n :: rest, out⟩ : SilentSearch).met) :
    x ∈ (SilentSearch.expand a index ⟨v, rest, out⟩ n).met :=
  mem_met_foldl_push_of_mem (met_popped ▸ hx)

/-- What a search from `s` keeps while it pushes: the states met are distinct and reached from `s`
by silent moves through states, and the marked numbers are exactly the numbers of the states
met. -/
structure Sound (a : Automaton) (index : ExtTreeMap State Nat) (s : State) (σ : SilentSearch) :
    Prop where
  nodup : σ.met.Nodup
  reach : ∀ x ∈ σ.met, ReflTransGen a.SilentWithin s x
  visited : ∀ i, i ∈ σ.visited ↔ ∃ x ∈ σ.met, index[x]? = some i

section Push

variable (hN : a.states.Numbers index) (h : Sound a index s σ)
include hN h

/-- A state is met once pushed: a state passed over had its number marked, by itself. -/
theorem mem_met_push_self (ht : t ∈ a.states) : t ∈ (σ.push index t).met := by
  rcases push_cases index σ t with ⟨hNone, -⟩ | ⟨i, hti, hi, hEq⟩ | ⟨_, -, -, hEq⟩
  · obtain ⟨i, hti⟩ := hN.exists_getElem? ht
    rw [hti] at hNone
    exact absurd hNone (by simp)
  · obtain ⟨y, hy, hyi⟩ := (h.visited i).mp hi
    rw [hEq, hN.injective t y i hti hyi]
    exact hy
  · rw [hEq, mem_met_pushed]
    exact Or.inl rfl

/-- Pushing a silent target of a state met keeps the search sound. -/
theorem Sound.push_silent (hn : n ∈ σ.met) (ht : a.table.Silent n t) : Sound a index s (σ.push index t) := by
  rcases push_cases index σ t with ⟨-, hEq⟩ | ⟨_, -, -, hEq⟩ | ⟨i, hti, hi, hEq⟩
  · rwa [hEq]
  · rwa [hEq]
  rw [hEq]
  -- `t` was not met before, or its number would be marked.
  have htNew : t ∉ σ.met := fun htMet => hi ((h.visited i).mpr ⟨t, htMet, hti⟩)
  have htReach : ReflTransGen a.SilentWithin s t :=
    (h.reach n hn).tail ⟨ht, hN.mem_of_getElem? hti⟩
  refine ⟨?_, ?_, ?_⟩
  · change (σ.out ++ t :: σ.stack).Nodup
    rw [List.nodup_middle, List.nodup_cons]
    exact ⟨htNew, h.nodup⟩
  · intro x hx
    rcases mem_met_pushed.mp hx with rfl | hx
    · exact htReach
    · exact h.reach x hx
  · intro j
    rw [ExtTreeSet.mem_insert, LawfulEqCmp.compare_eq_iff_eq, h.visited j]
    simp only [mem_met_pushed, or_and_right, exists_or, exists_eq_left, hti, Option.some.injEq]

end Push

/-- Meeting silent targets of a state met keeps the search sound. -/
theorem Sound.foldl_push (hN : a.states.Numbers index) (h : Sound a index s σ) (hn : n ∈ σ.met)
    (hts : ∀ t ∈ ts, a.table.Silent n t) : Sound a index s (ts.foldl (push index) σ) := by
  induction ts generalizing σ with
  | nil => exact h
  | cons t ts ih =>
    exact ih (h.push_silent hN hn (hts t List.mem_cons_self)) (mem_met_push_of_mem hn)
      fun u hu => hts u (List.mem_cons_of_mem t hu)

/-- After silent targets of a state met are met in turn, each of them that is a state is met. -/
theorem mem_met_foldl_push (hN : a.states.Numbers index) (h : Sound a index s σ) (hn : n ∈ σ.met)
    (hts : ∀ t ∈ ts, a.table.Silent n t) (ht : t ∈ ts) (htS : t ∈ a.states) :
    t ∈ (ts.foldl (push index) σ).met := by
  induction ts generalizing σ with
  | nil => exact absurd ht List.not_mem_nil
  | cons u us ih =>
    have hu : a.table.Silent n u := hts u List.mem_cons_self
    rw [List.foldl_cons]
    rcases List.mem_cons.mp ht with rfl | ht
    · exact mem_met_foldl_push_of_mem (mem_met_push_self hN h htS)
    · exact ih (h.push_silent hN hn hu) (mem_met_push_of_mem hn)
        (fun v hv => hts v (List.mem_cons_of_mem u hv)) ht

/-- The invariant of a search from `s` between expansions: it is sound, and every silent move
through states out of an expanded state leads to a state met. -/
structure Invariant (a : Automaton) (index : ExtTreeMap State Nat) (s : State) (σ : SilentSearch) :
    Prop extends Sound a index s σ where
  closed : ∀ x ∈ σ.out, ∀ y, a.SilentWithin x y → y ∈ σ.met

/-- Step lemma: expanding the top of the stack keeps the invariant. The expanded state is output,
which leaves the states met as they were, and each of its silent targets that is a state is met
by the end of the expansion. -/
theorem Invariant.expand (hN : a.states.Numbers index) {v : ExtTreeSet Nat} {rest out : List State}
    (h : Invariant a index s ⟨v, n :: rest, out⟩) :
    Invariant a index s (SilentSearch.expand a index ⟨v, rest, out⟩ n) := by
  have hSound : Sound a index s ⟨v, rest, out ++ [n]⟩ :=
    ⟨met_popped ▸ h.nodup, met_popped ▸ h.reach, met_popped ▸ h.visited⟩
  have hn : n ∈ (⟨v, rest, out ++ [n]⟩ : SilentSearch).met := by
    simp [met]
  have hts : ∀ t ∈ (a.targets n .epsilon).toList, a.table.Silent n t :=
    fun _ ht => ExtTreeSet.mem_toList.mp ht
  refine ⟨hSound.foldl_push hN hn hts, ?_⟩
  intro x hx y hxy
  rw [out_expand] at hx
  rcases List.mem_append.mp hx with hx | hx
  · exact mem_met_expand_of_mem (h.closed x hx y hxy)
  · rw [List.mem_singleton.mp hx] at hxy
    exact mem_met_foldl_push hN hSound hn hts (ExtTreeSet.mem_toList.mpr hxy.1) hxy.2

/-- The list a search gives starts with the states already expanded. -/
theorem searchSilent_eq_append (a : Automaton) (index : ExtTreeMap State Nat) (σ : SilentSearch) :
    ∃ rest, a.searchSilent index σ = σ.out ++ rest := by
  fun_induction a.searchSilent index σ with
  | case1 visited out => exact ⟨[], by simp⟩
  | case2 visited n rest out ih =>
    obtain ⟨rest', hRest⟩ := ih
    rw [hRest, out_expand]
    exact ⟨n :: rest', by simp⟩

/-- Every state a search has met ends up in the list it gives. -/
theorem mem_searchSilent_of_mem_met (σ : SilentSearch) (hx : x ∈ σ.met) :
    x ∈ a.searchSilent index σ := by
  fun_induction a.searchSilent index σ with
  | case1 visited out => simpa [met] using hx
  | case2 visited n rest out ih => exact ih (mem_met_expand_of_mem hx)

/-- Run lemma: a search that starts from the invariant ends with an empty stack and the invariant
still holding. -/
theorem Invariant.searchSilent (hN : a.states.Numbers index) (σ : SilentSearch)
    (h : Invariant a index s σ) : ∃ v, Invariant a index s ⟨v, [], a.searchSilent index σ⟩ := by
  fun_induction a.searchSilent index σ with
  | case1 visited out => exact ⟨visited, h⟩
  | case2 visited n rest out ih => exact ih (h.expand hN)

/-- The search starts from the invariant: only `s` is met, and its number is the one marked. -/
theorem invariant_start (hN : a.states.Numbers index) (hs : s ∈ a.states) :
    Invariant a index s { visited := {index.getD s 0}, stack := [s], out := [] } := by
  obtain ⟨i, hi⟩ := hN.exists_getElem? hs
  refine ⟨⟨by simp [met], ?_, ?_⟩, by simp⟩
  · intro x hx
    obtain rfl : x = s := by simpa [met] using hx
    exact ReflTransGen.refl
  · intro j
    rw [ExtTreeMap.getD_eq_getD_getElem?, hi, Option.getD_some, ExtTreeSet.singleton_eq_insert,
      ExtTreeSet.mem_insert, LawfulEqCmp.compare_eq_iff_eq]
    simp [met, hi, ExtTreeSet.not_mem_empty]

end SilentSearch

namespace Automaton

open SilentSearch

variable {a : Automaton} {index : ExtTreeMap State Nat} {s t : State}

/-- The search from any start lists the start first. -/
theorem epsilonReach_eq_cons (a : Automaton) (s : State) (index : ExtTreeMap State Nat) :
    ∃ rest, a.epsilonReach s index = s :: rest := by
  rw [epsilonReach, searchSilent]
  obtain ⟨rest, hRest⟩ :=
    searchSilent_eq_append a index (SilentSearch.expand a index ⟨{index.getD s 0}, [], []⟩ s)
  rw [hRest, out_expand]
  exact ⟨rest, rfl⟩

section Numbered

variable (hN : a.states.Numbers index) (hs : s ∈ a.states)
include hN hs

/-- The search from a state lists exactly the states it reaches by silent moves through states. -/
theorem mem_epsilonReach_iff : t ∈ a.epsilonReach s index ↔ ReflTransGen a.SilentWithin s t := by
  obtain ⟨v, hEnd⟩ := (invariant_start hN hs).searchSilent hN
  have hMet : ∀ {y}, y ∈ (⟨v, [], a.epsilonReach s index⟩ : SilentSearch).met ↔
      y ∈ a.epsilonReach s index := by
    simp [met]
  constructor
  · exact fun ht => hEnd.reach t (hMet.mpr ht)
  · intro hst
    -- Follow the path from `s`: the start is listed, and the list is closed under silent moves.
    induction hst with
    | refl => exact mem_searchSilent_of_mem_met _ (by simp [met])
    | tail _ hLast ih => exact hMet.mp (hEnd.closed _ ih _ hLast)

/-- The search lists no state twice. -/
theorem nodup_epsilonReach : (a.epsilonReach s index).Nodup := by
  obtain ⟨v, hEnd⟩ := (invariant_start hN hs).searchSilent hN
  have hNodup := hEnd.nodup
  rw [met, List.append_nil] at hNodup
  exact hNodup

/-- The search expands each state at most once, so at most as many as there are states. -/
theorem length_epsilonReach_le : (a.epsilonReach s index).length ≤ a.states.size := by
  have hSub : (a.epsilonReach s index).toFinset ⊆ a.states.toFinset := by
    intro t ht
    rw [List.mem_toFinset, mem_epsilonReach_iff hN hs] at ht
    exact StateSet.mem_toFinset.mpr (mem_states_of_silentWithin hs ht)
  calc (a.epsilonReach s index).length
      = (a.epsilonReach s index).toFinset.card :=
        (List.toFinset_card_of_nodup (nodup_epsilonReach hN hs)).symm
    _ ≤ a.states.toFinset.card := Finset.card_le_card hSub
    _ = a.states.size := StateSet.card_toFinset _

/-- The search lists the silent reach that rounds of widening compute. -/
theorem mem_epsilonReach_iff_mem_silentReach : t ∈ a.epsilonReach s index ↔ t ∈ a.silentReach s := by
  rw [mem_epsilonReach_iff hN hs, mem_silentReach]

end Numbered

/-- When every silent target is a state, the depth-first search from a state over the dense
numbering of the states stops, expanding each state at most once, and lists without repetition,
the state first, exactly the silent closure that runs follow from it. -/
theorem epsilonReach_lists_silent_closure (hTargets : ∀ x y, a.table.Silent x y → y ∈ a.states)
    (hs : s ∈ a.states) :
    (a.epsilonReach s a.states.denseIndex).Nodup ∧
      (a.epsilonReach s a.states.denseIndex).head? = some s ∧
      (∀ t, t ∈ a.epsilonReach s a.states.denseIndex ↔ t ∈ a.table.closure {s}) ∧
      (a.epsilonReach s a.states.denseIndex).length ≤ a.states.size := by
  have hN := StateSet.numbers_denseIndex a.states
  obtain ⟨rest, hCons⟩ := epsilonReach_eq_cons a s a.states.denseIndex
  refine ⟨nodup_epsilonReach hN hs, by rw [hCons]; rfl, fun t => ?_, length_epsilonReach_le hN hs⟩
  rw [mem_epsilonReach_iff_mem_silentReach hN hs, mem_silentReach_iff_of_silent_mem hTargets,
    Table.mem_closure_iff]
  simp

/-- The theorem at state `0` of the silent cycle `0 ⇄ 1`, with a silent self-loop on `1` and a
silent arc from `1` to `2`. -/
theorem epsilonReach_lists_silent_closure_on_silent_cycle :
    let a := (((((((Automaton.empty {}).addState 0).addState 1).addState 2).addEpsilon 0 1
      ).addEpsilon 1 0).addEpsilon 1 1).addEpsilon 1 2
    (∀ x y, a.table.Silent x y → y ∈ a.states) ∧ (0 : State) ∈ a.states ∧
      ((a.epsilonReach 0 a.states.denseIndex).Nodup ∧
        (a.epsilonReach 0 a.states.denseIndex).head? = some 0 ∧
        (∀ t, t ∈ a.epsilonReach 0 a.states.denseIndex ↔ t ∈ a.table.closure {0}) ∧
        (a.epsilonReach 0 a.states.denseIndex).length ≤ a.states.size) := by
  intro a
  have hValid : a.validate = none := by decide
  have hTargets : ∀ x y, a.table.Silent x y → y ∈ a.states :=
    fun x y hxy => (validate_eq_none_iff.mp hValid).target_mem x .epsilon y hxy
  have hs : (0 : State) ∈ a.states := by decide
  exact ⟨hTargets, hs, epsilonReach_lists_silent_closure hTargets hs⟩

/-- There the search goes `0`, `1`, then `2`: the back arc to `0` and the self-loop on `1` meet
marked numbers. -/
example :
    let a := (((((((Automaton.empty {}).addState 0).addState 1).addState 2).addEpsilon 0 1
      ).addEpsilon 1 0).addEpsilon 1 1).addEpsilon 1 2
    a.epsilonReach 0 a.states.denseIndex = [0, 1, 2] := by
  decide +kernel

end Automaton

end BitAutomata
